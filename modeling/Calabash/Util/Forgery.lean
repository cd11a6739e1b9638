import Calabash.Util.Token

/-!
# Rewriting a token without its key

The digest in a token has no key, and a text that is known, put over the token, leaves the
key stream. Who knows the user id and the expiry text of a token makes from it the token of
another user id of the same length.
-/

namespace Calabash
namespace Token

open Base64 (Ascii)

/-- The text that becomes a token when the key is put over it. -/
def signed (user expiry : Bytes) : Bytes :=
  MD5.encode (user ++ bar :: expiry) ++ (user ++ bar :: expiry)

/-- Exclusive-or, byte by byte. -/
def mask (s t : Bytes) : Bytes := List.zipWith (· ^^^ ·) s t

/-- The token of `v`, made from one of `u`. -/
def forge (token u expiry v : Bytes) : Bytes :=
  let pass := (Base64.decode token).getD []
  (Base64.encode (mask pass (mask (signed u expiry) (signed v expiry)))).getD []

/-- Under this key the token is accepted, with this user id and this expiry text. -/
structure Names (clock : Clock) (token key : Bytes) (now : ℤ) (user expiry : Bytes) : Prop where
  text : (Base64.decode token).bind (xorKey key) = some (signed user expiry)
  parse : parse clock token key now =
    some ⟨true, now ≤ clock.getTime expiry, user, clock.getTime expiry⟩

/-! ## What is below 128 -/

theorem ascii_append {s t : Bytes} (hs : Ascii s) (ht : Ascii t) : Ascii (s ++ t) := by
  intro c hc
  rcases List.mem_append.mp hc with hc | hc
  · exact hs c hc
  · exact ht c hc

theorem ascii_encode (src : Bytes) : Ascii (MD5.encode src) := by
  have hdigit : ∀ n : Fin 16, MD5.str16.getD n 0 < 128 := by decide
  have hformat : ∀ num, Ascii (MD5.format num) := by
    intro num c hc
    obtain ⟨i, -, hi⟩ := List.mem_flatMap.mp hc
    have hhigh := hdigit ⟨(num >>> UInt32.ofNat (i * 8)).toNat % 256 / 16 % 16, by omega⟩
    have hlow := hdigit ⟨(num >>> UInt32.ofNat (i * 8)).toNat % 256 % 16, by omega⟩
    rcases List.mem_cons.mp hi with rfl | hi
    · exact hhigh
    · rw [List.mem_singleton.mp hi]
      exact hlow
  exact ascii_append (ascii_append (ascii_append (hformat _) (hformat _)) (hformat _)) (hformat _)

/-- The form of the expiry text leaves room for digits and a few signs. -/
theorem ascii_of_form {text : Bytes} {form : List Char}
    (h : List.Forall₂ (fun c k => if k = 'd' then isDigit c = true else [c] = ascii [k]) text form)
    (hform : Ascii (ascii form)) : Ascii text := by
  induction h with
  | nil => exact nofun
  | @cons c k text form hc _ ih =>
    have hk : UInt8.ofNat k.toNat < 128 := hform _ (List.mem_cons_self)
    have hrest : Ascii (ascii form) := fun x hx => hform x (List.mem_cons_of_mem _ hx)
    intro x hx
    rcases List.mem_cons.mp hx with rfl | hx
    · split at hc
      · have hdigit := isDigit_iff.mp hc
        rw [UInt8.lt_iff_toNat_lt]
        exact Nat.lt_of_le_of_lt hdigit.2 (by decide)
      · rw [List.singleton_inj.mp hc]
        exact hk
    · exact ih hrest x hx

theorem ascii_putTime (clock : Clock) (t : ℤ) : Ascii (clock.putTime t) :=
  ascii_of_form (clock.form t) (by decide +kernel)

theorem xor_lt {a b : UInt8} (ha : a < 128) (hb : b < 128) : a ^^^ b < 128 := by
  rw [UInt8.lt_iff_toNat_lt] at ha hb ⊢
  rw [UInt8.toNat_xor]
  exact Nat.xor_lt_two_pow (n := 7) ha hb

theorem ascii_xorFrom {key text : Bytes} (hkey : Ascii key) (htext : Ascii text) (i : ℕ) :
    Ascii (xorFrom key i text) := by
  induction text generalizing i with
  | nil => exact nofun
  | cons c text ih =>
    have hk : key.getD i 0 < 128 := by
      rw [List.getD_eq_getElem?_getD]
      cases hget : key[i]? with
      | none => decide
      | some k => exact hkey k (List.mem_of_getElem? hget)
    intro x hx
    rcases List.mem_cons.mp hx with rfl | hx
    · exact xor_lt (htext c List.mem_cons_self) hk
    · exact ih (fun y hy => htext y (List.mem_cons_of_mem _ hy)) _ x hx

/-! ## The forged token -/

theorem length_xorFrom (key : Bytes) (i : ℕ) (text : Bytes) :
    (xorFrom key i text).length = text.length := by
  induction text generalizing i with
  | nil => rfl
  | cons c text ih => rw [xorFrom, List.length_cons, List.length_cons, ih]

/-- What is put over a text and its key stream changes the text and keeps the key stream. -/
theorem mask_xorFrom (key : Bytes) (i : ℕ) {s t : Bytes} (h : s.length = t.length) :
    mask (xorFrom key i s) (mask s t) = xorFrom key i t := by
  induction s generalizing i t with
  | nil =>
    rw [List.length_eq_zero_iff.mp h.symm]
    rfl
  | cons a s ih =>
    obtain ⟨b, t, rfl⟩ : ∃ b t', t = b :: t' := List.exists_cons_of_length_pos (by simp [← h])
    have hbyte : a ^^^ key.getD i 0 ^^^ (a ^^^ b) = b ^^^ key.getD i 0 := by
      rw [UInt8.xor_comm a, UInt8.xor_assoc, ← UInt8.xor_assoc a, UInt8.xor_self, UInt8.zero_xor,
        UInt8.xor_comm]
    have hrest := ih ((i + 1) % key.length) (by simpa using h)
    rw [xorFrom, xorFrom, ← hrest, ← hbyte]
    rfl

theorem length_signed (user expiry : Bytes) :
    (signed user expiry).length = 32 + (user.length + (expiry.length + 1)) := by
  simp [signed]

theorem ascii_signed {user expiry : Bytes} (huser : Ascii user) (hexpiry : Ascii (bar :: expiry)) :
    Ascii (signed user expiry) :=
  ascii_append (ascii_encode _) (ascii_append huser hexpiry)

theorem toString_issue {clock : Clock} {u expiry : Bytes} {effectiveTime now : ℤ}
    (hexpiry : clock.putTime (now + effectiveTime) = bar :: expiry) (now' : ℤ) :
    (issue u effectiveTime now now').toString clock = signed u expiry := by
  rw [toString, if_neg (by simp [issue])]
  change MD5.encode (u ++ clock.putTime (now + effectiveTime)) ++
    (u ++ clock.putTime (now + effectiveTime)) = signed u expiry
  rw [hexpiry, signed]

/-- A user id without separator is found in what a token holds. -/
theorem parse_signed {clock : Clock} {token key pass user expiry : Bytes} (now : ℤ)
    (hdecode : Base64.decode token = some pass)
    (hstr : xorKey key pass = some (signed user expiry)) (hbar : bar ∉ user) :
    parse clock token key now =
      some ⟨true, now ≤ clock.getTime expiry, user, clock.getTime expiry⟩ := by
  have hfind : (user ++ bar :: expiry).findIdx (· == bar) = user.length := by
    have hnone : user.findIdx (· == bar) = user.length := by
      rw [List.findIdx_eq_length]
      intro c hc
      rw [beq_eq_false_iff_ne]
      rintro rfl
      exact hbar hc
    rw [List.findIdx_append, hnone, if_neg (lt_irrefl _), List.findIdx_cons]
    simp
  rw [parse_payload now hdecode hstr (by simp), hfind]
  simp

/-- What an issued token holds under its key. -/
theorem decode_issued {clock : Clock} {u key token expiry : Bytes} {effectiveTime now now' : ℤ}
    (hexpiry : clock.putTime (now + effectiveTime) = bar :: expiry)
    (hencode : (issue u effectiveTime now now').encode clock key = some token) :
    key ≠ [] ∧ Base64.encode (xorFrom key 0 (signed u expiry)) = some token := by
  obtain ⟨pass, hpass, hbase⟩ := Option.bind_eq_some_iff.mp hencode
  rw [toString_issue hexpiry] at hpass
  rw [xorKey] at hpass
  split at hpass
  · cases hpass
  · next hkey =>
    cases hpass
    refine ⟨fun hnil => hkey ⟨hnil, ?_⟩, hbase⟩
    rw [← List.length_pos_iff, length_signed]
    omega

/-- The forged token is accepted in the place of the one it is made from. -/
theorem names_forge {clock : Clock} {u v key token expiry : Bytes}
    {effectiveTime now now' later : ℤ} {t : Token} (hkey : Ascii key) (hv : Ascii v)
    (hbar : bar ∉ v) (hlen : u.length = v.length)
    (hexpiry : clock.putTime (now + effectiveTime) = bar :: expiry)
    (hencode : (issue u effectiveTime now now').encode clock key = some token)
    (hparse : parse clock token key later = some t) :
    Names clock (forge token u expiry v) key later v expiry := by
  obtain ⟨hne, hbase⟩ := decode_issued hexpiry hencode
  have hsame : (signed u expiry).length = (signed v expiry).length := by
    rw [length_signed, length_signed, hlen]
  have hroom : Base64.Room 4 0 (xorFrom key 0 (signed u expiry)).length := by
    obtain ⟨pass, hpass, -⟩ := Option.bind_eq_some_iff.mp hparse
    by_contra hfull
    rw [Base64.decode_eq hbase, if_neg hfull] at hpass
    cases hpass
  have hdecode : Base64.decode token = some (xorFrom key 0 (signed u expiry)) := by
    rw [Base64.decode_eq hbase, if_pos hroom]
  have hmask : mask (xorFrom key 0 (signed u expiry)) (mask (signed u expiry) (signed v expiry)) =
      xorFrom key 0 (signed v expiry) := mask_xorFrom key 0 hsame
  have hascii : Ascii (xorFrom key 0 (signed v expiry)) := by
    apply ascii_xorFrom hkey (ascii_signed hv _)
    rw [← hexpiry]
    exact ascii_putTime clock _
  have hroom' := Base64.room_of_encodeFrom hbase
  rw [length_xorFrom, hsame, ← length_xorFrom key 0] at hroom hroom'
  obtain ⟨forged, hforged⟩ := Base64.exists_encodeFrom hascii hroom'
  have hforge : forge token u expiry v = forged := by
    rw [forge, hdecode]
    simp only [Option.getD_some, hmask]
    rw [Base64.encode, hforged, Option.getD_some]
  have hpass : Base64.decode forged = some (xorFrom key 0 (signed v expiry)) := by
    rw [Base64.decode_eq hforged, if_pos hroom]
  have hxor : xorKey key (xorFrom key 0 (signed v expiry)) = some (signed v expiry) := by
    apply xorKey_xorKey
    rw [xorKey, if_neg fun h => hne h.1]
  rw [hforge]
  constructor
  · rw [hpass]
    exact hxor
  · exact parse_signed later hpass hxor hbar

/-- `f`, which is not given the key, makes from every token that can be read one of another
user id of the same length, with the same expiry text. -/
def Rewrites (clock : Clock) (f : Bytes → Bytes → Bytes → Bytes → Bytes) : Prop :=
  ∀ (key u v expiry : Bytes) (effectiveTime now now' later : ℤ) (token : Bytes) (t : Token),
    key ≠ [] → Ascii key → Ascii u → Ascii v → u ≠ v → u.length = v.length →
    bar ∉ u → bar ∉ v → clock.putTime (now + effectiveTime) = bar :: expiry →
    (issue u effectiveTime now now').encode clock key = some token →
    parse clock token key later = some t →
    Names clock (f token u expiry v) key later v expiry

/-- `forge` does it, whatever the key. -/
theorem forge_rewrites (clock : Clock) : Rewrites clock forge :=
  fun _ _ _ _ _ _ _ _ _ _ _ hkey _ hv _ hlen _ hbar hexpiry hencode hparse =>
    names_forge hkey hv hbar hlen hexpiry hencode hparse

/-- From a token of `bob`, one of `eve`. -/
theorem forge_rewrites_bob : ∃ token,
    (issue (ascii ['b', 'o', 'b']) 0 0 0).encode epoch (ascii ['k', 'e', 'y']) = some token ∧
      Names epoch
        (forge token (ascii ['b', 'o', 'b']) ((epoch.putTime 0).drop 1) (ascii ['e', 'v', 'e']))
        (ascii ['k', 'e', 'y']) 0 (ascii ['e', 'v', 'e']) ((epoch.putTime 0).drop 1) := by
  obtain ⟨token, t, hencode, hparse⟩ := encode_parse_bob
  have hascii : Ascii (ascii ['k', 'e', 'y']) ∧ Ascii (ascii ['b', 'o', 'b']) ∧
      Ascii (ascii ['e', 'v', 'e']) := by decide +kernel
  have hbar : bar ∉ ascii ['b', 'o', 'b'] ∧ bar ∉ ascii ['e', 'v', 'e'] := by decide +kernel
  have hexpiry : epoch.putTime (0 + 0) = bar :: (epoch.putTime 0).drop 1 := by decide +kernel
  exact ⟨token, hencode, forge_rewrites epoch _ _ _ _ 0 0 0 0 token t (by decide) hascii.1
    hascii.2.1 hascii.2.2 (by decide) rfl hbar.1 hbar.2 hexpiry hencode hparse⟩

/-- There is a function that rewrites tokens without their key. -/
theorem unforgeable_fails : ¬ ∀ clock : Clock, ¬ ∃ f, Rewrites clock f := by
  intro hall
  refine hall epoch ⟨forge, ?_⟩
  intro key u v expiry effectiveTime now now' later token t _ hkey _ hv _ hlen _ hbar hexpiry
    hencode hparse
  exact names_forge hkey hv hbar hlen hexpiry hencode hparse

end Token
end Calabash
