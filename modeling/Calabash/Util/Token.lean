import Mathlib.Data.List.TakeWhile
import Calabash.Util.Base64
import Calabash.Util.MD5

/-!
# `Token`

A token is the digest of the user id and the expiry text with both behind it, exclusive-or
with the key and in Base64. Taking it apart inverts each step but the last: the user id is
what stands in front of the first separator, and the separator in front of the expiry text
is the last one.
-/

namespace Calabash

/-- What `put_time` and `get_time` make of times and texts. The expiry text has the form
`|YYYY-MM-DD HH:MM:SS`. -/
structure Clock where
  putTime : ℤ → Bytes
  getTime : Bytes → ℤ
  form : ∀ t, List.Forall₂ (fun c k => if k = 'd' then isDigit c = true else [c] = ascii [k])
    (putTime t) ['|', 'd', 'd', 'd', 'd', '-', 'd', 'd', '-', 'd', 'd', ' ',
      'd', 'd', ':', 'd', 'd', ':', 'd', 'd']

structure Token where
  isUseful : Bool
  isInTime : Bool
  userId : Bytes
  endTime : ℤ
  deriving DecidableEq, Repr

namespace Token

/-- `'|'`. -/
def bar : UInt8 := 124

/-- The loop that goes through a text and, round and round, through the key. -/
def xorFrom (key : Bytes) (i : ℕ) : Bytes → Bytes
  | [] => []
  | th :: text => (th ^^^ key.getD i 0) :: xorFrom key ((i + 1) % key.length) text

/-- The exclusive-or with the key; a remainder by zero has no meaning. -/
def xorKey (key text : Bytes) : Option Bytes :=
  if key = [] ∧ text ≠ [] then none else some (xorFrom key 0 text)

/-- `Token()`. -/
def empty : Token := ⟨false, false, [], 0⟩

/-- `Token(token, key)`. -/
def parse (clock : Clock) (token key : Bytes) (now : ℤ) : Option Token := do
  let pass ← Base64.decode token
  let str ← xorKey key pass
  if str.length ≤ 32 then return empty
  if str.take 32 ≠ MD5.encode (str.drop 32) then return empty
  let i := 32 + (str.drop 32).findIdx (· == bar)
  if i = str.length then return empty
  let userId := (str.drop 32).take (i - 32)
  let endTime := clock.getTime (str.drop (i + 1))
  return ⟨true, now ≤ endTime, userId, endTime⟩

/-- `Token(user_id, effective_time)`, which reads the clock twice. -/
def issue (userId : Bytes) (effectiveTime now now' : ℤ) : Token :=
  ⟨true, now' ≤ now + effectiveTime, userId, now + effectiveTime⟩

def toString (clock : Clock) (t : Token) : Bytes :=
  if t.isUseful = false then []
  else
    let payload := t.userId ++ clock.putTime t.endTime
    MD5.encode payload ++ payload

def encode (clock : Clock) (t : Token) (key : Bytes) : Option Bytes := do
  let pass ← xorKey key (t.toString clock)
  Base64.encode pass

/-! ## Taking a token apart -/

theorem xorFrom_xorFrom (key : Bytes) (i : ℕ) (text : Bytes) :
    xorFrom key i (xorFrom key i text) = text := by
  induction text generalizing i with
  | nil => rfl
  | cons th text ih => rw [xorFrom, xorFrom, ih, UInt8.xor_assoc, UInt8.xor_self, UInt8.xor_zero]

theorem xorKey_xorKey {key text pass : Bytes} (h : xorKey key text = some pass) :
    xorKey key pass = some text := by
  rw [xorKey] at h
  split at h
  · cases h
  · next hkey =>
    cases h
    rw [xorKey, if_neg, xorFrom_xorFrom]
    rintro ⟨rfl, hpass⟩
    apply hpass
    have htext : text = [] := by
      by_contra hne
      exact hkey ⟨rfl, hne⟩
    rw [htext]
    rfl

/-- The expiry text starts with the separator. -/
theorem putTime_eq (clock : Clock) (t : ℤ) : ∃ rest, clock.putTime t = bar :: rest := by
  have hform := clock.form t
  cases hput : clock.putTime t with
  | nil =>
    rw [hput] at hform
    cases hform
  | cons c rest =>
    rw [hput] at hform
    cases hform with
    | cons hc _ =>
      have hbar : [c] = [bar] := hc
      exact ⟨rest, by rw [List.singleton_inj.mp hbar]⟩

/-- A text behind its own digest is accepted: the user id is what is in front of its first
separator, and the expiry text is what is behind that. -/
theorem parse_payload {clock : Clock} {token key pass payload : Bytes} (now : ℤ)
    (hdecode : Base64.decode token = some pass)
    (hstr : xorKey key pass = some (MD5.encode payload ++ payload)) (hbar : bar ∈ payload) :
    parse clock token key now =
      some ⟨true, now ≤ clock.getTime (payload.drop (payload.findIdx (· == bar) + 1)),
        payload.take (payload.findIdx (· == bar)),
        clock.getTime (payload.drop (payload.findIdx (· == bar) + 1))⟩ := by
  have hlen := MD5.length_encode payload
  have hne : payload ≠ [] := List.ne_nil_of_mem hbar
  have hpos : 0 < payload.length := List.length_pos_iff.mpr hne
  have hdrop : (MD5.encode payload ++ payload).drop 32 = payload := by
    rw [← hlen, List.drop_left]
  have hbehind : ∀ k, (MD5.encode payload ++ payload).drop (32 + k + 1) = payload.drop (k + 1) := by
    intro k
    rw [Nat.add_assoc, ← List.drop_drop, hdrop]
  have htake : (MD5.encode payload ++ payload).take 32 = MD5.encode payload := by
    rw [← hlen, List.take_left]
  have hfind : payload.findIdx (· == bar) < payload.length :=
    List.findIdx_lt_length_of_exists ⟨bar, hbar, beq_self_eq_true bar⟩
  simp only [parse, hdecode, hstr, Option.bind_eq_bind, Option.bind_some, hdrop, htake,
    List.length_append, hlen, Nat.add_sub_cancel_left, hbehind]
  rw [if_neg (by omega), if_neg (not_not.mpr rfl), if_neg (by omega)]
  rfl

theorem take_findIdx (payload : Bytes) :
    payload.take (payload.findIdx (· == bar)) = payload.takeWhile (· != bar) := by
  rw [List.takeWhile_eq_take_findIdx_not]
  simp [bne]

/-- What a token gives back: it is accepted, with the text in front of the first separator
of its payload. -/
theorem parse_encode {clock : Clock} {t t' : Token} {key token : Bytes} {now : ℤ}
    (huseful : t.isUseful = true) (hencode : t.encode clock key = some token)
    (hparse : parse clock token key now = some t') :
    t'.isUseful = true ∧
      t'.userId = (t.userId ++ clock.putTime t.endTime).takeWhile (· != bar) := by
  obtain ⟨pass, hpass, hbase⟩ := Option.bind_eq_some_iff.mp hencode
  obtain ⟨decoded, hdecode, -⟩ := Option.bind_eq_some_iff.mp hparse
  obtain ⟨rest, hrest⟩ := putTime_eq clock t.endTime
  have hsame : decoded = pass := Base64.decode_encode hbase hdecode
  have htext : t.toString clock = MD5.encode (t.userId ++ clock.putTime t.endTime) ++
      (t.userId ++ clock.putTime t.endTime) := by
    rw [toString, if_neg (by simp [huseful])]
  have hstr := xorKey_xorKey hpass
  rw [htext, ← hsame] at hstr
  rw [parse_payload now hdecode hstr (by simp [hrest]), take_findIdx] at hparse
  cases hparse
  exact ⟨rfl, rfl⟩

/-- A token names the user it was issued to exactly when the user id has no separator. -/
theorem names_user_iff {clock : Clock} {u key token : Bytes} {effectiveTime now now' later : ℤ}
    {t : Token} (hencode : (issue u effectiveTime now now').encode clock key = some token)
    (hparse : parse clock token key later = some t) :
    (t.isUseful = true → t.userId = u) ↔ bar ∉ u := by
  obtain ⟨huseful, huser⟩ := parse_encode rfl hencode hparse
  obtain ⟨rest, hrest⟩ := putTime_eq clock (now + effectiveTime)
  change t.userId = (u ++ clock.putTime (now + effectiveTime)).takeWhile (· != bar) at huser
  rw [hrest] at huser
  constructor
  · intro hsame hbar
    rw [← hsame huseful, huser] at hbar
    simpa using List.mem_takeWhile_imp hbar
  · intro hbar _
    have hall : ∀ c ∈ u, (c != bar) = true := by
      intro c hc
      rw [bne_iff_ne]
      rintro rfl
      exact hbar hc
    rw [huser, List.takeWhile_append_of_pos hall, List.takeWhile_cons_of_neg (by simp),
      List.append_nil]

/-- The clock of a run at the beginning of 1970, in UTC. -/
def epoch : Clock where
  putTime _ := ascii ['|', '1', '9', '7', '0', '-', '0', '1', '-', '0', '1', ' ',
    '0', '0', ':', '0', '0', ':', '0', '0']
  getTime _ := 0
  form _ := by repeat' constructor

/-- A token of `bob` under the key `key`, and what it is parsed as. -/
theorem encode_parse_bob : ∃ token t,
    (issue (ascii ['b', 'o', 'b']) 0 0 0).encode epoch (ascii ['k', 'e', 'y']) = some token ∧
      parse epoch token (ascii ['k', 'e', 'y']) 0 = some t := by
  have hrun : (((issue (ascii ['b', 'o', 'b']) 0 0 0).encode epoch (ascii ['k', 'e', 'y'])).bind
      fun token => parse epoch token (ascii ['k', 'e', 'y']) 0).isSome = true := by
    decide +kernel
  obtain ⟨t, ht⟩ := Option.isSome_iff_exists.mp hrun
  obtain ⟨token, hencode, hparse⟩ := Option.bind_eq_some_iff.mp ht
  exact ⟨token, t, hencode, hparse⟩

theorem names_user_bob : ∃ token t,
    (issue (ascii ['b', 'o', 'b']) 0 0 0).encode epoch (ascii ['k', 'e', 'y']) = some token ∧
      parse epoch token (ascii ['k', 'e', 'y']) 0 = some t ∧
      ((t.isUseful = true → t.userId = ascii ['b', 'o', 'b']) ↔ bar ∉ ascii ['b', 'o', 'b']) := by
  obtain ⟨token, t, hencode, hparse⟩ := encode_parse_bob
  exact ⟨token, t, hencode, hparse, names_user_iff hencode hparse⟩

/-- The token of `a|b` is accepted as one of `a`. -/
theorem misnames_user : ∃ token t,
    (issue (ascii ['a', '|', 'b']) 0 0 0).encode epoch (ascii ['k', 'e', 'y']) = some token ∧
      parse epoch token (ascii ['k', 'e', 'y']) 0 = some t ∧
      ¬ (t.isUseful = true → t.userId = ascii ['a', '|', 'b']) := by
  have hrun : ((issue (ascii ['a', '|', 'b']) 0 0 0).encode epoch (ascii ['k', 'e', 'y'])).bind
      (fun token => parse epoch token (ascii ['k', 'e', 'y']) 0) =
        some ⟨true, true, ascii ['a'], 0⟩ := by
    decide +kernel
  obtain ⟨token, hencode, hparse⟩ := Option.bind_eq_some_iff.mp hrun
  exact ⟨token, _, hencode, hparse, by decide⟩

end Token
end Calabash
