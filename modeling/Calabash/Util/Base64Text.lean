import Calabash.Lib.RFC4648
import Calabash.Util.Base64Tables

/-!
# `Base64` and RFC 4648

`Encode` writes the text of the standard. `Decode` reads well-formed text as the standard does,
but lets more through: in the first two places of a group it takes padding for the digit 0, it
does not look at the last character when the third is padding, and after padding it stops.
What it makes of a text is decided by the first group after which it does not go on.

## Main results

* `encodeFrom_eq` — what `Encode` writes.
* `decodeFrom_run`, `decodeFrom_overflow` — what `Decode` makes of seven-bit text.
* `roundTrips_iff`, `decodesStrictly_iff` — where the two are right.
-/

namespace Calabash
namespace Base64

open RFC4648 (base64 join digits bytes number WellFormed)

/-! ## `Encode` -/

theorem lookup_encodeMap {i : Int32} {x : UInt8} (h : lookup encodeMap i = some x) :
    x = base64.char i.toInt.toNat := by
  have hall : ∀ n : Fin 64, encodeMap[n.val]? = some (base64.char n.val) := by decide
  rw [lookup] at h
  split at h
  · obtain ⟨hlt, -⟩ := List.getElem?_eq_some_iff.mp h
    have hchar := hall ⟨_, hlt⟩
    rw [h] at hchar
    exact Option.some.inj hchar
  · cases h

/-- `Encode` writes the text of the standard. -/
theorem encodeFrom_eq {i : ℕ} {input encoded : Bytes} (h : encodeFrom i input = some encoded) :
    encoded = RFC4648.encode base64 input := by
  induction i, input using encodeFrom.induct generalizing encoded with
  | case1 i =>
    cases h
    rfl
  | case2 i a =>
    simp only [encodeFrom, Option.bind_eq_bind, Option.bind_eq_some_iff] at h
    obtain ⟨c₀, h₀, c₁, h₁, heq⟩ := h
    cases heq
    have hfirst := (index_first a (sextet_of_lookup h₀).1).2
    rw [lookup_encodeMap h₀, lookup_encodeMap h₁, hfirst, index_second_last, RFC4648.encode,
      RFC4648.digits_join]
    rfl
  | case3 i a b =>
    simp only [encodeFrom, Option.bind_eq_bind, Option.bind_eq_some_iff] at h
    obtain ⟨c₀, h₀, c₁, h₁, c₂, h₂, heq⟩ := h
    cases heq
    have hfirst := (index_first a (sextet_of_lookup h₀).1).2
    have hsecond := (index_second a b (sextet_of_lookup h₁).1).2
    rw [lookup_encodeMap h₀, lookup_encodeMap h₁, lookup_encodeMap h₂, hfirst, hsecond,
      index_third_last, RFC4648.encode, RFC4648.digits_join]
    rfl
  | case4 i a b c rest ih =>
    simp only [encodeFrom, Option.bind_eq_bind, Option.bind_eq_some_iff] at h
    obtain ⟨c₀, h₀, c₁, h₁, c₂, h₂, c₃, h₃, i', -, out, hout, heq⟩ := h
    cases heq
    have hfirst := (index_first a (sextet_of_lookup h₀).1).2
    have hsecond := (index_second a b (sextet_of_lookup h₁).1).2
    have hthird := (index_third b c (sextet_of_lookup h₂).1).2
    rw [lookup_encodeMap h₀, lookup_encodeMap h₁, lookup_encodeMap h₂, lookup_encodeMap h₃,
      hfirst, hsecond, hthird, index_last, ih i' hout, RFC4648.encode, RFC4648.digits_join]
    rfl

/-- `Encode` writes the text of the standard, which has four characters for every three bytes
begun, and `Decode` inverts it. -/
def RoundTrips (s : Bytes) : Prop :=
  encode s = some (RFC4648.encode base64 s) ∧
    (RFC4648.encode base64 s).length = 4 * ((s.length + 2) / 3) ∧
    (encode s).bind decode = some s

theorem ascii_of_inRange {s : Bytes} (hsize : s.length < 2 ^ 31) (h : EncodeInRange s) :
    Ascii s := by
  have htake := (encodeInRange_iff s).mp h
  rwa [List.take_of_length_le (Nat.le_of_lt hsize)] at htake

/-- Below the size that its counter can hold, `Encode` has a result on seven-bit input. -/
theorem exists_encode {s : Bytes} (hsize : s.length < 2 ^ 31) (h : Ascii s) :
    ∃ encoded, encode s = some encoded :=
  exists_encodeFrom h (.inr (by omega))

/-- Where `Encode` looks up nothing outside its table, the round trip fails only when the
counter of `Decode` overflows. -/
theorem roundTrips_iff {s : Bytes} (hsize : s.length < 2 ^ 31 - 3) (h : EncodeInRange s) :
    RoundTrips s ↔ s.length < 3 * 2 ^ 29 := by
  obtain ⟨encoded, hencode⟩ := exists_encode (by omega) (ascii_of_inRange (by omega) h)
  have htext := encodeFrom_eq hencode
  have hroom : Room 4 0 s.length ↔ s.length < 3 * 2 ^ 29 := by
    rw [Room]
    omega
  rw [← hroom, RoundTrips, hencode, htext, RFC4648.length_encode, Option.bind_some, ← htext,
    decode_eq hencode]
  split
  · next hin => exact ⟨fun _ => hin, fun _ => ⟨rfl, rfl, rfl⟩⟩
  · next hout => exact ⟨fun hall => absurd hall.2.2 (by simp), fun hin => absurd hin hout⟩

theorem roundTrips_cat : RoundTrips (ascii ['c', 'a', 't']) ↔ 3 < 3 * 2 ^ 29 :=
  roundTrips_iff (by decide) ((encodeInRange_iff _).mpr (by decide +kernel))

/-- On 1610612739 times `'A'` the counter of `Decode` overflows, with a group still to be read. -/
theorem roundTrips_overflow :
    ¬ ∀ s : Bytes, s.length < 2 ^ 31 - 3 → EncodeInRange s → RoundTrips s := by
  intro hall
  have hlen : (List.replicate 1610612739 (65 : UInt8)).length = 1610612739 :=
    List.length_replicate
  have hascii : Ascii (List.replicate 1610612739 65) := by
    intro c hc
    rw [List.eq_of_mem_replicate hc]
    decide
  have hrange : EncodeInRange (List.replicate 1610612739 65) :=
    (encodeInRange_iff _).mpr fun c hc => hascii c (List.mem_of_mem_take hc)
  obtain ⟨hencode, -, hdecode⟩ := hall _ (by rw [hlen]; decide) hrange
  rw [hencode, Option.bind_some, decode_eq hencode, hlen] at hdecode
  rw [if_neg (by decide)] at hdecode
  cases hdecode

/-! ## One group of `Decode` -/

/-- What the table has for a character. -/
def digit (c : UInt8) : UInt8 := (lookup decodeMap (promote c)).getD 0xFF

/-- What a group after which `Decode` goes on adds to the output. -/
def groupBytes (c₀ c₁ c₂ c₃ : UInt8) : Bytes :=
  [digit c₀ <<< 2 ||| digit c₁ >>> 4, digit c₁ <<< 4 ||| digit c₂ >>> 2,
    digit c₂ <<< 6 ||| digit c₃]

/-- What a group after which `Decode` does not go on adds to the output; a group that is
refused adds nothing and takes back the rest. -/
def lastBytes (c₀ c₁ c₂ c₃ : UInt8) : Option Bytes :=
  if valid c₀ = false ∨ valid c₁ = false then none
  else if c₂ = pad then some [digit c₀ <<< 2 ||| digit c₁ >>> 4]
  else if valid c₂ = false then none
  else if c₃ = pad then
    some [digit c₀ <<< 2 ||| digit c₁ >>> 4, digit c₁ <<< 4 ||| digit c₂ >>> 2]
  else none

theorem lookup_digit {c : UInt8} (h : c < 128) :
    lookup decodeMap (promote c) = some (digit c) ∧ (valid c = true ↔ digit c ≠ 0xFF) :=
  of_ascii (P := fun c => lookup decodeMap (promote c) = some (digit c) ∧
    (valid c = true ↔ digit c ≠ 0xFF)) (by decide +kernel) h

section
variable {c₀ c₁ c₂ c₃ : UInt8} (h₀ : c₀ < 128) (h₁ : c₁ < 128) (h₂ : c₂ < 128) (h₃ : c₃ < 128)
include h₀ h₁ h₂ h₃

theorem passes_iff : passes c₀ c₁ c₂ c₃ = true ↔ digit c₀ ≠ 0xFF ∧ digit c₁ ≠ 0xFF ∧ c₂ ≠ pad ∧
    digit c₂ ≠ 0xFF ∧ c₃ ≠ pad ∧ digit c₃ ≠ 0xFF := by
  simp only [passes, Bool.and_eq_true, bne_iff_ne, (lookup_digit h₀).2, (lookup_digit h₁).2,
    (lookup_digit h₂).2, (lookup_digit h₃).2, and_assoc]

theorem decodeFrom_passes (i : ℕ) (rest output : Bytes) (h : passes c₀ c₁ c₂ c₃ = true) :
    decodeFrom i (c₀ :: c₁ :: c₂ :: c₃ :: rest) output =
      (advance i 4).bind fun i => decodeFrom i rest (output ++ groupBytes c₀ c₁ c₂ c₃) := by
  obtain ⟨hd₀, hd₁, hpad₂, hd₂, hpad₃, hd₃⟩ := (passes_iff h₀ h₁ h₂ h₃).mp h
  simp only [decodeFrom, (lookup_digit h₀).1, (lookup_digit h₁).1, (lookup_digit h₂).1,
    (lookup_digit h₃).1, Option.bind_eq_bind, Option.bind_some, hd₀, hd₁, hd₂, hd₃, hpad₂, hpad₃,
    or_self, if_false, List.append_assoc]
  rfl

theorem decodeFrom_stops (i : ℕ) (rest output : Bytes) (h : passes c₀ c₁ c₂ c₃ = false) :
    decodeFrom i (c₀ :: c₁ :: c₂ :: c₃ :: rest) output =
      some ((lastBytes c₀ c₁ c₂ c₃).elim [] (output ++ ·)) := by
  simp only [decodeFrom, lastBytes, ← Bool.not_eq_true, (lookup_digit h₀).1, (lookup_digit h₁).1,
    (lookup_digit h₂).1, (lookup_digit h₃).1, (lookup_digit h₀).2, (lookup_digit h₁).2,
    (lookup_digit h₂).2, ne_eq, not_not, Option.bind_eq_bind, Option.bind_some]
  by_cases hfront : digit c₀ = 0xFF ∨ digit c₁ = 0xFF
  · simp [hfront]
  by_cases hpad₂ : c₂ = pad
  · simp [hfront, hpad₂]
  by_cases hthird : digit c₂ = 0xFF
  · simp [hfront, hpad₂, hthird]
  by_cases hpad₃ : c₃ = pad
  · simp [hfront, hpad₂, hthird, hpad₃]
  -- Nothing is left but a last character that the table has no value for.
  have hlast : digit c₃ = 0xFF := by
    rw [not_or] at hfront
    by_contra hgood
    have hall := (passes_iff h₀ h₁ h₂ h₃).mpr
      ⟨hfront.1, hfront.2, hpad₂, hthird, hpad₃, hgood⟩
    rw [hall] at h
    cases h
  simp [hfront, hpad₂, hthird, hpad₃, hlast]

end

/-! ## The digits of the standard -/

theorem digit_of_value {c : UInt8} {n : ℕ} (h : base64.value c = some n) :
    digit c = UInt8.ofNat n ∧ n < 64 := by
  have hall : ∀ c, ∀ n ∈ base64.value c, digit c = UInt8.ofNat n := of_fin (by decide +kernel)
  exact ⟨hall c n h, base64.value_lt h⟩

theorem value_of_invalid {c : UInt8} (h : digit c = 0xFF) : base64.value c = none := by
  cases hvalue : base64.value c with
  | none => rfl
  | some n =>
    obtain ⟨hdigit, hlt⟩ := digit_of_value hvalue
    rw [hdigit] at h
    exact absurd h (ofNat_ne_invalid hlt)

/-- The bytes that four digits stand for, as `Decode` puts them together. -/
theorem bytes_number {p q r s : ℕ} (hp : p < 64) (hq : q < 64) (hr : r < 64) (hs : s < 64) :
    bytes (number p q r s) = [UInt8.ofNat p <<< 2 ||| UInt8.ofNat q >>> 4,
      UInt8.ofNat q <<< 4 ||| UInt8.ofNat r >>> 2, UInt8.ofNat r <<< 6 ||| UInt8.ofNat s] := by
  have hnat : ∀ n, n < 256 → (UInt8.ofNat n).toNat = n := fun n hn => UInt8.toNat_ofNat_of_lt' hn
  have hfirst : UInt8.ofNat p <<< 2 ||| UInt8.ofNat q >>> 4 =
      UInt8.ofNat (number p q r s / 2 ^ 16) := by
    apply byte_eq hp hq rfl
    rw [hnat _ (by unfold number; omega)]
    change (p * 4 + q / 16) % 256 = _
    rw [number]
    omega
  have hsecond : UInt8.ofNat q <<< 4 ||| UInt8.ofNat r >>> 2 =
      UInt8.ofNat (number p q r s / 2 ^ 8 % 256) := by
    apply byte_eq hq hr rfl
    rw [hnat _ (by omega)]
    change (q * 16 + r / 4) % 256 = _
    rw [number]
    omega
  have hthird : UInt8.ofNat r <<< 6 ||| UInt8.ofNat s =
      UInt8.ofNat (number p q r s % 256) := by
    apply byte_eq_last hr hs
    rw [hnat _ (by omega)]
    rw [number]
    omega
  rw [bytes, hfirst, hsecond, hthird]

/-! ## A run of `Decode` -/

/-- The number of groups in front after which `Decode` goes on. -/
def passing : Bytes → ℕ
  | c₀ :: c₁ :: c₂ :: c₃ :: rest => if passes c₀ c₁ c₂ c₃ then passing rest + 1 else 0
  | _ => 0

/-- A group in which a character that the table has no value for comes before any padding in
the third or the fourth place. -/
def refuses (c₀ c₁ c₂ c₃ : UInt8) : Bool :=
  !valid c₀ || !valid c₁ || c₂ != pad && (!valid c₂ || c₃ != pad && !valid c₃)

/-- The first group after which `Decode` does not go on is such a group. -/
def refused : Bytes → Bool
  | c₀ :: c₁ :: c₂ :: c₃ :: rest =>
    if passes c₀ c₁ c₂ c₃ then refused rest else refuses c₀ c₁ c₂ c₃
  | _ => false

/-- A run whose counter overflows. -/
theorem decodeFrom_overflow {i : ℕ} {t output : Bytes} (hascii : Ascii t) (hsome : 0 < passing t)
    (hlong : 2 ^ 31 ≤ i + 4 * passing t) : decodeFrom i t output = none := by
  fun_induction passing t generalizing i output with
  | case1 c₀ c₁ c₂ c₃ rest hpass ih =>
    simp only [ascii_cons] at hascii
    obtain ⟨h₀, h₁, h₂, h₃, hrest⟩ := hascii
    rw [decodeFrom_passes h₀ h₁ h₂ h₃ i rest output hpass]
    by_cases hroom : i + 4 < 2 ^ 31
    · rw [advance, if_pos hroom, Option.bind_some]
      exact ih hrest (by omega) (by omega)
    · rw [advance, if_neg hroom, Option.bind_none]
  | case2 c₀ c₁ c₂ c₃ rest hpass => cases hsome
  | case3 t hgroup => cases hsome

section
variable {c₀ c₁ c₂ c₃ : UInt8} {rest d : Bytes}

/-- Digits of the standard pass. -/
theorem passes_of_value (h₀ : c₀ < 128) (h₁ : c₁ < 128) (h₂ : c₂ < 128) (h₃ : c₃ < 128)
    {p q r s : ℕ} (hp : base64.value c₀ = some p) (hq : base64.value c₁ = some q)
    (hr : base64.value c₂ = some r) (hs : base64.value c₃ = some s) :
    passes c₀ c₁ c₂ c₃ = true := by
  have hgood : ∀ {c n}, base64.value c = some n → digit c ≠ 0xFF ∧ c ≠ pad := by
    intro c n hvalue
    constructor
    · intro hbad
      rw [value_of_invalid hbad] at hvalue
      cases hvalue
    · rintro rfl
      cases hvalue
  exact (passes_iff h₀ h₁ h₂ h₃).mpr ⟨(hgood hp).1, (hgood hq).1, (hgood hr).2, (hgood hr).1,
    (hgood hs).2, (hgood hs).1⟩

/-- What the standard makes of a group after which `Decode` goes on. -/
theorem decode_of_passes (hpass : passes c₀ c₁ c₂ c₃ = true)
    (h : RFC4648.decode base64 (c₀ :: c₁ :: c₂ :: c₃ :: rest) = some d) :
    ∃ tail, RFC4648.decode base64 rest = some tail ∧ d = groupBytes c₀ c₁ c₂ c₃ ++ tail := by
  simp only [passes, Bool.and_eq_true, bne_iff_ne] at hpass
  have hpad₃ : c₃ ≠ base64.pad := hpass.1.2
  rw [RFC4648.decode] at h
  rw [if_neg fun hall => hpad₃ hall.2.2, if_neg fun hall => hpad₃ hall.2] at h
  simp only [Option.bind_eq_bind, Option.bind_eq_some_iff] at h
  obtain ⟨p, hp, q, hq, r, hr, s, hs, tail, htail, heq⟩ := h
  cases heq
  obtain ⟨hdp, hp⟩ := digit_of_value hp
  obtain ⟨hdq, hq⟩ := digit_of_value hq
  obtain ⟨hdr, hr⟩ := digit_of_value hr
  obtain ⟨hds, hs⟩ := digit_of_value hs
  exact ⟨tail, htail, by rw [bytes_number hp hq hr hs, groupBytes, hdp, hdq, hdr, hds]⟩

/-- What the standard makes of one after which `Decode` does not. -/
theorem decode_of_stops (h₀ : c₀ < 128) (h₁ : c₁ < 128) (h₂ : c₂ < 128) (h₃ : c₃ < 128)
    (hstop : passes c₀ c₁ c₂ c₃ = false)
    (h : RFC4648.decode base64 (c₀ :: c₁ :: c₂ :: c₃ :: rest) = some d) :
    lastBytes c₀ c₁ c₂ c₃ = some d := by
  have hvalid : ∀ {c n}, c < 128 → base64.value c = some n → ¬ valid c = false := by
    intro c n hc hvalue hbad
    obtain ⟨hdigit, hlt⟩ := digit_of_value hvalue
    have hgood := (lookup_digit hc).2.mpr (hdigit ▸ ofNat_ne_invalid hlt)
    rw [hgood] at hbad
    cases hbad
  rw [RFC4648.decode] at h
  split at h
  · next hpads =>
    have hpad₂ : c₂ = pad := hpads.2.1
    simp only [Option.bind_eq_bind, Option.bind_eq_some_iff] at h
    obtain ⟨p, hp, q, hq, heq⟩ := h
    cases heq
    rw [lastBytes, if_neg (not_or.mpr ⟨hvalid h₀ hp, hvalid h₁ hq⟩), if_pos hpad₂]
    obtain ⟨hdp, hp⟩ := digit_of_value hp
    obtain ⟨hdq, hq⟩ := digit_of_value hq
    rw [bytes_number hp hq (by decide) (by decide), hdp, hdq]
    rfl
  · split at h
    · next hpads hpad =>
      have hpad₃ : c₃ = pad := hpad.2
      have hpad₂ : c₂ ≠ pad := fun heq => hpads ⟨hpad.1, heq, hpad₃⟩
      simp only [Option.bind_eq_bind, Option.bind_eq_some_iff] at h
      obtain ⟨p, hp, q, hq, r, hr, heq⟩ := h
      cases heq
      rw [lastBytes, if_neg (not_or.mpr ⟨hvalid h₀ hp, hvalid h₁ hq⟩), if_neg hpad₂,
        if_neg (hvalid h₂ hr), if_pos hpad₃]
      obtain ⟨hdp, hp⟩ := digit_of_value hp
      obtain ⟨hdq, hq⟩ := digit_of_value hq
      obtain ⟨hdr, hr⟩ := digit_of_value hr
      rw [bytes_number hp hq hr (by decide), hdp, hdq, hdr]
      rfl
    · -- Four digits would pass.
      simp only [Option.bind_eq_bind, Option.bind_eq_some_iff] at h
      obtain ⟨p, hp, q, hq, r, hr, s, hs, -⟩ := h
      rw [passes_of_value h₀ h₁ h₂ h₃ hp hq hr hs] at hstop
      cases hstop

/-- A group after which `Decode` does not go on is refused, or adds something. -/
theorem lastBytes_cases (hstop : passes c₀ c₁ c₂ c₃ = false) :
    refuses c₀ c₁ c₂ c₃ = true ∧ lastBytes c₀ c₁ c₂ c₃ = none ∨
      refuses c₀ c₁ c₂ c₃ = false ∧ ∃ b more, lastBytes c₀ c₁ c₂ c₃ = some (b :: more) := by
  rw [passes] at hstop
  unfold refuses lastBytes
  cases h₀ : valid c₀
  · simp
  cases h₁ : valid c₁
  · simp
  by_cases hpad₂ : c₂ = pad
  · simp [hpad₂]
  cases h₂ : valid c₂
  · simp [hpad₂]
  by_cases hpad₃ : c₃ = pad
  · simp [hpad₂, hpad₃]
  cases h₃ : valid c₃
  · simp [hpad₂, hpad₃]
  · simp [h₀, h₁, h₂, h₃, hpad₂, hpad₃] at hstop

end

/-- A run whose counter does not overflow returns nothing if it is refused, and otherwise
something, which is what the standard has if it has anything. -/
theorem decodeFrom_run {i : ℕ} {t : Bytes} (hascii : Ascii t) (hlen : t.length % 4 = 0)
    (hroom : passing t = 0 ∨ i + 4 * passing t < 2 ^ 31) (output : Bytes) :
    ∃ w, decodeFrom i t output = some (if refused t then [] else output ++ w) ∧
      (t ≠ [] → w ≠ []) ∧
      ∀ d, RFC4648.decode base64 t = some d → refused t = false ∧ w = d := by
  fun_induction passing t generalizing i output with
  | case1 c₀ c₁ c₂ c₃ rest hpass ih =>
    simp only [ascii_cons] at hascii
    obtain ⟨h₀, h₁, h₂, h₃, hrest⟩ := hascii
    simp only [List.length_cons] at hlen
    obtain ⟨w, hrun, -, hspec⟩ := ih hrest (by omega) (i := i + 4) (by omega)
      (output ++ groupBytes c₀ c₁ c₂ c₃)
    refine ⟨groupBytes c₀ c₁ c₂ c₃ ++ w, ?_, fun _ => List.cons_ne_nil _ _, ?_⟩
    · rw [decodeFrom_passes h₀ h₁ h₂ h₃ i rest output hpass, advance, if_pos (by omega),
        Option.bind_some, hrun, refused, if_pos hpass, List.append_assoc]
    · intro d hd
      obtain ⟨tail, htail, rfl⟩ := decode_of_passes hpass hd
      obtain ⟨hfree, rfl⟩ := hspec tail htail
      exact ⟨by rw [refused, if_pos hpass, hfree], rfl⟩
  | case2 c₀ c₁ c₂ c₃ rest hpass =>
    simp only [ascii_cons] at hascii
    obtain ⟨h₀, h₁, h₂, h₃, -⟩ := hascii
    have hstop : passes c₀ c₁ c₂ c₃ = false := by simpa using hpass
    have hrun := decodeFrom_stops h₀ h₁ h₂ h₃ i rest output hstop
    have hrefused : refused (c₀ :: c₁ :: c₂ :: c₃ :: rest) = refuses c₀ c₁ c₂ c₃ := if_neg hpass
    rcases lastBytes_cases hstop with ⟨hrefuses, hlast⟩ | ⟨hrefuses, b, more, hlast⟩
    · refine ⟨[0], ?_, fun _ => List.cons_ne_nil _ _, fun d hd => ?_⟩
      · rw [hrun, hlast, hrefused, hrefuses]
        rfl
      · rw [decode_of_stops h₀ h₁ h₂ h₃ hstop hd] at hlast
        cases hlast
    · refine ⟨b :: more, ?_, fun _ => List.cons_ne_nil _ _, fun d hd => ?_⟩
      · rw [hrun, hlast, hrefused, hrefuses]
        rfl
      · rw [decode_of_stops h₀ h₁ h₂ h₃ hstop hd] at hlast
        exact ⟨by rw [hrefused, hrefuses], (Option.some.inj hlast).symm⟩
  | case3 t hgroup =>
    cases t with
    | nil => exact ⟨[], by simp [decodeFrom, refused], fun h => absurd rfl h, fun d hd => by
        cases hd
        exact ⟨rfl, rfl⟩⟩
    | cons c₀ rest =>
      obtain ⟨c₁, c₂, c₃, rest', rfl⟩ := exists_group hlen
      exact absurd rfl (hgroup c₀ c₁ c₂ c₃ rest')

/-! ## Where `Decode` has a result -/

theorem isSome_lookup_iff (c : UInt8) : (lookup decodeMap (promote c)).isSome = true ↔ c < 128 := by
  revert c
  exact of_fin (by decide +kernel)

/-- A group with a byte from 128 on ends the run. -/
theorem decodeFrom_group_none {i : ℕ} {c₀ c₁ c₂ c₃ : UInt8} {rest output : Bytes}
    (h : ¬ Ascii [c₀, c₁, c₂, c₃]) :
    decodeFrom i (c₀ :: c₁ :: c₂ :: c₃ :: rest) output = none := by
  have hlt : ∀ {c d : UInt8}, lookup decodeMap (promote c) = some d → c < 128 := fun hlookup =>
    (isSome_lookup_iff _).mp (Option.isSome_iff_exists.mpr ⟨_, hlookup⟩)
  rw [Option.eq_none_iff_forall_ne_some]
  intro decoded hrun
  simp only [decodeFrom, Option.bind_eq_bind, Option.bind_eq_some_iff] at hrun
  obtain ⟨d₀, h₀, d₁, h₁, d₂, h₂, d₃, h₃, -⟩ := hrun
  refine h ?_
  simp only [ascii_cons]
  exact ⟨hlt h₀, hlt h₁, hlt h₂, hlt h₃, ascii_nil⟩

section
variable {t : Bytes} (hgroup : ∀ c₀ c₁ c₂ c₃ rest, t = c₀ :: c₁ :: c₂ :: c₃ :: rest → False)
include hgroup

theorem reached_of_no_group : reached t = [] := by
  unfold reached
  split
  · exact absurd rfl (hgroup _ _ _ _ _)
  · rfl

theorem decodeFrom_of_no_group (i : ℕ) (output : Bytes) : decodeFrom i t output = some output := by
  unfold decodeFrom
  split
  · exact absurd rfl (hgroup _ _ _ _ _)
  · rfl

end

theorem length_reached_le (t : Bytes) : (reached t).length ≤ 4 * (passing t + 1) := by
  fun_induction passing t with
  | case1 c₀ c₁ c₂ c₃ rest hpass ih =>
    rw [reached, if_pos hpass]
    simp only [List.length_cons]
    omega
  | case2 c₀ c₁ c₂ c₃ rest hpass =>
    rw [reached, if_neg hpass]
    simp
  | case3 t hgroup =>
    rw [reached_of_no_group hgroup]
    exact Nat.zero_le _

theorem isSome_decodeFrom_iff {i : ℕ} (hi : i < 2 ^ 31) {t : Bytes} (output : Bytes) :
    (decodeFrom i t output).isSome = true ↔ Ascii (reached t) ∧ i + 4 * passing t < 2 ^ 31 := by
  fun_induction passing t generalizing i output with
  | case1 c₀ c₁ c₂ c₃ rest hpass ih =>
    rw [reached, if_pos hpass]
    by_cases hfour : Ascii [c₀, c₁, c₂, c₃]
    · simp only [ascii_cons] at hfour ⊢
      obtain ⟨h₀, h₁, h₂, h₃, -⟩ := hfour
      rw [decodeFrom_passes h₀ h₁ h₂ h₃ i rest output hpass]
      by_cases hroom : i + 4 < 2 ^ 31
      · rw [advance, if_pos hroom, Option.bind_some, ih hroom]
        refine and_congr ⟨fun h => ⟨h₀, h₁, h₂, h₃, h⟩, fun h => h.2.2.2.2⟩ ?_
        omega
      · rw [advance, if_neg hroom, Option.bind_none]
        refine ⟨fun h => (by cases h), fun h => absurd h.2 ?_⟩
        omega
    · rw [decodeFrom_group_none hfour]
      refine ⟨fun h => (by cases h), fun h => absurd ?_ hfour⟩
      simp only [ascii_cons] at h ⊢
      exact ⟨h.1.1, h.1.2.1, h.1.2.2.1, h.1.2.2.2.1, ascii_nil⟩
  | case2 c₀ c₁ c₂ c₃ rest hpass =>
    rw [reached, if_neg hpass]
    by_cases hfour : Ascii [c₀, c₁, c₂, c₃]
    · have hrun := hfour
      simp only [ascii_cons] at hrun
      obtain ⟨h₀, h₁, h₂, h₃, -⟩ := hrun
      rw [decodeFrom_stops h₀ h₁ h₂ h₃ i rest output (by simpa using hpass)]
      exact ⟨fun _ => ⟨hfour, by omega⟩, fun _ => rfl⟩
    · rw [decodeFrom_group_none hfour]
      exact ⟨fun h => (by cases h), fun h => absurd h.1 hfour⟩
  | case3 t hgroup =>
    rw [reached_of_no_group hgroup, decodeFrom_of_no_group hgroup]
    exact ⟨fun _ => ⟨ascii_nil, by omega⟩, fun _ => rfl⟩

/-- `Decode` has a result where its lookups stay inside the table and its counter does not
overflow. -/
theorem isSome_decode_iff (t : Bytes) :
    (decode t).isSome = true ↔ DecodeInRange t ∧ (t.length % 4 ≠ 0 ∨ passing t < 2 ^ 29) := by
  rw [decodeInRange_iff]
  by_cases hlen : t.length % 4 = 0
  · have hdecode : decode t = decodeFrom 0 t [] := if_neg (not_not.mpr hlen)
    rw [hdecode, isSome_decodeFrom_iff (by decide), or_iff_right (not_not.mpr hlen),
      or_iff_right (not_not.mpr hlen)]
    constructor
    · rintro ⟨hascii, hroom⟩
      exact ⟨fun c hc => hascii c (List.mem_of_mem_take hc), by omega⟩
    · rintro ⟨hascii, hroom⟩
      have hshort := length_reached_le t
      rw [List.take_of_length_le (by omega)] at hascii
      exact ⟨hascii, by omega⟩
  · have hdecode : decode t = some [] := if_pos hlen
    rw [hdecode]
    exact ⟨fun _ => ⟨.inl hlen, .inl hlen⟩, fun _ => rfl⟩

/-! ## Where `Decode` refuses what is not well-formed -/

/-- `Decode` reads well-formed text as the standard does, and returns nothing for any other. -/
def DecodesStrictly (t : Bytes) : Prop :=
  (WellFormed base64 t → decode t = RFC4648.decode base64 t) ∧
    (¬ WellFormed base64 t → decode t = some [])

/-- On seven-bit text `Decode` does so exactly when the size is no multiple of four, or its
counter does not overflow and it meets no padding that it should have refused: the text is
well-formed, or is refused for another reason first. -/
theorem decodesStrictly_iff {t : Bytes} (hascii : Ascii t) :
    DecodesStrictly t ↔
      t.length % 4 ≠ 0 ∨ passing t < 2 ^ 29 ∧ (WellFormed base64 t ∨ refused t = true) := by
  by_cases hlen : t.length % 4 = 0
  · have hdecode : decode t = decodeFrom 0 t [] := if_neg (not_not.mpr hlen)
    rw [DecodesStrictly, hdecode, ← RFC4648.isSome_decode_iff]
    by_cases hroom : passing t < 2 ^ 29
    · have hcounter : 0 + 4 * passing t < 2 ^ 31 := by omega
      obtain ⟨w, hrun, hsome, hspec⟩ := decodeFrom_run hascii hlen (.inr hcounter) []
      rw [hrun, List.nil_append, or_iff_right (not_not.mpr hlen), and_iff_right hroom]
      cases hd : RFC4648.decode base64 t with
      | some d =>
        obtain ⟨hfree, rfl⟩ := hspec d hd
        simp [hfree]
      | none =>
        have hne : w ≠ [] := by
          apply hsome
          rintro rfl
          cases hd
        simp [hne]
    · have hnone := @decodeFrom_overflow 0 t [] hascii (by omega) (by omega)
      rw [hnone]
      constructor
      · rintro ⟨hgood, hill⟩
        cases hd : RFC4648.decode base64 t with
        | some d =>
          rw [hd] at hgood
          cases hgood rfl
        | none =>
          rw [hd] at hill
          cases hill (by simp)
      · rintro (h | h)
        · exact absurd hlen h
        · exact absurd h.1 hroom
  · have hill : ¬ WellFormed base64 t := fun h => hlen h.1
    have hright : DecodesStrictly t := ⟨fun h => absurd h hill, fun _ => if_pos hlen⟩
    exact ⟨fun _ => .inl hlen, fun _ => hright⟩

theorem decodesStrictly_one : DecodesStrictly (ascii ['Q', 'Q', '=', '=']) :=
  (decodesStrictly_iff (by decide +kernel)).mpr
    (.inr ⟨by decide +kernel, .inl ((RFC4648.isSome_decode_iff _).mp (by decide +kernel))⟩)

/-- `"=AAA"` is decoded to three zero bytes. -/
theorem decodesStrictly_fails : ¬ ∀ t, Ascii t → DecodesStrictly t := by
  intro hall
  have hill : ¬ WellFormed base64 (ascii ['=', 'A', 'A', 'A']) := by
    rw [← RFC4648.isSome_decode_iff]
    decide +kernel
  have hempty := (hall (ascii ['=', 'A', 'A', 'A']) (by decide +kernel)).2 hill
  exact absurd hempty (by decide +kernel)

end Base64
end Calabash
