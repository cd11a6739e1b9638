import Calabash.Lib.PercentEncoding
import Calabash.Util.Base64
import Calabash.Web.Target

/-!
# `UrlEncode` and `UrlDecode`

`UrlEncode` is percent-encoding with upper case digits. `UrlDecode` inverts it, but it is no
percent-decoding: a character that is not in `kNumMap` is found behind its end, so it counts as
a digit of value 16, whether it is a lower case digit or no digit.
-/

namespace Calabash
namespace RequestMaker

open Base64 (promote of_fin)
open PercentEncoding (percent hexValue hexDigit encode encodeByte escape)

/-- `kAsciiMap`, the characters `"%<>[\]^_`, the grave accent and the characters `{|}`. -/
def kAsciiMap : Bytes := [34, 37, 60, 62, 91, 92, 93, 94, 95, 96, 123, 124, 125]

/-- `UrlEncode`: what the loop appends for each `char`. -/
def urlEncode : Bytes → Option Bytes
  | [] => some []
  | it :: url => do
    if promote it >>> 7 &&& 1 ≠ 0 ∨ kAsciiMap.count it ≠ 0 then
      let l ← Base64.lookup kNumMap (promote it >>> 4 &&& 0x0F)
      let r ← Base64.lookup kNumMap (promote it &&& 0x0F)
      let ret ← urlEncode url
      return 37 :: l :: r :: ret
    else
      let ret ← urlEncode url
      return it :: ret

/-- `UrlDecode` throws where percent-decoding refuses the text, and otherwise returns what
percent-decoding does. -/
def DecodesPercent (s : Bytes) : Prop :=
  urlDecode s = (PercentEncoding.decode s).elim (.error .invalidArgument) .ok

instance (s : Bytes) : Decidable (DecodesPercent s) := inferInstanceAs (Decidable (_ = _))

/-- Every `'%'` met from left to right has two digits of `kNumMap` behind it. -/
def upperEscapes : Bytes → Bool
  | [] => true
  | c :: cs =>
    if c = 37 then
      match cs with
      | l :: r :: rest => kNumMap.contains l && kNumMap.contains r && upperEscapes rest
      | _ => false
    else upperEscapes cs

/-! ## Escapes -/

theorem upperEscapes_plain {c : UInt8} (hc : c ≠ 37) (cs : Bytes) :
    upperEscapes (c :: cs) = upperEscapes cs := by
  conv_lhs => unfold upperEscapes
  exact if_neg hc

theorem urlDecode_cons_plain {c : UInt8} (hc : c ≠ 37) (cs : Bytes) :
    urlDecode (c :: cs) = (urlDecode cs).map (c :: ·) := by
  conv_lhs => unfold urlDecode
  rw [if_neg hc]
  cases urlDecode cs <;> rfl

theorem urlDecode_cons_escape (l r : UInt8) (rest : Bytes) :
    urlDecode (37 :: l :: r :: rest) = (urlDecode rest).map (urlCodeGetHEX l r :: ·) := by
  conv_lhs => unfold urlDecode
  rw [if_pos rfl]
  simp only
  cases urlDecode rest <;> rfl

/-- A character is a digit of `kNumMap` with its value, or it counts as 16, and is then no
hexadecimal digit or one of the lower case. -/
theorem digit_cases (c : UInt8) :
    c ∈ kNumMap ∧ kNumMap.idxOf c < 16 ∧ hexValue c = some (kNumMap.idxOf c) ∨
      c ∉ kNumMap ∧ kNumMap.idxOf c = 16 ∧ ∀ x ∈ hexValue c, 10 ≤ x := by
  revert c
  exact of_fin (by decide +kernel)

theorem toNat_urlCodeGetHEX (l r : UInt8) :
    (urlCodeGetHEX l r).toNat = (16 * kNumMap.idxOf l + kNumMap.idxOf r) % 256 := by
  have hsmall : ∀ c : UInt8, kNumMap.idxOf c < 256 := fun c =>
    Nat.lt_of_le_of_lt List.idxOf_le_length (by decide)
  have hnat : ∀ c : UInt8, (UInt8.ofNat (kNumMap.idxOf c)).toNat = kNumMap.idxOf c := fun c =>
    UInt8.toNat_ofNat_of_lt' (hsmall c)
  have hfour : (4 : UInt8).toNat % 8 = 4 := rfl
  rw [urlCodeGetHEX, UInt8.toNat_add, UInt8.toNat_shiftLeft, hnat, hnat, hfour, Nat.shiftLeft_eq]
  omega

/-- The byte the decoder makes of two characters is the one they denote exactly when both are
digits of `kNumMap`. -/
theorem urlCodeGetHEX_iff (l r : UInt8) :
    (∃ x y, hexValue l = some x ∧ hexValue r = some y ∧
      urlCodeGetHEX l r = UInt8.ofNat (16 * x + y)) ↔ l ∈ kNumMap ∧ r ∈ kNumMap := by
  have hcode := toNat_urlCodeGetHEX l r
  constructor
  · rintro ⟨x, y, hx, hy, heq⟩
    have hx16 := PercentEncoding.hexValue_lt hx
    have hy16 := PercentEncoding.hexValue_lt hy
    have hsum : (UInt8.ofNat (16 * x + y)).toNat = 16 * x + y :=
      UInt8.toNat_ofNat_of_lt' (show 16 * x + y < 256 by omega)
    rw [heq, hsum] at hcode
    rcases digit_cases l with ⟨hl, -, hval⟩ | ⟨-, hl16, hlow⟩
    · rcases digit_cases r with ⟨hr, -, -⟩ | ⟨-, hr16, hlow⟩
      · exact ⟨hl, hr⟩
      · -- A 16 in the second place carries into the first.
        rw [hx] at hval
        have hxl := Option.some.inj hval
        have hten := hlow y hy
        omega
    · have hten := hlow x hx
      have hr : kNumMap.idxOf r ≤ 16 := List.idxOf_le_length
      omega
  · rintro ⟨hl, hr⟩
    rcases digit_cases l with ⟨-, hl16, hlval⟩ | ⟨hno, -⟩
    · rcases digit_cases r with ⟨-, hr16, hrval⟩ | ⟨hno, -⟩
      · refine ⟨_, _, hlval, hrval, ?_⟩
        apply UInt8.toNat_inj.mp
        rw [hcode, UInt8.toNat_ofNat_of_lt' (show 16 * _ + _ < 256 by omega)]
        omega
      · exact absurd hr hno
    · exact absurd hl hno

/-! ## Where the decoder is right -/

/-- Percent-decoding refuses text that ends in the middle of an escape. -/
theorem decode_incomplete {s : Bytes} (h : escapesComplete s = false) :
    PercentEncoding.decode s = none := by
  fun_induction escapesComplete s with
  | case1 => cases h
  | case2 l r rest ih =>
    rw [PercentEncoding.decode_percent, ih h]
    cases hexValue l <;> cases hexValue r <;> rfl
  | case3 cs hshort => exact PercentEncoding.decode_short fun l r rest => hshort l r rest
  | case4 c cs hc ih =>
    rw [PercentEncoding.decode_plain hc, ih h]
    rfl

/-- On complete escapes the decoder is right exactly when their digits are those of `kNumMap`. -/
theorem decode_complete {s : Bytes} (h : escapesComplete s = true) :
    DecodesPercent s ↔ upperEscapes s = true := by
  fun_induction escapesComplete s with
  | case1 => exact ⟨fun _ => rfl, fun _ => rfl⟩
  | case2 l r rest ih =>
    obtain ⟨t, ht, -⟩ := urlDecode_eq h
    have hrest : DecodesPercent rest ↔ PercentEncoding.decode rest = some t := by
      rw [DecodesPercent, ht]
      cases PercentEncoding.decode rest <;> simp [eq_comm]
    have hupper : upperEscapes (37 :: l :: r :: rest) = true ↔
        (l ∈ kNumMap ∧ r ∈ kNumMap) ∧ upperEscapes rest = true := by
      simp [upperEscapes]
    rw [hupper, ← ih h, hrest, ← urlCodeGetHEX_iff, DecodesPercent, urlDecode_cons_escape, ht,
      PercentEncoding.decode_percent]
    cases hexValue l with
    | none => simp [Except.map]
    | some x =>
      cases hexValue r with
      | none => simp [Except.map]
      | some y => cases PercentEncoding.decode rest <;> simp [Except.map, eq_comm]
  | case3 cs hshort => cases h
  | case4 c cs hc ih =>
    rw [upperEscapes_plain hc, ← ih h, DecodesPercent, DecodesPercent, urlDecode_cons_plain hc,
      PercentEncoding.decode_plain hc]
    obtain ⟨t, ht, -⟩ := urlDecode_eq h
    rw [ht]
    cases PercentEncoding.decode cs <;> simp [Except.map]

theorem decodesPercent_of_incomplete {s : Bytes} (h : escapesComplete s = false) :
    DecodesPercent s := by
  rw [DecodesPercent, urlDecode_error h, decode_incomplete h]
  rfl

theorem decodesPercent_of_upper {s : Bytes} (h : upperEscapes s = true) : DecodesPercent s := by
  cases hcomplete : escapesComplete s with
  | false => exact decodesPercent_of_incomplete hcomplete
  | true => exact (decode_complete hcomplete).mpr h

/-- The decoder does what percent-decoding does exactly when the text ends in the middle of an
escape, or all digits of its escapes are in `kNumMap`. -/
theorem decodesPercent_iff (s : Bytes) :
    DecodesPercent s ↔ escapesComplete s = false ∨ upperEscapes s = true := by
  constructor
  · intro h
    cases hcomplete : escapesComplete s with
    | false => exact .inl rfl
    | true => exact .inr ((decode_complete hcomplete).mp h)
  · rintro (h | h)
    · exact decodesPercent_of_incomplete h
    · exact decodesPercent_of_upper h

/-- `"%2f"` is decoded to `'0'`. -/
theorem not_decodesPercent_lower : ¬ ∀ s, DecodesPercent s := by
  intro hall
  exact absurd (hall (ascii ['%', '2', 'f'])) (by decide +kernel)

/-! ## The encoder -/

/-- The characters that `UrlEncode` writes as escapes. -/
def escaped (c : UInt8) : Bool := 128 ≤ c || kAsciiMap.contains c

/-- The branch of the encoder, and what it finds in `kNumMap`. -/
theorem urlEncode_byte (c : UInt8) :
    ((promote c >>> 7 &&& 1 ≠ 0 ∨ kAsciiMap.count c ≠ 0) ↔ escaped c = true) ∧
      Base64.lookup kNumMap (promote c >>> 4 &&& 0x0F) = some (hexDigit (c.toNat / 16)) ∧
      Base64.lookup kNumMap (promote c &&& 0x0F) = some (hexDigit (c.toNat % 16)) := by
  revert c
  exact of_fin (by decide +kernel)

/-- `UrlEncode` is percent-encoding. -/
theorem urlEncode_eq (s : Bytes) : urlEncode s = some (encode escaped s) := by
  induction s with
  | nil => rfl
  | cons c s ih =>
    obtain ⟨hbranch, hhigh, hlow⟩ := urlEncode_byte c
    rw [PercentEncoding.encode_cons, encodeByte]
    by_cases hc : escaped c = true
    · simp only [urlEncode, if_pos (hbranch.mpr hc), if_pos hc, hhigh, hlow, ih]
      rfl
    · simp only [urlEncode, if_neg (mt hbranch.mp hc), if_neg hc, ih]
      rfl

/-! ## The round trip -/

theorem hexDigit_mem_kNumMap {n : ℕ} (h : n < 16) : hexDigit n ∈ kNumMap := by
  have hall : ∀ m : Fin 16, hexDigit m.val ∈ kNumMap := by decide
  exact hall ⟨n, h⟩

theorem upperEscapes_encode_append {reserved : UInt8 → Bool}
    (hpercent : reserved percent = true) (s rest : Bytes) :
    upperEscapes (encode reserved s ++ rest) = upperEscapes rest := by
  induction s with
  | nil => rfl
  | cons c s ih =>
    rw [PercentEncoding.encode_cons, List.append_assoc, encodeByte]
    split
    · obtain ⟨hhigh, hlow⟩ := PercentEncoding.digits_lt c
      simp [escape, upperEscapes, ih, hexDigit_mem_kNumMap hhigh, hexDigit_mem_kNumMap hlow]
    · next hc =>
      have hne : c ≠ percent := by
        rintro rfl
        exact hc hpercent
      rw [List.singleton_append, upperEscapes_plain hne, ih]

/-- Where all digits are in `kNumMap`, what percent-decoding returns is returned. -/
theorem urlDecode_of_decode {s t : Bytes} (hs : upperEscapes s = true)
    (ht : PercentEncoding.decode s = some t) : urlDecode s = .ok t := by
  rw [decodesPercent_of_upper hs, ht]
  rfl

/-- `UrlDecode` inverts percent-encoding with upper case digits, whatever is reserved. -/
theorem urlDecode_encode {reserved : UInt8 → Bool} (hpercent : reserved percent = true)
    (s : Bytes) : urlDecode (encode reserved s) = .ok s := by
  have hupper := upperEscapes_encode_append hpercent s []
  rw [List.append_nil] at hupper
  exact urlDecode_of_decode hupper (PercentEncoding.decode_encode hpercent s)

/-- What `UrlEncode` gives back: seven-bit text in which the characters of `kAsciiMap` are
the `'%'` of escapes, and which decodes to what was encoded. -/
theorem urlEncode_spec (s : Bytes) : ∃ out, urlEncode s = some out ∧ (∀ c ∈ out, c < 128) ∧
    (∀ front c back, out = front ++ c :: back → c ∈ kAsciiMap →
      c = 37 ∧ ∃ l r rest, back = l :: r :: rest ∧ l ∈ kNumMap ∧ r ∈ kNumMap) ∧
    urlDecode out = .ok s := by
  have hdigit : ∀ n : Fin 16, hexDigit n.val < 128 ∧ hexDigit n.val ∉ kAsciiMap := by decide
  refine ⟨encode escaped s, urlEncode_eq s, ?_, ?_, urlDecode_encode rfl s⟩
  · intro c hc
    rcases PercentEncoding.mem_encode hc with hplain | rfl | ⟨n, hn, rfl⟩
    · simp only [escaped, Bool.or_eq_false_iff, decide_eq_false_iff_not] at hplain
      exact UInt8.not_le.mp hplain.1
    · decide
    · exact (hdigit ⟨n, hn⟩).1
  · intro front c back hout hc
    have hpercent : c = 37 := by
      have hmem : c ∈ encode escaped s := by
        rw [hout]
        simp
      rcases PercentEncoding.mem_encode hmem with hplain | heq | ⟨n, hn, rfl⟩
      · simp [escaped, hc] at hplain
      · exact heq
      · exact absurd hc (hdigit ⟨n, hn⟩).2
    subst hpercent
    obtain ⟨m, hm, n, hn, rest, hback⟩ := PercentEncoding.encode_eq_append rfl hout
    exact ⟨rfl, _, _, rest, hback, hexDigit_mem_kNumMap hm, hexDigit_mem_kNumMap hn⟩

end RequestMaker
end Calabash
