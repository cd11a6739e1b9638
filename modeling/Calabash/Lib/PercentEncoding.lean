import Mathlib.Data.List.Basic

/-!
# Percent-encoding

An escape is `'%'` and two hexadecimal digits of either case, and stands for one byte; every
other byte stands for itself. `decode` reads text that way, and refuses text in which a `'%'`
it comes to is no escape. `encode reserved` writes the reserved bytes as escapes with upper
case digits and keeps the others.

## Main results

* `decode_encode` — whatever is reserved, as long as `'%'` is.
* `mem_encode` — what is in an encoded text.
* `encode_eq_append` — a `'%'` in an encoded text starts an escape.
* `exists_drop_encode` — an encoded text cut anywhere is a few digits and an encoded text.
-/

namespace Calabash
namespace PercentEncoding

/-- `'%'`. -/
abbrev percent : UInt8 := 37

/-- The number a hexadecimal digit stands for. -/
def hexValue (c : UInt8) : Option ℕ :=
  if 48 ≤ c.toNat ∧ c.toNat ≤ 57 then some (c.toNat - 48)
  else if 65 ≤ c.toNat ∧ c.toNat ≤ 70 then some (c.toNat - 55)
  else if 97 ≤ c.toNat ∧ c.toNat ≤ 102 then some (c.toNat - 87)
  else none

/-- The upper case digit of a number below 16. -/
def hexDigit (n : ℕ) : UInt8 := UInt8.ofNat (if n < 10 then 48 + n else 55 + n)

/-- The text with its escapes replaced. -/
def decode : List UInt8 → Option (List UInt8)
  | [] => some []
  | c :: cs =>
    if c = percent then
      match cs with
      | l :: r :: rest => do
        let x ← hexValue l
        let y ← hexValue r
        let out ← decode rest
        return UInt8.ofNat (16 * x + y) :: out
      | _ => none
    else do
      let out ← decode cs
      return c :: out

/-- The escape of a byte. -/
def escape (c : UInt8) : List UInt8 := [percent, hexDigit (c.toNat / 16), hexDigit (c.toNat % 16)]

/-- What is written for a byte. -/
def encodeByte (reserved : UInt8 → Bool) (c : UInt8) : List UInt8 :=
  if reserved c then escape c else [c]

def encode (reserved : UInt8 → Bool) (s : List UInt8) : List UInt8 :=
  s.flatMap (encodeByte reserved)

/-! ## Digits -/

theorem hexValue_hexDigit {n : ℕ} (h : n < 16) : hexValue (hexDigit n) = some n := by
  have hall : ∀ m : Fin 16, hexValue (hexDigit m.val) = some m.val := by decide
  exact hall ⟨n, h⟩

theorem hexDigit_ne_percent {n : ℕ} (h : n < 16) : hexDigit n ≠ percent := by
  have hall : ∀ m : Fin 16, hexDigit m.val ≠ percent := by decide
  exact hall ⟨n, h⟩

theorem hexValue_lt {c : UInt8} {x : ℕ} (h : hexValue c = some x) : x < 16 := by
  rw [hexValue] at h
  split at h
  · cases h
    omega
  · split at h
    · cases h
      omega
    · split at h
      · cases h
        omega
      · cases h

/-- The two digits of a byte. -/
theorem ofNat_digits (c : UInt8) : UInt8.ofNat (16 * (c.toNat / 16) + c.toNat % 16) = c := by
  rw [Nat.div_add_mod, UInt8.ofNat_toNat]

theorem digits_lt (c : UInt8) : c.toNat / 16 < 16 ∧ c.toNat % 16 < 16 := by
  have hc := c.toNat_lt
  omega

/-! ## Decoding -/

@[simp] theorem decode_nil : decode [] = some [] := rfl

theorem decode_plain {c : UInt8} (hc : c ≠ percent) (cs : List UInt8) :
    decode (c :: cs) = (decode cs).map (c :: ·) := by
  conv_lhs => unfold decode
  rw [if_neg hc]
  cases decode cs <;> rfl

theorem decode_percent (l r : UInt8) (rest : List UInt8) :
    decode (percent :: l :: r :: rest) = (hexValue l).bind fun x => (hexValue r).bind fun y =>
      (decode rest).map (UInt8.ofNat (16 * x + y) :: ·) := by
  conv_lhs => unfold decode
  rw [if_pos rfl]
  dsimp only
  cases decode rest <;> rfl

/-- A `'%'` with fewer than two characters behind it. -/
theorem decode_short {cs : List UInt8} (h : ∀ l r rest, cs ≠ l :: r :: rest) :
    decode (percent :: cs) = none := by
  unfold decode
  rw [if_pos rfl]
  split
  · next l r rest => exact absurd rfl (h l r rest)
  · rfl

theorem decode_escape (c : UInt8) (rest : List UInt8) :
    decode (escape c ++ rest) = (decode rest).map (c :: ·) := by
  obtain ⟨hhigh, hlow⟩ := digits_lt c
  change decode (percent :: hexDigit (c.toNat / 16) :: hexDigit (c.toNat % 16) :: rest) = _
  rw [decode_percent, hexValue_hexDigit hhigh, hexValue_hexDigit hlow, Option.bind_some,
    Option.bind_some, ofNat_digits]

theorem decode_encodeByte {reserved : UInt8 → Bool} (hpercent : reserved percent = true)
    (c : UInt8) (rest : List UInt8) :
    decode (encodeByte reserved c ++ rest) = (decode rest).map (c :: ·) := by
  rw [encodeByte]
  split
  · exact decode_escape c rest
  · next hc =>
    apply decode_plain
    rintro rfl
    exact hc hpercent

/-- An encoded text in front of another one is decoded. -/
theorem decode_encode_append {reserved : UInt8 → Bool} (hpercent : reserved percent = true)
    (s rest : List UInt8) :
    decode (encode reserved s ++ rest) = (decode rest).map (s ++ ·) := by
  induction s with
  | nil => simp [encode]
  | cons c s ih =>
    rw [encode, List.flatMap_cons, List.append_assoc, decode_encodeByte hpercent, ← encode, ih]
    cases decode rest <;> rfl

/-- What was encoded is decoded. -/
theorem decode_encode {reserved : UInt8 → Bool} (hpercent : reserved percent = true)
    (s : List UInt8) : decode (encode reserved s) = some s := by
  have happend := decode_encode_append hpercent s []
  simpa using happend

/-- Bytes without `'%'` stand for themselves. -/
theorem decode_append_plain {front : List UInt8} (h : percent ∉ front) (rest : List UInt8) :
    decode (front ++ rest) = (decode rest).map (front ++ ·) := by
  induction front with
  | nil => simp
  | cons c front ih =>
    have hc := List.ne_of_not_mem_cons h
    rw [List.cons_append, decode_plain (Ne.symm hc), ih (List.not_mem_of_not_mem_cons h)]
    cases decode rest <;> rfl

/-! ## Encoded text -/

@[simp] theorem encode_nil (reserved : UInt8 → Bool) : encode reserved [] = [] := rfl

theorem encode_cons (reserved : UInt8 → Bool) (c : UInt8) (s : List UInt8) :
    encode reserved (c :: s) = encodeByte reserved c ++ encode reserved s := List.flatMap_cons

/-- In an encoded text there are unreserved bytes, the `'%'` of the escapes and their digits. -/
theorem mem_encode {reserved : UInt8 → Bool} {s : List UInt8} {d : UInt8}
    (h : d ∈ encode reserved s) : reserved d = false ∨ d = percent ∨ ∃ n < 16, d = hexDigit n := by
  obtain ⟨c, -, hc⟩ := List.mem_flatMap.mp h
  rw [encodeByte] at hc
  split at hc
  · obtain ⟨hhigh, hlow⟩ := digits_lt c
    rcases List.mem_cons.mp hc with rfl | hc
    · exact .inr (.inl rfl)
    · rcases List.mem_cons.mp hc with rfl | hc
      · exact .inr (.inr ⟨_, hhigh, rfl⟩)
      · exact .inr (.inr ⟨_, hlow, List.mem_singleton.mp hc⟩)
  · next hplain =>
    rw [List.mem_singleton.mp hc]
    exact .inl (by simpa using hplain)

theorem length_le_encode (reserved : UInt8 → Bool) (s : List UInt8) :
    s.length ≤ (encode reserved s).length := by
  induction s with
  | nil => exact Nat.le_refl _
  | cons c s ih =>
    have hbyte : 1 ≤ (encodeByte reserved c).length := by
      rw [encodeByte]
      split <;> simp [escape]
    rw [encode_cons, List.length_append, List.length_cons]
    omega

/-- What is written for a byte, cut after its beginning: no `'%'` is left. -/
theorem percent_not_mem_drop_encodeByte {reserved : UInt8 → Bool} {c : UInt8} {n : ℕ}
    (hn : 0 < n) : percent ∉ (encodeByte reserved c).drop n := by
  obtain ⟨n, rfl⟩ := Nat.exists_eq_add_one_of_ne_zero (Nat.ne_of_gt hn)
  obtain ⟨hhigh, hlow⟩ := digits_lt c
  intro hmem
  rw [encodeByte] at hmem
  split at hmem
  · have htail : percent ∈ [hexDigit (c.toNat / 16), hexDigit (c.toNat % 16)] :=
      List.mem_of_mem_drop hmem
    rcases List.mem_cons.mp htail with heq | htail
    · exact hexDigit_ne_percent hhigh heq.symm
    · exact hexDigit_ne_percent hlow (List.mem_singleton.mp htail).symm
  · rw [List.drop_succ_cons, List.drop_nil] at hmem
    cases hmem

/-- An encoded text, cut anywhere, is a few bytes without `'%'` and an encoded text. -/
theorem exists_drop_encode (reserved : UInt8 → Bool) (s : List UInt8) (n : ℕ) :
    ∃ front s', (encode reserved s).drop n = front ++ encode reserved s' ∧ percent ∉ front := by
  induction s generalizing n with
  | nil => exact ⟨[], [], by simp, List.not_mem_nil⟩
  | cons c s ih =>
    rcases Nat.eq_zero_or_pos n with rfl | hn
    · exact ⟨[], c :: s, rfl, List.not_mem_nil⟩
    · rw [encode_cons, List.drop_append]
      rcases Nat.le_total n (encodeByte reserved c).length with hle | hge
      · refine ⟨(encodeByte reserved c).drop n, s, ?_, percent_not_mem_drop_encodeByte hn⟩
        rw [Nat.sub_eq_zero_of_le hle, List.drop_zero]
      · rw [List.drop_eq_nil_of_le hge, List.nil_append]
        exact ih _

/-- A `'%'` in an encoded text starts an escape. -/
theorem encode_eq_append {reserved : UInt8 → Bool} (hpercent : reserved percent = true)
    {s front back : List UInt8} (h : encode reserved s = front ++ percent :: back) :
    ∃ m < 16, ∃ n < 16, ∃ rest, back = hexDigit m :: hexDigit n :: rest := by
  obtain ⟨cut, s', hdrop, hcut⟩ := exists_drop_encode reserved s front.length
  rw [h, List.drop_left] at hdrop
  have hnil : cut = [] := by
    cases cut with
    | nil => rfl
    | cons c cut =>
      rw [(List.cons.inj hdrop).1] at hcut
      exact absurd List.mem_cons_self hcut
  rw [hnil, List.nil_append] at hdrop
  cases s' with
  | nil => cases hdrop
  | cons c s' =>
    rw [encode_cons, encodeByte] at hdrop
    split at hdrop
    · obtain ⟨hhigh, hlow⟩ := digits_lt c
      exact ⟨_, hhigh, _, hlow, _, (List.cons.inj hdrop).2⟩
    · next hplain =>
      rw [← (List.cons.inj hdrop).1] at hplain
      exact absurd hpercent hplain

end PercentEncoding
end Calabash
