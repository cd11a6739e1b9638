import Mathlib.Algebra.Group.Nat.Defs
import Mathlib.Data.List.Basic

/-!
# The base 64 encoding of RFC 4648

A `Code` is an alphabet of 64 characters with a padding character that is none of them. Three
bytes are one number of 24 bits, written as four digits of the alphabet; one or two bytes left
at the end are filled up with zero bits, and padding takes the place of the digits that hold
none of theirs. `decode` is strict: padding ends the text, and there is nothing else in it but
digits. The bits that fill up the last digit are not looked at.

## Main definitions

* `Code`, `base64` — alphabets, and the one of section 4.
* `encode`, `decode` — the text of a byte string, and back.
* `WellFormed` — groups of four, digits, and up to two padding characters at the end.
-/

namespace Calabash
namespace RFC4648

/-- An alphabet of 64 characters, and the padding character. -/
structure Code (α : Type) where
  char : ℕ → α
  value : α → Option ℕ
  pad : α
  value_lt : ∀ {c n}, value c = some n → n < 64
  value_pad : value pad = none

/-- Section 4: `A` to `Z`, `a` to `z`, `0` to `9`, `+`, `/` and the padding `=`. -/
def base64 : Code UInt8 where
  char n := UInt8.ofNat (if n < 26 then 65 + n else if n < 52 then 71 + n
    else if n < 62 then n - 4 else if n = 62 then 43 else 47)
  value c :=
    if 65 ≤ c.toNat ∧ c.toNat ≤ 90 then some (c.toNat - 65)
    else if 97 ≤ c.toNat ∧ c.toNat ≤ 122 then some (c.toNat - 71)
    else if 48 ≤ c.toNat ∧ c.toNat ≤ 57 then some (c.toNat + 4)
    else if c = 43 then some 62
    else if c = 47 then some 63
    else none
  pad := 61
  value_lt {c n} h := by
    split_ifs at h <;> cases h <;> omega
  value_pad := rfl

section
variable {α : Type} (code : Code α)

/-- Three bytes as one number. -/
def join (a b c : UInt8) : ℕ := a.toNat * 2 ^ 16 + b.toNat * 2 ^ 8 + c.toNat

/-- The digits of a number of 24 bits. -/
def digits (n : ℕ) : List α :=
  [code.char (n / 2 ^ 18), code.char (n / 2 ^ 12 % 64), code.char (n / 2 ^ 6 % 64),
    code.char (n % 64)]

/-- The text of a byte string. -/
def encode : List UInt8 → List α
  | [] => []
  | [a] => (digits code (join a 0 0)).take 2 ++ [code.pad, code.pad]
  | [a, b] => (digits code (join a b 0)).take 3 ++ [code.pad]
  | a :: b :: c :: rest => digits code (join a b c) ++ encode rest

/-- The bytes of a number of 24 bits. -/
def bytes (n : ℕ) : List UInt8 :=
  [UInt8.ofNat (n / 2 ^ 16), UInt8.ofNat (n / 2 ^ 8 % 256), UInt8.ofNat (n % 256)]

/-- Four digits as one number. -/
def number (p q r s : ℕ) : ℕ := p * 2 ^ 18 + q * 2 ^ 12 + r * 2 ^ 6 + s

variable [DecidableEq α]

/-- The byte string of a text, if it has one. -/
def decode : List α → Option (List UInt8)
  | [] => some []
  | w :: x :: y :: z :: rest =>
    if rest = [] ∧ y = code.pad ∧ z = code.pad then do
      let p ← code.value w
      let q ← code.value x
      return (bytes (number p q 0 0)).take 1
    else if rest = [] ∧ z = code.pad then do
      let p ← code.value w
      let q ← code.value x
      let r ← code.value y
      return (bytes (number p q r 0)).take 2
    else do
      let p ← code.value w
      let q ← code.value x
      let r ← code.value y
      let s ← code.value z
      let out ← decode rest
      return bytes (number p q r s) ++ out
  | _ => none

/-- A character of the alphabet. -/
def Digit (c : α) : Prop := (code.value c).isSome = true

/-- Groups of four characters, which are digits but for up to two padding characters at the
end. -/
def WellFormed (t : List α) : Prop :=
  t.length % 4 = 0 ∧ ∃ body k, t = body ++ List.replicate k code.pad ∧ k ≤ 2 ∧
    ∀ c ∈ body, Digit code c

/-! ## Encoding -/

omit [DecidableEq α] in
/-- The digits of three bytes: each takes what is left of one byte and the front of the next. -/
theorem digits_join (a b c : UInt8) :
    digits code (join a b c) =
      [code.char (a.toNat / 4), code.char (a.toNat % 4 * 16 + b.toNat / 16),
        code.char (b.toNat % 16 * 4 + c.toNat / 64), code.char (c.toNat % 64)] := by
  have hb := b.toNat_lt
  have hc := c.toNat_lt
  have hfirst : join a b c / 2 ^ 18 = a.toNat / 4 := by
    rw [join]
    omega
  have hsecond : join a b c / 2 ^ 12 % 64 = a.toNat % 4 * 16 + b.toNat / 16 := by
    rw [join]
    omega
  have hthird : join a b c / 2 ^ 6 % 64 = b.toNat % 16 * 4 + c.toNat / 64 := by
    rw [join]
    omega
  have hlast : join a b c % 64 = c.toNat % 64 := by
    rw [join]
    omega
  rw [digits, hfirst, hsecond, hthird, hlast]

omit [DecidableEq α] in
theorem length_encode (s : List UInt8) : (encode code s).length = 4 * ((s.length + 2) / 3) := by
  fun_induction encode code s with
  | case1 => rfl
  | case2 a => simp [digits]
  | case3 a b => simp [digits]
  | case4 a b c rest ih =>
    have hgroup : (digits code (join a b c)).length = 4 := rfl
    rw [List.length_append, hgroup, ih]
    simp only [List.length_cons]
    omega

/-! ## What has a byte string -/

variable {code}

omit [DecidableEq α] in
theorem not_digit_pad : ¬ Digit code code.pad := by
  simp [Digit, code.value_pad]

omit [DecidableEq α] in
/-- A group with something behind it, or without padding, is four digits. -/
theorem wellFormed_cons {w x y z : α} {rest : List α} (h : rest = [] → z ≠ code.pad) :
    WellFormed code (w :: x :: y :: z :: rest) ↔
      Digit code w ∧ Digit code x ∧ Digit code y ∧ Digit code z ∧ WellFormed code rest := by
  constructor
  · rintro ⟨hlen, body, k, ht, hk, hbody⟩
    have hcount := congrArg List.length ht
    simp only [List.length_cons, List.length_append, List.length_replicate] at hlen hcount
    have hfour : 4 ≤ body.length := by
      rcases Nat.eq_zero_or_pos k with rfl | hpos
      · omega
      · by_cases hrest : rest = []
        · have hlast := congrArg List.getLast? ht
          obtain ⟨k, rfl⟩ := Nat.exists_eq_add_one_of_ne_zero (Nat.ne_of_gt hpos)
          rw [hrest, List.replicate_succ', ← List.append_assoc, List.getLast?_concat] at hlast
          exact absurd (Option.some.inj hlast) (h hrest)
        · have hsome := List.length_pos_iff.mpr hrest
          omega
    obtain ⟨a, b, c, d, body, rfl⟩ : ∃ a b c d body', body = a :: b :: c :: d :: body' := by
      match body, hfour with
      | a :: b :: c :: d :: body', _ => exact ⟨a, b, c, d, body', rfl⟩
    simp only [List.cons_append, List.cons.injEq] at ht
    obtain ⟨rfl, rfl, rfl, rfl, hrest⟩ := ht
    simp only [List.forall_mem_cons] at hbody
    obtain ⟨hw, hx, hy, hz, hbody⟩ := hbody
    exact ⟨hw, hx, hy, hz, by omega, body, k, hrest, hk, hbody⟩
  · rintro ⟨hw, hx, hy, hz, hlen, body, k, ht, hk, hbody⟩
    refine ⟨by simp only [List.length_cons]; omega, w :: x :: y :: z :: body, k, ?_, hk, ?_⟩
    · rw [ht]
      rfl
    · simp only [List.forall_mem_cons]
      exact ⟨hw, hx, hy, hz, hbody⟩

omit [DecidableEq α] in
theorem wellFormed_pad {w x y : α} (hy : y ≠ code.pad) :
    WellFormed code [w, x, y, code.pad] ↔ Digit code w ∧ Digit code x ∧ Digit code y := by
  constructor
  · rintro ⟨-, body, k, ht, hk, hbody⟩
    match k, hk with
    | 0, _ =>
      rw [List.replicate_zero, List.append_nil] at ht
      exact absurd (hbody _ (by simp [← ht])) not_digit_pad
    | 1, _ =>
      have hsplit : [w, x, y] ++ [code.pad] = body ++ [code.pad] := ht
      have hsame : [w, x, y] = body := List.append_cancel_right hsplit
      simpa [← hsame] using hbody
    | 2, _ =>
      have hsplit : [w, x] ++ [y, code.pad] = body ++ [code.pad, code.pad] := ht
      have hsame := (List.append_inj' hsplit rfl).2
      exact absurd (List.cons.inj hsame).1 hy
  · rintro ⟨hw, hx, hy⟩
    exact ⟨by simp, [w, x, y], 1, rfl, by omega, by simp [hw, hx, hy]⟩

omit [DecidableEq α] in
theorem wellFormed_pad_pad {w x : α} :
    WellFormed code [w, x, code.pad, code.pad] ↔ Digit code w ∧ Digit code x := by
  constructor
  · rintro ⟨-, body, k, ht, hk, hbody⟩
    match k, hk with
    | 0, _ =>
      rw [List.replicate_zero, List.append_nil] at ht
      exact absurd (hbody _ (by simp [← ht])) not_digit_pad
    | 1, _ =>
      have hsplit : [w, x, code.pad] ++ [code.pad] = body ++ [code.pad] := ht
      have hsame : [w, x, code.pad] = body := List.append_cancel_right hsplit
      exact absurd (hbody _ (by simp [← hsame])) not_digit_pad
    | 2, _ =>
      have hsplit : [w, x] ++ [code.pad, code.pad] = body ++ [code.pad, code.pad] := ht
      have hsame : [w, x] = body := List.append_cancel_right hsplit
      simpa [← hsame] using hbody
  · rintro ⟨hw, hx⟩
    exact ⟨by simp, [w, x], 2, rfl, by omega, by simp [hw, hx]⟩

/-- The well-formed texts are those of byte strings. -/
theorem isSome_decode_iff (t : List α) : (decode code t).isSome = true ↔ WellFormed code t := by
  fun_induction decode code t with
  | case1 => exact ⟨fun _ => ⟨rfl, [], 0, rfl, by omega, by simp⟩, fun _ => rfl⟩
  | case2 w x y z rest h =>
    obtain ⟨rfl, rfl, rfl⟩ := h
    rw [wellFormed_pad_pad, Digit, Digit]
    cases code.value w <;> cases code.value x <;> simp
  | case3 w x y z rest h₂ h₁ =>
    obtain ⟨rfl, rfl⟩ := h₁
    rw [wellFormed_pad (fun hy => h₂ ⟨rfl, hy, rfl⟩), Digit, Digit, Digit]
    cases code.value w <;> cases code.value x <;> cases code.value y <;> simp
  | case4 w x y z rest h₂ h₁ ih =>
    rw [wellFormed_cons fun hrest hz => h₁ ⟨hrest, hz⟩, ← ih, Digit, Digit, Digit, Digit]
    cases code.value w <;> cases code.value x <;> cases code.value y <;> cases code.value z <;>
      cases decode code rest <;> simp
  | case5 t hnil hgroup =>
    constructor
    · intro h
      cases h
    · rintro ⟨hlen, -⟩
      match t, hnil, hgroup, hlen with
      | [], hnil, _, _ => exact absurd rfl hnil
      | w :: x :: y :: z :: rest, _, hgroup, _ => exact absurd rfl (hgroup w x y z rest)

end

end RFC4648
end Calabash
