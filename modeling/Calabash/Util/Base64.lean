import Calabash.Cpp

/-!
# `Base64`

A `char` is signed, and so is an index made from one: `Encode` and `Decode` look outside
their tables for bytes from 128 on. They count in an `int`.
-/

namespace Calabash
namespace Base64

def encodeMap : Bytes := ascii [
  'A', 'B', 'C', 'D', 'E', 'F', 'G', 'H', 'I', 'J', 'K', 'L', 'M', 'N', 'O', 'P',
  'Q', 'R', 'S', 'T', 'U', 'V', 'W', 'X', 'Y', 'Z', 'a', 'b', 'c', 'd', 'e', 'f',
  'g', 'h', 'i', 'j', 'k', 'l', 'm', 'n', 'o', 'p', 'q', 'r', 's', 't', 'u', 'v',
  'w', 'x', 'y', 'z', '0', '1', '2', '3', '4', '5', '6', '7', '8', '9', '+', '/']

def decodeMap : Bytes := [
  0xFF, 0xFF, 0xFF, 0xFF, 0xFF, 0xFF, 0xFF, 0xFF, 0xFF, 0xFF, 0xFF, 0xFF, 0xFF, 0xFF, 0xFF, 0xFF,
  0xFF, 0xFF, 0xFF, 0xFF, 0xFF, 0xFF, 0xFF, 0xFF, 0xFF, 0xFF, 0xFF, 0xFF, 0xFF, 0xFF, 0xFF, 0xFF,
  0xFF, 0xFF, 0xFF, 0xFF, 0xFF, 0xFF, 0xFF, 0xFF, 0xFF, 0xFF, 0xFF, 0x3E, 0xFF, 0xFF, 0xFF, 0x3F,
  0x34, 0x35, 0x36, 0x37, 0x38, 0x39, 0x3A, 0x3B, 0x3C, 0x3D, 0xFF, 0xFF, 0xFF, 0x00, 0xFF, 0xFF,
  0xFF, 0x00, 0x01, 0x02, 0x03, 0x04, 0x05, 0x06, 0x07, 0x08, 0x09, 0x0A, 0x0B, 0x0C, 0x0D, 0x0E,
  0x0F, 0x10, 0x11, 0x12, 0x13, 0x14, 0x15, 0x16, 0x17, 0x18, 0x19, 0xFF, 0xFF, 0xFF, 0xFF, 0xFF,
  0xFF, 0x1A, 0x1B, 0x1C, 0x1D, 0x1E, 0x1F, 0x20, 0x21, 0x22, 0x23, 0x24, 0x25, 0x26, 0x27, 0x28,
  0x29, 0x2A, 0x2B, 0x2C, 0x2D, 0x2E, 0x2F, 0x30, 0x31, 0x32, 0x33, 0xFF, 0xFF, 0xFF, 0xFF, 0xFF]
  -- the upper half of the table
  ++ List.replicate 128 0xFF

/-- A `char` as the `int` it is promoted to. -/
def promote (c : UInt8) : Int32 := c.toInt8.toInt32

/-- `table[i]`, unless it is outside the table. -/
def lookup (table : Bytes) (i : Int32) : Option UInt8 :=
  if 0 ≤ i then table[i.toInt.toNat]? else none

/-- `i += k` for an `int`, unless it overflows. -/
def advance (i k : ℕ) : Option ℕ := if i + k < 2 ^ 31 then some (i + k) else none

def pad : UInt8 := 61

/-- The loop of `Encode`, from index `i`. -/
def encodeFrom (i : ℕ) : Bytes → Option Bytes
  | [] => some []
  | [a] => do
    let c₀ ← lookup encodeMap (promote a >>> 2)
    let c₁ ← lookup encodeMap ((promote a &&& 0x3) <<< 4)
    return [c₀, c₁, pad, pad]
  | [a, b] => do
    let c₀ ← lookup encodeMap (promote a >>> 2)
    let c₁ ← lookup encodeMap ((promote a &&& 0x3) <<< 4 ||| promote b >>> 4)
    let c₂ ← lookup encodeMap ((promote b &&& 0xf) <<< 2)
    return [c₀, c₁, c₂, pad]
  | a :: b :: c :: rest => do
    let c₀ ← lookup encodeMap (promote a >>> 2)
    let c₁ ← lookup encodeMap ((promote a &&& 0x3) <<< 4 ||| promote b >>> 4)
    let c₂ ← lookup encodeMap ((promote b &&& 0xf) <<< 2 ||| promote c >>> 6)
    let c₃ ← lookup encodeMap (promote c &&& 0x3f)
    let i ← advance i 3
    let out ← encodeFrom i rest
    return c₀ :: c₁ :: c₂ :: c₃ :: out

/-- `Encode`; `none` where the language gives the run no meaning. -/
def encode (input : Bytes) : Option Bytes := encodeFrom 0 input

/-- The loop of `Decode`, from index `i`, with the output so far. -/
def decodeFrom (i : ℕ) : Bytes → Bytes → Option Bytes
  | c₀ :: c₁ :: c₂ :: c₃ :: rest, output => do
    let ch₀ ← lookup decodeMap (promote c₀)
    let ch₁ ← lookup decodeMap (promote c₁)
    let ch₂ ← lookup decodeMap (promote c₂)
    let ch₃ ← lookup decodeMap (promote c₃)
    if ch₀ = 0xFF ∨ ch₁ = 0xFF then return []
    let output := output ++ [ch₀ <<< 2 ||| ch₁ >>> 4]
    if c₂ = pad then return output
    if ch₂ = 0xFF then return []
    let output := output ++ [ch₁ <<< 4 ||| ch₂ >>> 2]
    if c₃ = pad then return output
    if ch₃ = 0xFF then return []
    let output := output ++ [ch₂ <<< 6 ||| ch₃]
    let i ← advance i 4
    decodeFrom i rest output
  | _, output => some output

/-- `Decode`. -/
def decode (input : Bytes) : Option Bytes :=
  if input.length % 4 ≠ 0 then some [] else decodeFrom 0 input []

example :
    encode (ascii ['c', 'a', 'l', 'a']) =
      some (ascii ['Y', '2', 'F', 's', 'Y', 'Q', '=', '=']) ∧
    decode (ascii ['Y', '2', 'F', 's', 'Y', 'Q', '=', '=']) =
      some (ascii ['c', 'a', 'l', 'a']) := by
  decide

/-! ## The numbers behind the characters -/

/-- The character for a number below 64. -/
def Sextet (x : UInt8) (n : ℕ) : Prop :=
  n < 64 ∧ x ≠ pad ∧ lookup decodeMap (promote x) = some (UInt8.ofNat n)

theorem sextet_of_lookup {i : Int32} {x : UInt8} (h : lookup encodeMap i = some x) :
    0 ≤ i ∧ Sextet x i.toInt.toNat := by
  have hall : ∀ n : Fin 64, encodeMap.getD n.val pad ≠ pad ∧
      lookup decodeMap (promote (encodeMap.getD n.val pad)) = some (UInt8.ofNat n.val) := by
    decide +kernel
  rw [lookup] at h
  split at h
  · next hnonneg =>
    obtain ⟨hlt, -⟩ := List.getElem?_eq_some_iff.mp h
    have hsextet := hall ⟨_, hlt⟩
    rw [List.getD_eq_getElem?_getD, h] at hsextet
    exact ⟨hnonneg, hlt, hsextet⟩
  · cases h

/-- What holds of all 256 bytes holds of a byte. -/
theorem of_fin {P : UInt8 → Prop} (h : ∀ n : Fin 256, P (UInt8.ofNat n.val)) (a : UInt8) : P a := by
  have ha := h ⟨a.toNat, a.toNat_lt⟩
  rwa [UInt8.ofNat_toNat] at ha

/-- A number with this many values, with the upper half of them negative. -/
def wrap (m : ℕ) (q : ℕ) : Int32 := Int32.ofInt (q - if q < m / 2 then 0 else m)

set_option maxRecDepth 4000 in
theorem index_first (a : UInt8) : (0 : Int32) ≤ promote a >>> 2 →
    a.toNat < 128 ∧ (promote a >>> 2).toInt.toNat = a.toNat / 4 := by
  revert a
  exact of_fin (by decide)

set_option maxRecDepth 4000 in
theorem index_last (c : UInt8) : (promote c &&& 0x3f).toInt.toNat = c.toNat % 64 := by
  revert c
  exact of_fin (by decide)

set_option maxRecDepth 4000 in
theorem low_two (a : UInt8) : promote a &&& 0x3 = Int32.ofNat (a.toNat % 4) := by
  revert a
  exact of_fin (by decide)

set_option maxRecDepth 4000 in
theorem low_four (a : UInt8) : promote a &&& 0xf = Int32.ofNat (a.toNat % 16) := by
  revert a
  exact of_fin (by decide)

set_option maxRecDepth 4000 in
theorem high_four (b : UInt8) : promote b >>> 4 = wrap 16 (b.toNat / 16) := by
  revert b
  exact of_fin (by decide)

set_option maxRecDepth 4000 in
theorem high_two (c : UInt8) : promote c >>> 6 = wrap 4 (c.toNat / 64) := by
  revert c
  exact of_fin (by decide)

theorem index_second (a b : UInt8) :
    (0 : Int32) ≤ (promote a &&& 0x3) <<< 4 ||| promote b >>> 4 → b.toNat < 128 ∧
      ((promote a &&& 0x3) <<< 4 ||| promote b >>> 4).toInt.toNat =
        a.toNat % 4 * 16 + b.toNat / 16 := by
  have hall : ∀ p : Fin 4, ∀ q : Fin 16,
      (0 : Int32) ≤ Int32.ofNat p.val <<< 4 ||| wrap 16 q.val → q.val < 8 ∧
        (Int32.ofNat p.val <<< 4 ||| wrap 16 q.val).toInt.toNat = p.val * 16 + q.val := by
    decide
  intro h
  rw [low_two, high_four] at h ⊢
  obtain ⟨hlt, heq⟩ := hall ⟨a.toNat % 4, by omega⟩ ⟨b.toNat / 16, by have := b.toNat_lt; omega⟩ h
  exact ⟨by dsimp only at hlt; omega, heq⟩

theorem index_third (b c : UInt8) :
    (0 : Int32) ≤ (promote b &&& 0xf) <<< 2 ||| promote c >>> 6 → c.toNat < 128 ∧
      ((promote b &&& 0xf) <<< 2 ||| promote c >>> 6).toInt.toNat =
        b.toNat % 16 * 4 + c.toNat / 64 := by
  have hall : ∀ p : Fin 16, ∀ q : Fin 4,
      (0 : Int32) ≤ Int32.ofNat p.val <<< 2 ||| wrap 4 q.val → q.val < 2 ∧
        (Int32.ofNat p.val <<< 2 ||| wrap 4 q.val).toInt.toNat = p.val * 4 + q.val := by
    decide
  intro h
  have hc := c.toNat_lt
  rw [low_four, high_two] at h ⊢
  obtain ⟨hlt, heq⟩ := hall ⟨b.toNat % 16, by omega⟩ ⟨c.toNat / 64, by omega⟩ h
  exact ⟨by dsimp only at hlt; omega, heq⟩

theorem index_second_last (a : UInt8) :
    ((promote a &&& 0x3) <<< 4).toInt.toNat = a.toNat % 4 * 16 := by
  have hall : ∀ p : Fin 4, (Int32.ofNat p.val <<< 4).toInt.toNat = p.val * 16 := by decide
  rw [low_two]
  exact hall ⟨a.toNat % 4, by omega⟩

theorem index_third_last (b : UInt8) :
    ((promote b &&& 0xf) <<< 2).toInt.toNat = b.toNat % 16 * 4 := by
  have hall : ∀ p : Fin 16, (Int32.ofNat p.val <<< 2).toInt.toNat = p.val * 4 := by decide
  rw [low_four]
  exact hall ⟨b.toNat % 16, by omega⟩

/-- Bits put together in a byte; those that are shifted out are lost. -/
theorem toNat_join (x y i : UInt8) (hi : i.toNat < 8) (hy : y.toNat < 2 ^ i.toNat) :
    (x <<< i ||| y).toNat = (x.toNat * 2 ^ i.toNat + y.toNat) % 256 := by
  rw [UInt8.toNat_or, UInt8.toNat_shiftLeft, Nat.mod_eq_of_lt hi, ← Nat.shiftLeft_eq,
    Nat.shiftLeft_add_eq_or_of_lt hy, show (256 : ℕ) = 2 ^ 8 by rfl, Nat.or_mod_two_pow,
    Nat.mod_eq_of_lt y.toNat_lt]

theorem toNat_ofNat_of_lt {n : ℕ} (h : n < 64) : (UInt8.ofNat n).toNat = n := by
  apply UInt8.toNat_ofNat_of_lt'
  change n < 256
  omega

/-- A byte that `Decode` makes of the low bits of one number and the high bits of the next. -/
theorem byte_eq {m n : ℕ} (hm : m < 64) (hn : n < 64) {i j : UInt8}
    (hij : i.toNat + j.toNat = 6) {a : UInt8}
    (ha : (m * 2 ^ i.toNat + n / 2 ^ j.toNat) % 256 = a.toNat) :
    UInt8.ofNat m <<< i ||| UInt8.ofNat n >>> j = a := by
  have hhigh : (UInt8.ofNat n >>> j).toNat = n / 2 ^ j.toNat := by
    rw [UInt8.toNat_shiftRight, toNat_ofNat_of_lt hn, Nat.mod_eq_of_lt (by omega),
      Nat.shiftRight_eq_div_pow]
  have hlt : n / 2 ^ j.toNat < 2 ^ i.toNat := by
    rw [Nat.div_lt_iff_lt_mul (Nat.two_pow_pos _), ← Nat.pow_add, hij]
    exact hn
  apply UInt8.toNat_inj.mp
  rw [toNat_join _ _ _ (by omega) (hhigh ▸ hlt), hhigh, toNat_ofNat_of_lt hm, ha]

theorem byte_eq_last {m n : ℕ} (hm : m < 64) (hn : n < 64) {a : UInt8}
    (ha : (m * 64 + n) % 256 = a.toNat) : UInt8.ofNat m <<< 6 ||| UInt8.ofNat n = a := by
  have hlt : (UInt8.ofNat n).toNat < 2 ^ (6 : UInt8).toNat := by
    rw [toNat_ofNat_of_lt hn]
    exact hn
  apply UInt8.toNat_inj.mp
  rw [toNat_join _ _ _ (by decide) hlt, toNat_ofNat_of_lt hm, toNat_ofNat_of_lt hn]
  exact ha

/-- The first byte of four characters, from its high and low bits. -/
theorem first_byte {a : UInt8} {q : ℕ} (h₀ : a.toNat / 4 < 64) (hq : q < 16)
    (h₁ : a.toNat % 4 * 16 + q < 64) :
    UInt8.ofNat (a.toNat / 4) <<< 2 ||| UInt8.ofNat (a.toNat % 4 * 16 + q) >>> 4 = a := by
  apply byte_eq h₀ h₁ rfl
  have ha := a.toNat_lt
  change (a.toNat / 4 * 4 + (a.toNat % 4 * 16 + q) / 16) % 256 = a.toNat
  omega

theorem second_byte {b : UInt8} {p q : ℕ} (hq : q < 4) (h₁ : p * 16 + b.toNat / 16 < 64)
    (h₂ : b.toNat % 16 * 4 + q < 64) :
    UInt8.ofNat (p * 16 + b.toNat / 16) <<< 4 ||| UInt8.ofNat (b.toNat % 16 * 4 + q) >>> 2 = b := by
  apply byte_eq h₁ h₂ rfl
  have hb := b.toNat_lt
  change ((p * 16 + b.toNat / 16) * 16 + (b.toNat % 16 * 4 + q) / 4) % 256 = b.toNat
  omega

theorem third_byte {c : UInt8} {p : ℕ} (h₂ : p * 4 + c.toNat / 64 < 64)
    (h₃ : c.toNat % 64 < 64) :
    UInt8.ofNat (p * 4 + c.toNat / 64) <<< 6 ||| UInt8.ofNat (c.toNat % 64) = c := by
  apply byte_eq_last h₂ h₃
  have hc := c.toNat_lt
  omega

/-! ## Decoding what was encoded -/

theorem ofNat_ne_invalid {n : ℕ} (h : n < 64) : UInt8.ofNat n ≠ 0xFF := by
  intro heq
  have hnat := congrArg UInt8.toNat heq
  rw [toNat_ofNat_of_lt h] at hnat
  change n = 255 at hnat
  omega

/-- What `Decode` makes of characters that stand for numbers, up to the first padding. -/
theorem decodeFrom_cons {i : ℕ} {c₀ c₁ : UInt8} {n₀ n₁ : ℕ} (h₀ : Sextet c₀ n₀)
    (h₁ : Sextet c₁ n₁) (c₂ c₃ : UInt8) (rest output : Bytes) :
    decodeFrom i (c₀ :: c₁ :: c₂ :: c₃ :: rest) output =
      (lookup decodeMap (promote c₂)).bind fun ch₂ =>
        (lookup decodeMap (promote c₃)).bind fun ch₃ =>
          let output := output ++ [UInt8.ofNat n₀ <<< 2 ||| UInt8.ofNat n₁ >>> 4]
          if c₂ = pad then some output
          else if ch₂ = 0xFF then some []
          else
            let output := output ++ [UInt8.ofNat n₁ <<< 4 ||| ch₂ >>> 2]
            if c₃ = pad then some output
            else if ch₃ = 0xFF then some []
            else (advance i 4).bind fun i =>
              decodeFrom i rest (output ++ [ch₂ <<< 6 ||| ch₃]) := by
  simp only [decodeFrom, h₀.2.2, h₁.2.2, Option.bind_eq_bind, Option.bind_some,
    ofNat_ne_invalid h₀.1, ofNat_ne_invalid h₁.1, or_self, if_false]
  rfl

theorem lookup_pad : lookup decodeMap (promote pad) = some 0 := by decide

theorem decodeFrom_one {i : ℕ} {c₀ c₁ : UInt8} {a : UInt8} (h₀ : Sextet c₀ (a.toNat / 4))
    (h₁ : Sextet c₁ (a.toNat % 4 * 16)) (output : Bytes) :
    decodeFrom i [c₀, c₁, pad, pad] output = some (output ++ [a]) := by
  have hbyte := first_byte h₀.1 (Nat.zero_lt_succ 15) h₁.1
  rw [decodeFrom_cons h₀ h₁, lookup_pad]
  simp only [Option.bind_some, if_true]
  rw [Nat.add_zero] at hbyte
  rw [hbyte]

theorem decodeFrom_two {i : ℕ} {c₀ c₁ c₂ : UInt8} {a b : UInt8} (h₀ : Sextet c₀ (a.toNat / 4))
    (h₁ : Sextet c₁ (a.toNat % 4 * 16 + b.toNat / 16)) (h₂ : Sextet c₂ (b.toNat % 16 * 4))
    (output : Bytes) :
    decodeFrom i [c₀, c₁, c₂, pad] output = some (output ++ [a, b]) := by
  have hb := b.toNat_lt
  have hfirst := first_byte h₀.1 (show b.toNat / 16 < 16 by omega) h₁.1
  have hsecond := second_byte (Nat.zero_lt_succ 3) h₁.1 h₂.1
  rw [decodeFrom_cons h₀ h₁, lookup_pad, h₂.2.2]
  simp only [Option.bind_some, if_neg h₂.2.1, if_neg (ofNat_ne_invalid h₂.1), if_true, hfirst]
  rw [Nat.add_zero] at hsecond
  rw [hsecond, List.append_assoc]
  rfl

theorem decodeFrom_three {i : ℕ} {c₀ c₁ c₂ c₃ : UInt8} {a b c : UInt8}
    (h₀ : Sextet c₀ (a.toNat / 4)) (h₁ : Sextet c₁ (a.toNat % 4 * 16 + b.toNat / 16))
    (h₂ : Sextet c₂ (b.toNat % 16 * 4 + c.toNat / 64)) (h₃ : Sextet c₃ (c.toNat % 64))
    (rest output : Bytes) :
    decodeFrom i (c₀ :: c₁ :: c₂ :: c₃ :: rest) output =
      (advance i 4).bind fun i => decodeFrom i rest (output ++ [a, b, c]) := by
  have hb := b.toNat_lt
  have hc := c.toNat_lt
  have hfirst := first_byte h₀.1 (show b.toNat / 16 < 16 by omega) h₁.1
  have hsecond := second_byte (show c.toNat / 64 < 4 by omega) h₁.1 h₂.1
  have hthird := third_byte h₂.1 h₃.1
  rw [decodeFrom_cons h₀ h₁, h₂.2.2, h₃.2.2]
  simp only [Option.bind_some, if_neg h₂.2.1, if_neg h₃.2.1, if_neg (ofNat_ne_invalid h₂.1),
    if_neg (ofNat_ne_invalid h₃.1), hfirst, hsecond, hthird, List.append_assoc]
  rfl

/-- The counter of a loop over groups of three bytes, raised by `k` for each of them, does
not overflow. -/
def Room (k i n : ℕ) : Prop := n < 3 ∨ i + k * (n / 3) < 2 ^ 31

instance (k i n : ℕ) : Decidable (Room k i n) := inferInstanceAs (Decidable (_ ∨ _))

theorem room_add_three {k i n : ℕ} : Room k i (n + 3) ↔ i + k < 2 ^ 31 ∧ Room k (i + k) n := by
  have hgroups : k * ((n + 3) / 3) = k * (n / 3) + k := by
    rw [Nat.add_div_right n (by decide), Nat.mul_succ]
  simp only [Room]
  rw [hgroups]
  rcases Nat.lt_or_ge n 3 with hn | hn
  · rw [Nat.div_eq_of_lt hn]
    omega
  · omega

/-- `Decode` inverts `Encode`, as long as its `int` does not overflow. -/
theorem decodeFrom_encodeFrom {i j : ℕ} {input encoded : Bytes}
    (h : encodeFrom i input = some encoded) (output : Bytes) :
    encoded.length % 4 = 0 ∧ decodeFrom j encoded output =
      if Room 4 j input.length then some (output ++ input) else none := by
  induction i, input using encodeFrom.induct generalizing j encoded output with
  | case1 i =>
    cases h
    exact ⟨rfl, by simp [decodeFrom, Room]⟩
  | case2 i a =>
    simp only [encodeFrom, Option.bind_eq_bind, Option.bind_eq_some_iff] at h
    obtain ⟨c₀, h₀, c₁, h₁, heq⟩ := h
    cases heq
    obtain ⟨hnonneg, h₀⟩ := sextet_of_lookup h₀
    obtain ⟨-, h₁⟩ := sextet_of_lookup h₁
    rw [(index_first a hnonneg).2] at h₀
    rw [index_second_last] at h₁
    refine ⟨by simp, ?_⟩
    rw [decodeFrom_one h₀ h₁ output, if_pos (.inl (by simp))]
  | case3 i a b =>
    simp only [encodeFrom, Option.bind_eq_bind, Option.bind_eq_some_iff] at h
    obtain ⟨c₀, h₀, c₁, h₁, c₂, h₂, heq⟩ := h
    cases heq
    obtain ⟨hnonneg, h₀⟩ := sextet_of_lookup h₀
    obtain ⟨hnonneg', h₁⟩ := sextet_of_lookup h₁
    obtain ⟨-, h₂⟩ := sextet_of_lookup h₂
    rw [(index_first a hnonneg).2] at h₀
    rw [(index_second a b hnonneg').2] at h₁
    rw [index_third_last] at h₂
    refine ⟨by simp, ?_⟩
    rw [decodeFrom_two h₀ h₁ h₂ output, if_pos (.inl (by simp))]
  | case4 i a b c rest ih =>
    simp only [encodeFrom, Option.bind_eq_bind, Option.bind_eq_some_iff] at h
    obtain ⟨c₀, h₀, c₁, h₁, c₂, h₂, c₃, h₃, i', hi, out, hout, heq⟩ := h
    cases heq
    obtain ⟨hnonneg, h₀⟩ := sextet_of_lookup h₀
    obtain ⟨hnonneg₁, h₁⟩ := sextet_of_lookup h₁
    obtain ⟨hnonneg₂, h₂⟩ := sextet_of_lookup h₂
    obtain ⟨-, h₃⟩ := sextet_of_lookup h₃
    rw [(index_first a hnonneg).2] at h₀
    rw [(index_second a b hnonneg₁).2] at h₁
    rw [(index_third b c hnonneg₂).2] at h₂
    rw [index_last] at h₃
    have hlength : (a :: b :: c :: rest).length = rest.length + 3 := rfl
    obtain ⟨hfour, hrest⟩ := ih i' (j := j + 4) hout (output ++ [a, b, c])
    rw [decodeFrom_three h₀ h₁ h₂ h₃, hlength]
    refine ⟨by simp only [List.length_cons]; omega, ?_⟩
    by_cases hj : j + 4 < 2 ^ 31
    · rw [advance, if_pos hj, Option.bind_some, hrest]
      simp only [room_add_three, hj, true_and, List.append_assoc]
      rfl
    · have hroom : ¬ Room 4 j (rest.length + 3) := fun hroom => hj (room_add_three.mp hroom).1
      rw [advance, if_neg hj, if_neg hroom]
      rfl

theorem decode_eq {input encoded : Bytes} (h : encode input = some encoded) :
    decode encoded = if Room 4 0 input.length then some input else none := by
  obtain ⟨hlen, hdecode⟩ := decodeFrom_encodeFrom (j := 0) h []
  rw [decode, if_neg (by omega)]
  exact hdecode

theorem decode_encode {input encoded decoded : Bytes} (h : encode input = some encoded)
    (hdecoded : decode encoded = some decoded) : decoded = input := by
  rw [decode_eq h] at hdecoded
  split at hdecoded
  · exact (Option.some.inj hdecoded).symm
  · cases hdecoded

/-! ## What can be encoded -/

/-- Bytes below 128. -/
def Ascii (s : Bytes) : Prop := ∀ c ∈ s, c < 128

instance (s : Bytes) : Decidable (Ascii s) := inferInstanceAs (Decidable (∀ c ∈ s, c < 128))

/-- An index into the table. -/
def Index (i : Int32) : Prop := 0 ≤ i ∧ i.toInt.toNat < 64

instance (i : Int32) : Decidable (Index i) := inferInstanceAs (Decidable (_ ∧ _))

theorem exists_lookup {i : Int32} (h : Index i) : ∃ x, lookup encodeMap i = some x := by
  have hlt : i.toInt.toNat < encodeMap.length := h.2
  exact ⟨_, by rw [lookup, if_pos h.1, List.getElem?_eq_getElem hlt]⟩

/-- What holds of the bytes below 128 holds of a byte below 128. -/
theorem of_ascii {P : UInt8 → Prop} (h : ∀ n : Fin 128, P (UInt8.ofNat n.val)) {a : UInt8}
    (ha : a < 128) : P a := by
  have hlt : a.toNat < 128 := UInt8.lt_iff_toNat_lt.mp ha
  have hP := h ⟨a.toNat, hlt⟩
  rwa [UInt8.ofNat_toNat] at hP

theorem lt_128_iff {a : UInt8} : a < 128 ↔ a.toNat < 128 := UInt8.lt_iff_toNat_lt

theorem index_one {a : UInt8} (ha : a < 128) :
    Index (promote a >>> 2) ∧ Index ((promote a &&& 0x3) <<< 4) :=
  of_ascii (P := fun a => Index (promote a >>> 2) ∧ Index ((promote a &&& 0x3) <<< 4))
    (by decide) ha

theorem index_four {c : UInt8} (hc : c < 128) :
    Index (promote c &&& 0x3f) ∧ Index ((promote c &&& 0xf) <<< 2) :=
  of_ascii (P := fun c => Index (promote c &&& 0x3f) ∧ Index ((promote c &&& 0xf) <<< 2))
    (by decide) hc

theorem index_two {a b : UInt8} (hb : b < 128) :
    Index ((promote a &&& 0x3) <<< 4 ||| promote b >>> 4) := by
  have hall : ∀ p : Fin 4, ∀ q : Fin 8,
      Index (Int32.ofNat p.val <<< 4 ||| wrap 16 q.val) := by decide
  have hlt := lt_128_iff.mp hb
  rw [low_two, high_four]
  exact hall ⟨a.toNat % 4, by omega⟩ ⟨b.toNat / 16, by omega⟩

theorem index_three {b c : UInt8} (hc : c < 128) :
    Index ((promote b &&& 0xf) <<< 2 ||| promote c >>> 6) := by
  have hall : ∀ p : Fin 16, ∀ q : Fin 2,
      Index (Int32.ofNat p.val <<< 2 ||| wrap 4 q.val) := by decide
  have hlt := lt_128_iff.mp hc
  rw [low_four, high_two]
  exact hall ⟨b.toNat % 16, by omega⟩ ⟨c.toNat / 64, by omega⟩

theorem room_of_encodeFrom {i : ℕ} {input encoded : Bytes}
    (h : encodeFrom i input = some encoded) : Room 3 i input.length := by
  induction i, input using encodeFrom.induct generalizing encoded with
  | case4 i a b c rest ih =>
    simp only [encodeFrom, Option.bind_eq_bind, Option.bind_eq_some_iff] at h
    obtain ⟨-, -, -, -, -, -, -, -, i', hi, out, hout, -⟩ := h
    have hrest := ih i' hout
    rw [advance] at hi
    split at hi
    · next hlt =>
      cases hi
      exact room_add_three.mpr ⟨hlt, hrest⟩
    · cases hi
  | _ => exact .inl (by simp)

theorem exists_encodeFrom {i : ℕ} {input : Bytes} (hascii : Ascii input)
    (hroom : Room 3 i input.length) : ∃ encoded, encodeFrom i input = some encoded := by
  induction i, input using encodeFrom.induct with
  | case1 i => exact ⟨[], rfl⟩
  | case2 i a =>
    have ha := hascii a (by simp)
    obtain ⟨c₀, h₀⟩ := exists_lookup (index_one ha).1
    obtain ⟨c₁, h₁⟩ := exists_lookup (index_one ha).2
    exact ⟨[c₀, c₁, pad, pad], by simp [encodeFrom, h₀, h₁]⟩
  | case3 i a b =>
    have ha := hascii a (by simp)
    have hb := hascii b (by simp)
    obtain ⟨c₀, h₀⟩ := exists_lookup (index_one ha).1
    obtain ⟨c₁, h₁⟩ := exists_lookup (index_two (a := a) hb)
    obtain ⟨c₂, h₂⟩ := exists_lookup (index_four hb).2
    exact ⟨[c₀, c₁, c₂, pad], by simp [encodeFrom, h₀, h₁, h₂]⟩
  | case4 i a b c rest ih =>
    have ha := hascii a (by simp)
    have hb := hascii b (by simp)
    have hc := hascii c (by simp)
    obtain ⟨c₀, h₀⟩ := exists_lookup (index_one ha).1
    obtain ⟨c₁, h₁⟩ := exists_lookup (index_two (a := a) hb)
    obtain ⟨c₂, h₂⟩ := exists_lookup (index_three (b := b) hc)
    obtain ⟨c₃, h₃⟩ := exists_lookup (index_four hc).1
    obtain ⟨hlt, hrest⟩ := room_add_three.mp hroom
    have hadvance : advance i 3 = some (i + 3) := if_pos hlt
    obtain ⟨out, hout⟩ := ih (i + 3) (fun x hx => hascii x (by simp [hx])) hrest
    exact ⟨c₀ :: c₁ :: c₂ :: c₃ :: out, by simp [encodeFrom, h₀, h₁, h₂, h₃, hadvance, hout]⟩

end Base64
end Calabash
