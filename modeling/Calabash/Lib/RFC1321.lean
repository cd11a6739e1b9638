import Mathlib.Data.UInt

/-!
# The MD5 message-digest algorithm, after RFC 1321

The five steps of section 3 on messages of whole bytes: padding, the length, the buffer, the
four rounds of sixteen operations as they are listed there, and the output. A word is made of
four bytes, low-order byte first.

## Main definitions

* `padded` — the message with its padding and length.
* `Operation.run`, `operations` — the rounds.
* `digest` — the sixteen bytes of the digest.
* `hexUpper` — bytes in capital hexadecimal digits.
-/

namespace Calabash
namespace RFC1321

/-! ## Padding and words -/

/-- How many zero bytes follow the first byte of the padding. -/
def zeros (n : ℕ) : ℕ := (119 - n % 64) % 64

/-- The least padding that leaves room for the length in the last block. -/
theorem zeros_spec (n : ℕ) : (n + 1 + zeros n) % 64 = 56 ∧ zeros n < 64 := by
  rw [zeros]
  omega

/-- A number in `count` bytes, low-order byte first; what does not fit is dropped. -/
def lowBytes (count n : ℕ) : List UInt8 :=
  (List.range count).map fun i => UInt8.ofNat (n / 256 ^ i)

/-- Steps 1 and 2: the padding, and the length of the message in bits. -/
def padded (message : List UInt8) : List UInt8 :=
  message ++ 0x80 :: List.replicate (zeros message.length) 0 ++ lowBytes 8 (8 * message.length)

/-- A word of four bytes. -/
def join (b₀ b₁ b₂ b₃ : UInt8) : UInt32 :=
  b₀.toUInt32 ||| b₁.toUInt32 <<< 8 ||| b₂.toUInt32 <<< 16 ||| b₃.toUInt32 <<< 24

def words : List UInt8 → List UInt32
  | b₀ :: b₁ :: b₂ :: b₃ :: rest => join b₀ b₁ b₂ b₃ :: words rest
  | _ => []

theorem toNat_shiftLeft_byte (b : UInt8) {n : ℕ} (hn : n ≤ 24) :
    (b.toUInt32 <<< UInt32.ofNat n).toNat = b.toNat <<< n := by
  have hb := b.toNat_lt
  have hlt : b.toNat * 2 ^ n < 2 ^ 32 :=
    calc b.toNat * 2 ^ n ≤ b.toNat * 2 ^ 24 :=
          Nat.mul_le_mul_left _ (Nat.pow_le_pow_right (by omega) hn)
      _ < 2 ^ 32 := by omega
  have hplace : (UInt32.ofNat n).toNat % 32 = n := by
    rw [UInt32.toNat_ofNat']
    omega
  rw [UInt32.toNat_shiftLeft, hplace, UInt8.toNat_toUInt32, Nat.shiftLeft_eq,
    Nat.mod_eq_of_lt hlt]

/-- The next byte of a word goes above those that are there. -/
theorem or_byte {x n : ℕ} (b : UInt8) (hx : x < 2 ^ n) :
    x ||| b.toNat <<< n = x + 2 ^ n * b.toNat := by
  rw [Nat.or_comm, ← Nat.shiftLeft_add_eq_or_of_lt hx, Nat.shiftLeft_eq, Nat.add_comm,
    Nat.mul_comm]

theorem toNat_join (b₀ b₁ b₂ b₃ : UInt8) : (join b₀ b₁ b₂ b₃).toNat =
    b₀.toNat + 2 ^ 8 * b₁.toNat + 2 ^ 16 * b₂.toNat + 2 ^ 24 * b₃.toNat := by
  have h₀ := b₀.toNat_lt
  have h₁ := b₁.toNat_lt
  have h₂ := b₂.toNat_lt
  have hone := toNat_shiftLeft_byte b₁ (n := 8) (by omega)
  have htwo := toNat_shiftLeft_byte b₂ (n := 16) (by omega)
  have hthree := toNat_shiftLeft_byte b₃ (n := 24) (by omega)
  change (b₁.toUInt32 <<< 8).toNat = _ at hone
  change (b₂.toUInt32 <<< 16).toNat = _ at htwo
  change (b₃.toUInt32 <<< 24).toNat = _ at hthree
  rw [join, UInt32.toNat_or, UInt32.toNat_or, UInt32.toNat_or, hone, htwo, hthree,
    UInt8.toNat_toUInt32, or_byte b₁ (by omega), or_byte b₂ (by omega), or_byte b₃ (by omega)]

theorem join_inj {a b c d a' b' c' d' : UInt8} :
    join a b c d = join a' b' c' d' ↔ a = a' ∧ b = b' ∧ c = c' ∧ d = d' := by
  constructor
  · intro h
    have hnat := congrArg UInt32.toNat h
    rw [toNat_join, toNat_join] at hnat
    have ha := a.toNat_lt
    have hb := b.toNat_lt
    have hc := c.toNat_lt
    have ha' := a'.toNat_lt
    have hb' := b'.toNat_lt
    have hc' := c'.toNat_lt
    simp only [← UInt8.toNat_inj]
    omega
  · rintro ⟨rfl, rfl, rfl, rfl⟩
    rfl

/-- Words are put together byte by byte. -/
theorem join_or_join (a b c d a' b' c' d' : UInt8) :
    join a b c d ||| join a' b' c' d' = join (a ||| a') (b ||| b') (c ||| c') (d ||| d') := by
  have hpair : ∀ x y x' y' : UInt32, x ||| y ||| (x' ||| y') = x ||| x' ||| (y ||| y') := by
    intro x y x' y'
    ac_rfl
  simp only [join, UInt8.toUInt32_or, UInt32.shiftLeft_or, hpair]

theorem words_zeros (n : ℕ) (rest : List UInt8) :
    words (List.replicate (4 * n) 0 ++ rest) = List.replicate n 0 ++ words rest := by
  induction n with
  | zero => rfl
  | succ n ih =>
    have hfour : List.replicate (4 * (n + 1)) (0 : UInt8) =
        0 :: 0 :: 0 :: 0 :: List.replicate (4 * n) 0 := rfl
    have hwords : words (0 :: 0 :: 0 :: 0 :: (List.replicate (4 * n) 0 ++ rest)) =
        0 :: words (List.replicate (4 * n) 0 ++ rest) := rfl
    rw [ih] at hwords
    rw [hfour, List.replicate_succ]
    exact hwords

/-- A number below `2 ^ 32` in eight bytes is one word and a word of zeros. -/
theorem words_lowBytes {n : ℕ} (h : n < 2 ^ 32) : words (lowBytes 8 n) = [UInt32.ofNat n, 0] := by
  have hbytes : lowBytes 8 n =
      [UInt8.ofNat n, UInt8.ofNat (n / 256), UInt8.ofNat (n / 256 ^ 2), UInt8.ofNat (n / 256 ^ 3),
        0, 0, 0, 0] := by
    have hhigh : ∀ k, 4 ≤ k → UInt8.ofNat (n / 256 ^ k) = 0 := by
      intro k hk
      have hpow : 256 ^ 4 ≤ 256 ^ k := Nat.pow_le_pow_right (by omega) hk
      rw [Nat.div_eq_of_lt (lt_of_lt_of_le h hpow)]
      rfl
    have hall : lowBytes 8 n = [UInt8.ofNat (n / 256 ^ 0), UInt8.ofNat (n / 256 ^ 1),
        UInt8.ofNat (n / 256 ^ 2), UInt8.ofNat (n / 256 ^ 3), UInt8.ofNat (n / 256 ^ 4),
        UInt8.ofNat (n / 256 ^ 5), UInt8.ofNat (n / 256 ^ 6), UInt8.ofNat (n / 256 ^ 7)] := rfl
    rw [hall, hhigh 4 (by omega), hhigh 5 (by omega), hhigh 6 (by omega), hhigh 7 (by omega),
      pow_zero, pow_one, Nat.div_one]
  have hword : join (UInt8.ofNat n) (UInt8.ofNat (n / 256)) (UInt8.ofNat (n / 256 ^ 2))
      (UInt8.ofNat (n / 256 ^ 3)) = UInt32.ofNat n := by
    rw [← UInt32.toNat_inj, toNat_join, UInt32.toNat_ofNat_of_lt' h]
    simp only [UInt8.toNat_ofNat']
    omega
  rw [hbytes]
  simp only [words, hword]
  rfl

/-! ## The rounds -/

/-- The words of the buffer. -/
inductive Register
  | A | B | C | D
  deriving DecidableEq, Repr

structure Buffer where
  a : UInt32
  b : UInt32
  c : UInt32
  d : UInt32
  deriving DecidableEq, Repr

namespace Buffer

def get (r : Buffer) : Register → UInt32
  | .A => r.a
  | .B => r.b
  | .C => r.c
  | .D => r.d

def set (r : Buffer) (q : Register) (x : UInt32) : Buffer :=
  match q with
  | .A => { r with a := x }
  | .B => { r with b := x }
  | .C => { r with c := x }
  | .D => { r with d := x }

end Buffer

/-- Step 3. -/
def initial : Buffer := ⟨0x67452301, 0xefcdab89, 0x98badcfe, 0x10325476⟩

/-- The auxiliary functions. -/
inductive Auxiliary
  | F | G | H | I
  deriving DecidableEq, Repr

def Auxiliary.apply (f : Auxiliary) (x y z : UInt32) : UInt32 :=
  match f with
  | .F => (x &&& y) ||| (~~~x &&& z)
  | .G => (x &&& z) ||| (y &&& ~~~z)
  | .H => x ^^^ y ^^^ z
  | .I => y ^^^ (x ||| ~~~z)

def rotateLeft (x s : UInt32) : UInt32 := (x <<< s) ||| (x >>> (32 - s))

/-- The integer part of 4294967296 times the absolute value of the sine of `i`, for `i` from
1 to 64. -/
def T : ℕ → UInt32
  | 1 => 0xd76aa478 | 2 => 0xe8c7b756 | 3 => 0x242070db | 4 => 0xc1bdceee
  | 5 => 0xf57c0faf | 6 => 0x4787c62a | 7 => 0xa8304613 | 8 => 0xfd469501
  | 9 => 0x698098d8 | 10 => 0x8b44f7af | 11 => 0xffff5bb1 | 12 => 0x895cd7be
  | 13 => 0x6b901122 | 14 => 0xfd987193 | 15 => 0xa679438e | 16 => 0x49b40821
  | 17 => 0xf61e2562 | 18 => 0xc040b340 | 19 => 0x265e5a51 | 20 => 0xe9b6c7aa
  | 21 => 0xd62f105d | 22 => 0x02441453 | 23 => 0xd8a1e681 | 24 => 0xe7d3fbc8
  | 25 => 0x21e1cde6 | 26 => 0xc33707d6 | 27 => 0xf4d50d87 | 28 => 0x455a14ed
  | 29 => 0xa9e3e905 | 30 => 0xfcefa3f8 | 31 => 0x676f02d9 | 32 => 0x8d2a4c8a
  | 33 => 0xfffa3942 | 34 => 0x8771f681 | 35 => 0x6d9d6122 | 36 => 0xfde5380c
  | 37 => 0xa4beea44 | 38 => 0x4bdecfa9 | 39 => 0xf6bb4b60 | 40 => 0xbebfbc70
  | 41 => 0x289b7ec6 | 42 => 0xeaa127fa | 43 => 0xd4ef3085 | 44 => 0x04881d05
  | 45 => 0xd9d4d039 | 46 => 0xe6db99e5 | 47 => 0x1fa27cf8 | 48 => 0xc4ac5665
  | 49 => 0xf4292244 | 50 => 0x432aff97 | 51 => 0xab9423a7 | 52 => 0xfc93a039
  | 53 => 0x655b59c3 | 54 => 0x8f0ccc92 | 55 => 0xffeff47d | 56 => 0x85845dd1
  | 57 => 0x6fa87e4f | 58 => 0xfe2ce6e0 | 59 => 0xa3014314 | 60 => 0x4e0811a1
  | 61 => 0xf7537e82 | 62 => 0xbd3af235 | 63 => 0x2ad7d2bb | 64 => 0xeb86d391
  | _ => 0

/-- `[abcd k s i]` in a round with the function `f`: the operation
`a = b + ((a + f(b,c,d) + X[k] + T[i]) <<< s)`. -/
structure Operation where
  f : Auxiliary
  a : Register
  b : Register
  c : Register
  d : Register
  k : ℕ
  s : UInt32
  i : ℕ
  deriving DecidableEq, Repr

/-- An operation on the words `X` of a block. -/
def Operation.run (X : ℕ → UInt32) (r : Buffer) (o : Operation) : Buffer :=
  let (a, b, c, d) := (r.get o.a, r.get o.b, r.get o.c, r.get o.d)
  r.set o.a (b + rotateLeft (a + o.f.apply b c d + X o.k + T o.i) o.s)

/-- The four orders in which the registers take part. -/
def abcd (f : Auxiliary) (k : ℕ) (s : UInt32) (i : ℕ) : Operation :=
  ⟨f, .A, .B, .C, .D, k, s, i⟩
def dabc (f : Auxiliary) (k : ℕ) (s : UInt32) (i : ℕ) : Operation :=
  ⟨f, .D, .A, .B, .C, k, s, i⟩
def cdab (f : Auxiliary) (k : ℕ) (s : UInt32) (i : ℕ) : Operation :=
  ⟨f, .C, .D, .A, .B, k, s, i⟩
def bcda (f : Auxiliary) (k : ℕ) (s : UInt32) (i : ℕ) : Operation :=
  ⟨f, .B, .C, .D, .A, k, s, i⟩

def round1 : List Operation := [
  abcd .F 0 7 1, dabc .F 1 12 2, cdab .F 2 17 3, bcda .F 3 22 4,
  abcd .F 4 7 5, dabc .F 5 12 6, cdab .F 6 17 7, bcda .F 7 22 8,
  abcd .F 8 7 9, dabc .F 9 12 10, cdab .F 10 17 11, bcda .F 11 22 12,
  abcd .F 12 7 13, dabc .F 13 12 14, cdab .F 14 17 15, bcda .F 15 22 16]

def round2 : List Operation := [
  abcd .G 1 5 17, dabc .G 6 9 18, cdab .G 11 14 19, bcda .G 0 20 20,
  abcd .G 5 5 21, dabc .G 10 9 22, cdab .G 15 14 23, bcda .G 4 20 24,
  abcd .G 9 5 25, dabc .G 14 9 26, cdab .G 3 14 27, bcda .G 8 20 28,
  abcd .G 13 5 29, dabc .G 2 9 30, cdab .G 7 14 31, bcda .G 12 20 32]

def round3 : List Operation := [
  abcd .H 5 4 33, dabc .H 8 11 34, cdab .H 11 16 35, bcda .H 14 23 36,
  abcd .H 1 4 37, dabc .H 4 11 38, cdab .H 7 16 39, bcda .H 10 23 40,
  abcd .H 13 4 41, dabc .H 0 11 42, cdab .H 3 16 43, bcda .H 6 23 44,
  abcd .H 9 4 45, dabc .H 12 11 46, cdab .H 15 16 47, bcda .H 2 23 48]

def round4 : List Operation := [
  abcd .I 0 6 49, dabc .I 7 10 50, cdab .I 14 15 51, bcda .I 5 21 52,
  abcd .I 12 6 53, dabc .I 3 10 54, cdab .I 10 15 55, bcda .I 1 21 56,
  abcd .I 8 6 57, dabc .I 15 10 58, cdab .I 6 15 59, bcda .I 13 21 60,
  abcd .I 4 6 61, dabc .I 11 10 62, cdab .I 2 15 63, bcda .I 9 21 64]

def operations : List Operation := round1 ++ round2 ++ round3 ++ round4

/-- Step 4, for one block: the rounds, and each word incremented by what it had before. -/
def processBlock (X : ℕ → UInt32) (r : Buffer) : Buffer :=
  let r' := operations.foldl (Operation.run X) r
  ⟨r'.a + r.a, r'.b + r.b, r'.c + r.c, r'.d + r.d⟩

/-- Step 4, for the words `M` of the padded message. -/
def process (M : List UInt32) : Buffer :=
  (List.range (M.length / 16)).foldl
    (fun r i => processBlock (fun j => M.getD (i * 16 + j) 0) r) initial

/-! ## The output -/

/-- Step 5: the words from `A` to `D`, low-order byte first. -/
def digest (message : List UInt8) : List UInt8 :=
  let r := process (words (padded message))
  [r.a, r.b, r.c, r.d].flatMap fun w => lowBytes 4 w.toNat

/-- The capital digit of a number below 16. -/
def hexDigit (n : ℕ) : UInt8 := UInt8.ofNat (if n < 10 then 48 + n else 55 + n)

def hexUpper (bytes : List UInt8) : List UInt8 :=
  bytes.flatMap fun b => [hexDigit (b.toNat / 16), hexDigit (b.toNat % 16)]

end RFC1321
end Calabash
