import Calabash.Cpp

/-!
# `MD5`

The digest as the class computes it, byte for byte: a `char` is sign-extended before it is
put into its word, the length is kept to 32 bits, and the text has capital digits.
-/

namespace Calabash

/-- `temp_a_` to `temp_d_`. -/
structure MD5 where
  a : UInt32
  b : UInt32
  c : UInt32
  d : UInt32

namespace MD5

def initial : MD5 := ⟨0x67452301, 0xefcdab89, 0x98badcfe, 0x10325476⟩

def str16 : Bytes :=
  ascii ['0', '1', '2', '3', '4', '5', '6', '7', '8', '9', 'A', 'B', 'C', 'D', 'E', 'F']

def T : List UInt32 := [
  0xd76aa478, 0xe8c7b756, 0x242070db, 0xc1bdceee, 0xf57c0faf, 0x4787c62a, 0xa8304613, 0xfd469501,
  0x698098d8, 0x8b44f7af, 0xffff5bb1, 0x895cd7be, 0x6b901122, 0xfd987193, 0xa679438e, 0x49b40821,
  0xf61e2562, 0xc040b340, 0x265e5a51, 0xe9b6c7aa, 0xd62f105d, 0x02441453, 0xd8a1e681, 0xe7d3fbc8,
  0x21e1cde6, 0xc33707d6, 0xf4d50d87, 0x455a14ed, 0xa9e3e905, 0xfcefa3f8, 0x676f02d9, 0x8d2a4c8a,
  0xfffa3942, 0x8771f681, 0x6d9d6122, 0xfde5380c, 0xa4beea44, 0x4bdecfa9, 0xf6bb4b60, 0xbebfbc70,
  0x289b7ec6, 0xeaa127fa, 0xd4ef3085, 0x04881d05, 0xd9d4d039, 0xe6db99e5, 0x1fa27cf8, 0xc4ac5665,
  0xf4292244, 0x432aff97, 0xab9423a7, 0xfc93a039, 0x655b59c3, 0x8f0ccc92, 0xffeff47d, 0x85845dd1,
  0x6fa87e4f, 0xfe2ce6e0, 0xa3014314, 0x4e0811a1, 0xf7537e82, 0xbd3af235, 0x2ad7d2bb, 0xeb86d391]

def s : List UInt32 := [
  7, 12, 17, 22, 7, 12, 17, 22, 7, 12, 17, 22, 7, 12, 17, 22,
  5, 9, 14, 20, 5, 9, 14, 20, 5, 9, 14, 20, 5, 9, 14, 20,
  4, 11, 16, 23, 4, 11, 16, 23, 4, 11, 16, 23, 4, 11, 16, 23,
  6, 10, 15, 21, 6, 10, 15, 21, 6, 10, 15, 21, 6, 10, 15, 21]

def F (b c d : UInt32) : UInt32 := (b &&& c) ||| (~~~b &&& d)
def G (b c d : UInt32) : UInt32 := (b &&& d) ||| (c &&& ~~~d)
def H (b c d : UInt32) : UInt32 := b ^^^ c ^^^ d
def I (b c d : UInt32) : UInt32 := c ^^^ (b ||| ~~~d)

def shift (a n : UInt32) : UInt32 := (a <<< n) ||| (a >>> (32 - n))

/-- One pass of the loop of `IterateFunc`. -/
def round (X : List UInt32) (q : MD5) (i : ℕ) : MD5 :=
  let (g, k) :=
    if i < 16 then (F q.b q.c q.d, i)
    else if i < 32 then (G q.b q.c q.d, (1 + 5 * i) % 16)
    else if i < 48 then (H q.b q.c q.d, (5 + 3 * i) % 16)
    else (I q.b q.c q.d, (7 * i) % 16)
  ⟨q.d, q.b + shift (q.a + g + X.getD k 0 + T.getD i 0) (s.getD i 0), q.b, q.c⟩

def iterateFunc (q : MD5) (X : List UInt32) : MD5 :=
  let r := (List.range 64).foldl (round X) q
  ⟨q.a + r.a, q.b + r.b, q.c + r.c, q.d + r.d⟩

/-- The word that a `char` becomes at its place in a word of four. -/
def word (c : UInt8) (place : ℕ) : UInt32 :=
  c.toInt8.toInt32.toUInt32 <<< UInt32.ofNat (place * 8)

/-- `Padding`, for texts whose length fits an `unsigned int`. -/
def padding (src : Bytes) : List UInt32 :=
  let size := ((src.length + 8) / 64 + 1) * 16
  let rec₀ := List.replicate size 0
  let rec₁ := src.zipIdx.foldl (fun r (c, i) => r.modify (i / 4) (· ||| word c (i % 4))) rec₀
  let rec₂ := rec₁.modify (src.length / 4) (· ||| 0x80 <<< UInt32.ofNat (src.length % 4 * 8))
  rec₂.set (size - 2) (UInt32.ofNat (src.length * 8))

/-- The text of a word, low byte first. -/
def format (num : UInt32) : Bytes :=
  (List.range 4).flatMap fun i =>
    let b := (num >>> UInt32.ofNat (i * 8)).toNat % 256
    [str16.getD (b / 16 % 16) 0, str16.getD (b % 16) 0]

/-- `Encode`. -/
def encode (src : Bytes) : Bytes :=
  let words := padding src
  let q := (List.range (words.length / 16)).foldl
    (fun q i => iterateFunc q ((words.drop (i * 16)).take 16)) initial
  format q.a ++ format q.b ++ format q.c ++ format q.d

@[simp] theorem length_format (num : UInt32) : (format num).length = 8 := by
  simp [format]

@[simp] theorem length_encode (src : Bytes) : (encode src).length = 32 := by
  simp [encode]

example : encode (ascii ['1', '2', '3', '4', '5', '6']) =
    ascii ['E', '1', '0', 'A', 'D', 'C', '3', '9', '4', '9', 'B', 'A', '5', '9', 'A', 'B',
      'B', 'E', '5', '6', 'E', '0', '5', '7', 'F', '2', '0', 'F', '8', '8', '3', 'E'] := by
  decide +kernel

end MD5
end Calabash
