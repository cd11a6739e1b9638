import Calabash.Lib.RFC1321
import Calabash.Util.Base64
import Calabash.Util.MD5

/-!
# What `MD5` computes

`IterateFunc` keeps the registers of the standard in four variables that move round, and
computes the rounds of the standard on any block. `Padding` makes the words of the standard
as long as no `char` with its sign set spoils the bytes above it in its word.

## Main results

* `process_eq` — the rounds, for any words.
* `padding_eq_iff_unspoilt` — when the words are those of the standard.
* `encode_eq` — the digest.
-/

namespace Calabash
namespace MD5

open RFC1321 (Buffer Operation Auxiliary operations join)

/-! ## The rounds -/

def auxiliary (i : ℕ) : Auxiliary :=
  if i < 16 then .F else if i < 32 then .G else if i < 48 then .H else .I

def wordIndex (i : ℕ) : ℕ :=
  if i < 16 then i
  else if i < 32 then (1 + 5 * i) % 16
  else if i < 48 then (5 + 3 * i) % 16
  else (7 * i) % 16

theorem wordIndex_lt (i : ℕ) : wordIndex i < 16 := by
  rw [wordIndex]
  split_ifs <;> omega

/-- The operation of the standard that a pass of the loop is. -/
def operation (i : ℕ) : Operation :=
  let order := match i % 4 with
    | 0 => RFC1321.abcd
    | 1 => RFC1321.dabc
    | 2 => RFC1321.cdab
    | _ => RFC1321.bcda
  order (auxiliary i) (wordIndex i) (s.getD i 0) (i + 1)

theorem operations_eq : operations = (List.range 64).map operation := by decide

theorem T_eq {i : ℕ} (h : i < 64) : T.getD i 0 = RFC1321.T (i + 1) := by
  have hall : ∀ i : Fin 64, T.getD i 0 = RFC1321.T (i + 1) := by decide
  exact hall ⟨i, h⟩

/-- The variables in front of pass `i`, when the registers are `r`. -/
def view (r : Buffer) (i : ℕ) : MD5 :=
  match i % 4 with
  | 0 => ⟨r.a, r.b, r.c, r.d⟩
  | 1 => ⟨r.d, r.a, r.b, r.c⟩
  | 2 => ⟨r.c, r.d, r.a, r.b⟩
  | _ => ⟨r.b, r.c, r.d, r.a⟩

theorem round_eq (X : List UInt32) (q : MD5) {i : ℕ} (h : i < 64) :
    round X q i = ⟨q.d, q.b + RFC1321.rotateLeft (q.a + (auxiliary i).apply q.b q.c q.d +
      X.getD (wordIndex i) 0 + RFC1321.T (i + 1)) (s.getD i 0), q.b, q.c⟩ := by
  unfold round auxiliary wordIndex
  rw [T_eq h]
  split_ifs <;> rfl

/-- A pass of the loop is an operation of the standard, one turn further. -/
theorem round_view {X : List UInt32} {Y : ℕ → UInt32} (hX : ∀ k < 16, X.getD k 0 = Y k)
    (r : Buffer) {i : ℕ} (h : i < 64) :
    round X (view r i) i = view ((operation i).run Y r) (i + 1) := by
  have hword := hX _ (wordIndex_lt i)
  rw [round_eq X _ h, hword]
  have hturn : i % 4 = 0 ∧ (i + 1) % 4 = 1 ∨ i % 4 = 1 ∧ (i + 1) % 4 = 2 ∨
      i % 4 = 2 ∧ (i + 1) % 4 = 3 ∨ i % 4 = 3 ∧ (i + 1) % 4 = 0 := by omega
  rcases hturn with ⟨hi, hi'⟩ | ⟨hi, hi'⟩ | ⟨hi, hi'⟩ | ⟨hi, hi'⟩ <;>
  · simp only [view, operation, hi, hi']
    rfl

theorem rounds_view {X : List UInt32} {Y : ℕ → UInt32} (hX : ∀ k < 16, X.getD k 0 = Y k)
    (r : Buffer) {n : ℕ} (h : n ≤ 64) :
    (List.range n).foldl (round X) (view r 0) =
      view (((List.range n).map operation).foldl (Operation.run Y) r) n := by
  induction n with
  | zero => rfl
  | succ n ih =>
    rw [List.range_succ, List.foldl_append, List.map_append, List.foldl_append, ih (by omega)]
    exact round_view hX _ h

theorem iterateFunc_eq {X : List UInt32} {Y : ℕ → UInt32} (hX : ∀ k < 16, X.getD k 0 = Y k)
    (r : Buffer) : iterateFunc (view r 0) X = view (RFC1321.processBlock Y r) 0 := by
  have hrounds := rounds_view hX r (le_refl 64)
  rw [← operations_eq] at hrounds
  rw [iterateFunc, hrounds, RFC1321.processBlock]
  simp only [view, Nat.zero_mod, UInt32.add_comm]

/-- The block that `Encode` copies out of the words. -/
theorem getD_block (M : List UInt32) (i : ℕ) {k : ℕ} (hk : k < 16) :
    ((M.drop (i * 16)).take 16).getD k 0 = M.getD (i * 16 + k) 0 := by
  rw [List.getD_eq_getElem?_getD, List.getD_eq_getElem?_getD, List.getElem?_take_of_lt hk,
    List.getElem?_drop]

/-- The blocks of `Encode` are processed as the standard says. -/
theorem process_eq (M : List UInt32) :
    (List.range (M.length / 16)).foldl
        (fun q i => iterateFunc q ((M.drop (i * 16)).take 16)) initial =
      view (RFC1321.process M) 0 := by
  have hinitial : initial = view RFC1321.initial 0 := rfl
  rw [RFC1321.process, hinitial]
  generalize RFC1321.initial = r
  induction List.range (M.length / 16) generalizing r with
  | nil => rfl
  | cons i is ih =>
    rw [List.foldl_cons, List.foldl_cons, iterateFunc_eq fun k => getD_block M i]
    exact ih _

/-! ## The text -/

theorem format_eq (num : UInt32) :
    format num = RFC1321.hexUpper (RFC1321.lowBytes 4 num.toNat) := by
  have hdigit : ∀ n : Fin 16, str16.getD n 0 = RFC1321.hexDigit n := by decide
  rw [format, RFC1321.hexUpper, RFC1321.lowBytes, List.flatMap_map]
  apply List.flatMap_congr
  intro i hi
  have hi := List.mem_range.mp hi
  have hshift : (num >>> UInt32.ofNat (i * 8)).toNat % 256 =
      (UInt8.ofNat (num.toNat / 256 ^ i)).toNat := by
    have hplace : (UInt32.ofNat (i * 8)).toNat % 32 = i * 8 := by
      rw [UInt32.toNat_ofNat']
      omega
    rw [UInt32.toNat_shiftRight, hplace, Nat.shiftRight_eq_div_pow, UInt8.toNat_ofNat', mul_comm,
      pow_mul, show (2 : ℕ) ^ 8 = 256 from rfl]
  have hlow := hdigit ⟨(UInt8.ofNat (num.toNat / 256 ^ i)).toNat % 16, by omega⟩
  have hb := (UInt8.ofNat (num.toNat / 256 ^ i)).toNat_lt
  have hhigh := hdigit ⟨(UInt8.ofNat (num.toNat / 256 ^ i)).toNat / 16, by omega⟩
  dsimp only at hlow hhigh ⊢
  rw [hshift, hlow, Nat.mod_eq_of_lt (by omega), hhigh]

/-- The text is that of the block steps of the standard on the words of `Padding`. -/
theorem encode_eq_process (src : Bytes) :
    encode src = RFC1321.hexUpper
      ([(RFC1321.process (padding src)).a, (RFC1321.process (padding src)).b,
        (RFC1321.process (padding src)).c, (RFC1321.process (padding src)).d].flatMap
          fun w => RFC1321.lowBytes 4 w.toNat) := by
  rw [encode]
  simp only [process_eq]
  simp [view, format_eq, RFC1321.hexUpper]

/-- With the right words, the text is the digest of the standard. -/
theorem encode_eq_of_padding {src : Bytes}
    (h : padding src = RFC1321.words (RFC1321.padded src)) :
    encode src = RFC1321.hexUpper (RFC1321.digest src) := by
  rw [encode_eq_process, h, RFC1321.digest]

/-! ## The padding -/

/-- What the sign of a `char` puts into the bytes above it. -/
def signByte (c : UInt8) : UInt8 := if c < 128 then 0 else 0xFF

set_option maxRecDepth 4000 in
theorem word_eq (c : UInt8) :
    word c 0 = join c (signByte c) (signByte c) (signByte c) ∧
      word c 1 = join 0 c (signByte c) (signByte c) ∧
      word c 2 = join 0 0 c (signByte c) ∧ word c 3 = join 0 0 0 c := by
  revert c
  exact Base64.of_fin (by decide)

/-- One pass of the loop of `Padding`. -/
def put (r : List UInt32) (entry : UInt8 × ℕ) : List UInt32 :=
  r.modify (entry.2 / 4) (· ||| word entry.1 (entry.2 % 4))

/-- The words of a text up to the one with the mark, as `Padding` makes them. -/
def marked : Bytes → List UInt32
  | a :: b :: c :: d :: rest => (word a 0 ||| word b 1 ||| word c 2 ||| word d 3) :: marked rest
  | [a, b, c] => [word a 0 ||| word b 1 ||| word c 2 ||| join 0 0 0 0x80]
  | [a, b] => [word a 0 ||| word b 1 ||| join 0 0 0x80 0]
  | [a] => [word a 0 ||| join 0 0x80 0 0]
  | [] => [join 0x80 0 0 0]

/-- The words that the standard has there. -/
def markedWords : Bytes → List UInt32
  | a :: b :: c :: d :: rest => join a b c d :: markedWords rest
  | [a, b, c] => [join a b c 0x80]
  | [a, b] => [join a b 0x80 0]
  | [a] => [join a 0x80 0 0]
  | [] => [join 0x80 0 0 0]

theorem length_marked (src : Bytes) : (marked src).length = src.length / 4 + 1 := by
  induction src using marked.induct with
  | case1 a b c d rest ih =>
    simp only [marked, List.length_cons, ih]
    omega
  | _ => simp [marked]

/-- Past the first word, the loop works on the words behind it. -/
theorem foldl_put_cons (src : Bytes) (n : ℕ) (x : UInt32) (r : List UInt32) :
    (src.zipIdx (n + 4)).foldl put (x :: r) = x :: (src.zipIdx n).foldl put r := by
  induction src generalizing n r with
  | nil => rfl
  | cons c src ih =>
    have hput : put (x :: r) (c, n + 4) = x :: put r (c, n) := by
      simp only [put, Nat.add_div_right n (show 0 < 4 by decide), Nat.add_mod_right,
        List.modify_succ_cons]
    rw [List.zipIdx_cons, List.zipIdx_cons, List.foldl_cons, List.foldl_cons, hput]
    exact ih (n + 1) _

/-- The loop and the mark. -/
theorem foldl_put_eq (src : Bytes) (k : ℕ) :
    ((src.zipIdx.foldl put (List.replicate (src.length / 4 + 1 + k) 0)).modify (src.length / 4)
        (· ||| 0x80 <<< UInt32.ofNat (src.length % 4 * 8))) =
      marked src ++ List.replicate k 0 := by
  induction src using marked.induct with
  | case1 a b c d rest ih =>
    have hsize : (a :: b :: c :: d :: rest).length / 4 = rest.length / 4 + 1 := by
      simp only [List.length_cons]
      omega
    have hplace : (a :: b :: c :: d :: rest).length % 4 = rest.length % 4 := by
      simp only [List.length_cons]
      omega
    have hzero : List.replicate (rest.length / 4 + 1 + 1 + k) (0 : UInt32) =
        0 :: List.replicate (rest.length / 4 + 1 + k) 0 := by
      rw [show rest.length / 4 + 1 + 1 + k = rest.length / 4 + 1 + k + 1 by omega,
        List.replicate_succ]
    have hfirst : (a :: b :: c :: d :: rest).zipIdx.foldl put
          (0 :: List.replicate (rest.length / 4 + 1 + k) 0) =
        (rest.zipIdx 4).foldl put ((0 ||| word a 0 ||| word b 1 ||| word c 2 ||| word d 3) ::
          List.replicate (rest.length / 4 + 1 + k) 0) := by
      simp [put, List.zipIdx_cons]
    rw [hsize, hplace, hzero, hfirst, foldl_put_cons rest 0, List.modify_succ_cons, ih, marked,
      UInt32.zero_or]
    rfl
  | case2 a b c =>
    have hmark : (0x80 : UInt32) <<< 24 = join 0 0 0 0x80 := by decide
    simp [marked, put, List.zipIdx_cons, Nat.add_comm 1 k, List.replicate_succ, hmark]
  | case3 a b =>
    have hmark : (0x80 : UInt32) <<< 16 = join 0 0 0x80 0 := by decide
    simp [marked, put, List.zipIdx_cons, Nat.add_comm 1 k, List.replicate_succ, hmark]
  | case4 a =>
    have hmark : (0x80 : UInt32) <<< 8 = join 0 0x80 0 0 := by decide
    simp [marked, put, List.zipIdx_cons, Nat.add_comm 1 k, List.replicate_succ, hmark]
  | case5 =>
    have hmark : (0x80 : UInt32) = join 0x80 0 0 0 := by decide
    simp [marked, Nat.add_comm 1 k, List.replicate_succ, ← hmark]

/-- The padding, for texts whose length in bits fits a word. -/
theorem padding_eq (src : Bytes) : ∃ k, (src.length / 4 + 1 + k + 2) % 16 = 0 ∧ k < 16 ∧
    padding src = marked src ++ (List.replicate k 0 ++ [UInt32.ofNat (8 * src.length), 0]) := by
  obtain ⟨k, hk⟩ : ∃ k, ((src.length + 8) / 64 + 1) * 16 = src.length / 4 + 1 + (k + 2) :=
    ⟨((src.length + 8) / 64 + 1) * 16 - (src.length / 4 + 3), by omega⟩
  refine ⟨k, by omega, by omega, ?_⟩
  have hloop := foldl_put_eq src (k + 2)
  have hlast : List.replicate (k + 2) (0 : UInt32) = List.replicate k 0 ++ [0, 0] := by
    rw [List.replicate_add]
    rfl
  have hplace : src.length / 4 + 1 + (k + 2) - 2 = (marked src ++ List.replicate k 0).length := by
    rw [List.length_append, length_marked, List.length_replicate]
    omega
  rw [padding]
  simp only [hk]
  change List.set (List.modify (src.zipIdx.foldl put _) _ _) _ _ = _
  rw [hloop, hlast, hplace, ← List.append_assoc, List.set_append_right _ _ (le_refl _),
    Nat.sub_self, List.set_cons_zero, Nat.mul_comm, List.append_assoc]

/-- The words of the padded message of the standard. -/
theorem words_marked (src tail : Bytes) {k : ℕ} (z : ℕ)
    (hz : src.length + 1 + z = 4 * (src.length / 4 + 1 + k)) :
    RFC1321.words (src ++ 0x80 :: List.replicate z 0 ++ tail) =
      markedWords src ++ (List.replicate k 0 ++ RFC1321.words tail) := by
  have hzeros := RFC1321.words_zeros k tail
  induction src using markedWords.induct with
  | case1 a b c d rest ih =>
    have hlen : (a :: b :: c :: d :: rest).length = rest.length + 4 := rfl
    rw [hlen, Nat.add_div_right _ (by decide)] at hz
    have hwords : RFC1321.words
        (a :: b :: c :: d :: (rest ++ 0x80 :: List.replicate z 0 ++ tail)) =
          join a b c d :: RFC1321.words (rest ++ 0x80 :: List.replicate z 0 ++ tail) := rfl
    rw [ih (by omega)] at hwords
    rw [markedWords]
    exact hwords
  | case2 a b c =>
    obtain rfl : z = 4 * k := by
      simp only [List.length_cons, List.length_nil] at hz
      omega
    have hwords : RFC1321.words (a :: b :: c :: 0x80 :: (List.replicate (4 * k) 0 ++ tail)) =
        join a b c 0x80 :: RFC1321.words (List.replicate (4 * k) 0 ++ tail) := rfl
    rw [hzeros] at hwords
    exact hwords
  | case3 a b =>
    obtain rfl : z = 4 * k + 1 := by
      simp only [List.length_cons, List.length_nil] at hz
      omega
    have hwords : RFC1321.words (a :: b :: 0x80 :: 0 :: (List.replicate (4 * k) 0 ++ tail)) =
        join a b 0x80 0 :: RFC1321.words (List.replicate (4 * k) 0 ++ tail) := rfl
    rw [hzeros] at hwords
    exact hwords
  | case4 a =>
    obtain rfl : z = 4 * k + 2 := by
      simp only [List.length_cons, List.length_nil] at hz
      omega
    have hwords : RFC1321.words (a :: 0x80 :: 0 :: 0 :: (List.replicate (4 * k) 0 ++ tail)) =
        join a 0x80 0 0 :: RFC1321.words (List.replicate (4 * k) 0 ++ tail) := rfl
    rw [hzeros] at hwords
    exact hwords
  | case5 =>
    obtain rfl : z = 4 * k + 3 := by
      simp only [List.length_nil] at hz
      omega
    have hwords : RFC1321.words (0x80 :: 0 :: 0 :: 0 :: (List.replicate (4 * k) 0 ++ tail)) =
        join 0x80 0 0 0 :: RFC1321.words (List.replicate (4 * k) 0 ++ tail) := rfl
    rw [hzeros] at hwords
    exact hwords

/-- Both paddings agree but for the words of the text and the mark. -/
theorem padding_eq_iff {src : Bytes} (hsize : src.length < 2 ^ 29) :
    padding src = RFC1321.words (RFC1321.padded src) ↔ marked src = markedWords src := by
  obtain ⟨k, hk, hk16, hpadding⟩ := padding_eq src
  have hzeros := RFC1321.zeros_spec src.length
  have hz : src.length + 1 + RFC1321.zeros src.length = 4 * (src.length / 4 + 1 + k) := by omega
  have hwords := words_marked src (RFC1321.lowBytes 8 (8 * src.length)) _ hz
  rw [RFC1321.words_lowBytes (by omega)] at hwords
  rw [hpadding, RFC1321.padded, hwords]
  exact List.append_left_inj _

/-! ## Where the signs do no harm -/

/-- A byte from 128 on that is not the last of its four is followed by bytes 255 up to the
last of the four. -/
def Unspoilt (src : Bytes) : Prop :=
  ∀ i (h : i < src.length), 128 ≤ src[i] → ∀ j, i < j → j / 4 = i / 4 → src[j]? = some 0xFF

/-- The sign of `c` does no harm to a byte above it. -/
theorem signByte_or_iff (c x : UInt8) : signByte c ||| x = x ↔ (128 ≤ c → x = 0xFF) := by
  rw [signByte]
  split
  · next hlt =>
    have hnot : ¬ 128 ≤ c := UInt8.not_le.mpr hlt
    simp [hnot]
  · next hnot =>
    have hle : 128 ≤ c := UInt8.not_lt.mp hnot
    have hones : 0xFF ||| x = 0xFF := UInt8.neg_one_or
    rw [hones]
    exact ⟨fun h _ => h.symm, fun h => (h hle).symm⟩

theorem signByte_eq_zero {c : UInt8} : signByte c = 0 ↔ ¬ 128 ≤ c := by
  have hzero : ¬ (0 : UInt8) = 0xFF := by decide
  have h := signByte_or_iff c 0
  simpa [hzero] using h

/-- Neither of two signs does if both together do none. -/
theorem or_or_eq_iff (p q x : UInt8) : p ||| q ||| x = x ↔ p ||| x = x ∧ q ||| x = x := by
  constructor
  · intro h
    constructor
    · calc p ||| x = p ||| (p ||| q ||| x) := by rw [h]
        _ = p ||| q ||| x := by rw [← UInt8.or_assoc, ← UInt8.or_assoc, UInt8.or_self]
        _ = x := h
    · calc q ||| x = q ||| (p ||| q ||| x) := by rw [h]
        _ = p ||| q ||| x := by
          rw [UInt8.or_comm p q, ← UInt8.or_assoc, ← UInt8.or_assoc, UInt8.or_self]
        _ = x := h
  · intro ⟨hp, hq⟩
    rw [UInt8.or_assoc, hq, hp]

/-- A word of four bytes, with the first three of them from the text. -/
theorem four_iff (a b c d : UInt8) :
    word a 0 ||| word b 1 ||| word c 2 ||| join 0 0 0 d = join a b c d ↔
      (128 ≤ a → b = 0xFF ∧ c = 0xFF ∧ d = 0xFF) ∧ (128 ≤ b → c = 0xFF ∧ d = 0xFF) ∧
        (128 ≤ c → d = 0xFF) := by
  rw [(word_eq a).1, (word_eq b).2.1, (word_eq c).2.2.1]
  simp only [RFC1321.join_or_join, RFC1321.join_inj, UInt8.or_zero, or_or_eq_iff,
    signByte_or_iff]
  tauto

/-- The last word of a text that ends within it. -/
theorem three_iff (a b c : UInt8) :
    word a 0 ||| word b 1 ||| word c 2 ||| join 0 0 0 0x80 = join a b c 0x80 ↔
      ¬ 128 ≤ a ∧ ¬ 128 ≤ b ∧ ¬ 128 ≤ c := by
  have hmark : ¬ (0x80 : UInt8) = 0xFF := by decide
  rw [four_iff]
  simp only [hmark]
  tauto

theorem two_iff (a b : UInt8) :
    word a 0 ||| word b 1 ||| join 0 0 0x80 0 = join a b 0x80 0 ↔ ¬ 128 ≤ a ∧ ¬ 128 ≤ b := by
  have hmark : ¬ (0x80 : UInt8) = 0xFF := by decide
  rw [(word_eq a).1, (word_eq b).2.1]
  simp only [RFC1321.join_or_join, RFC1321.join_inj, UInt8.or_zero, or_or_eq_iff,
    signByte_or_iff, hmark, UInt8.or_eq_zero_iff, signByte_eq_zero]
  tauto

theorem one_iff (a : UInt8) :
    word a 0 ||| join 0 0x80 0 0 = join a 0x80 0 0 ↔ ¬ 128 ≤ a := by
  have hmark : ¬ (0x80 : UInt8) = 0xFF := by decide
  rw [(word_eq a).1]
  simp only [RFC1321.join_or_join, RFC1321.join_inj, UInt8.or_zero, signByte_or_iff, hmark,
    signByte_eq_zero]
  tauto

theorem unspoilt_cons (a b c d : UInt8) (rest : Bytes) :
    Unspoilt (a :: b :: c :: d :: rest) ↔
      ((128 ≤ a → b = 0xFF ∧ c = 0xFF ∧ d = 0xFF) ∧ (128 ≤ b → c = 0xFF ∧ d = 0xFF) ∧
        (128 ≤ c → d = 0xFF)) ∧ Unspoilt rest := by
  constructor
  · intro h
    have hat : ∀ i j, i < j → j < 4 → ∀ hi : i < (a :: b :: c :: d :: rest).length,
        128 ≤ (a :: b :: c :: d :: rest)[i] →
          (a :: b :: c :: d :: rest)[j]? = some 0xFF := by
      intro i j hij hj hi hbyte
      exact h i hi hbyte j hij (by omega)
    refine ⟨⟨fun ha => ⟨?_, ?_, ?_⟩, fun hb => ⟨?_, ?_⟩, fun hc => ?_⟩, ?_⟩
    · simpa using hat 0 1 (by omega) (by omega) (by simp) ha
    · simpa using hat 0 2 (by omega) (by omega) (by simp) ha
    · simpa using hat 0 3 (by omega) (by omega) (by simp) ha
    · simpa using hat 1 2 (by omega) (by omega) (by simp) hb
    · simpa using hat 1 3 (by omega) (by omega) (by simp) hb
    · simpa using hat 2 3 (by omega) (by omega) (by simp) hc
    · intro i hi hbyte j hij hj
      exact h (i + 4) (by simpa using hi) hbyte (j + 4) (by omega) (by omega)
  · intro ⟨⟨ha, hb, hc⟩, hrest⟩ i hi hbyte j hij hj
    rcases Nat.lt_or_ge i 4 with hi4 | hi4
    · have hpair : i = 0 ∧ (j = 1 ∨ j = 2 ∨ j = 3) ∨ i = 1 ∧ (j = 2 ∨ j = 3) ∨
          i = 2 ∧ j = 3 := by omega
      rcases hpair with ⟨rfl, rfl | rfl | rfl⟩ | ⟨rfl, rfl | rfl⟩ | ⟨rfl, rfl⟩
      · simpa using (ha hbyte).1
      · simpa using (ha hbyte).2.1
      · simpa using (ha hbyte).2.2
      · simpa using (hb hbyte).1
      · simpa using (hb hbyte).2
      · simpa using hc hbyte
    · obtain ⟨i', rfl⟩ : ∃ i', i = i' + 4 := ⟨i - 4, by omega⟩
      obtain ⟨j', rfl⟩ : ∃ j', j = j' + 4 := ⟨j - 4, by omega⟩
      exact hrest i' (by simpa using hi) hbyte j' (by omega) (by omega)

/-- In a text that ends before its fourth byte no byte can be followed as it should. -/
theorem unspoilt_short {src : Bytes} (h : src.length < 4) :
    Unspoilt src ↔ ∀ c ∈ src, ¬ 128 ≤ c := by
  constructor
  · intro hun c hc hbyte
    obtain ⟨i, hi, rfl⟩ := List.mem_iff_getElem.mp hc
    have hend := hun i hi hbyte src.length hi (by omega)
    simp at hend
  · intro hall i hi hbyte
    exact absurd hbyte (hall _ (List.getElem_mem hi))

theorem marked_eq_iff (src : Bytes) : marked src = markedWords src ↔ Unspoilt src := by
  induction src using marked.induct with
  | case1 a b c d rest ih =>
    rw [marked, markedWords, List.cons.injEq, ih, unspoilt_cons, (word_eq d).2.2.2, four_iff]
  | case2 a b c =>
    rw [unspoilt_short (by simp), marked, markedWords, List.singleton_inj, three_iff]
    simp
  | case3 a b =>
    rw [unspoilt_short (by simp), marked, markedWords, List.singleton_inj, two_iff]
    simp
  | case4 a =>
    rw [unspoilt_short (by simp), marked, markedWords, List.singleton_inj, one_iff]
    simp
  | case5 =>
    rw [unspoilt_short (by simp), marked, markedWords]
    simp

/-- The padded words are those of the standard exactly when the signs do no harm. -/
theorem padding_eq_iff_unspoilt {src : Bytes} (hsize : src.length < 2 ^ 29) :
    padding src = RFC1321.words (RFC1321.padded src) ↔ Unspoilt src :=
  (padding_eq_iff hsize).trans (marked_eq_iff src)

/-- `Encode` gives the digest of the standard, in capital digits. -/
theorem encode_eq {src : Bytes} (hsize : src.length < 2 ^ 29) (h : Unspoilt src) :
    encode src = RFC1321.hexUpper (RFC1321.digest src) :=
  encode_eq_of_padding ((padding_eq_iff_unspoilt hsize).mpr h)

theorem encode_eq_high : encode [0x61, 0xFE, 0xFF, 0xFF, 0x62] =
    RFC1321.hexUpper (RFC1321.digest [0x61, 0xFE, 0xFF, 0xFF, 0x62]) :=
  encode_eq (by decide) ((marked_eq_iff _).mp (by decide))

/-- Two bytes from 128 on, the text `é`. -/
theorem encode_eq_fails : ¬ ∀ src : Bytes, src.length < 2 ^ 29 →
    encode src = RFC1321.hexUpper (RFC1321.digest src) := by
  intro hall
  have hsame := hall [0xC3, 0xA9] (by decide)
  exact absurd hsame (by decide +kernel)

end MD5
end Calabash
