import Calabash.Lib.Checked
import Calabash.Lib.Reads
import Calabash.Util.Digest

/-!
# `Encode` by its arrays

The methods of `MD5` with their counters as the class has them, 32 bits wide, and with every
access to `rec`, to a block and to the text of a byte checked against its array. `Encode` takes
`Format` as a parameter, since the one of the class cannot be run without leaving `tmp`.

## Main results

* `padding_eq_words` — `Padding` stays inside `rec`, for texts whose length fits an `unsigned int`.
* `iterate_view` — `IterateFunc` stays inside its block, and is the block step of the standard.
* `formatTmp_eq` — the append in `Format` never stays inside `tmp`.
* `refines_iff`, `encode_leaves_tmp` — what this makes of `Encode`.
-/

namespace Calabash
namespace MD5

open RFC1321 (Buffer)

/-- An array that is indexed by more than a loop's own counter. -/
inductive Store
  /-- `rec`. -/
  | words
  /-- `num`, which `IterateFunc` has as `X`. -/
  | block
  | tmp
  deriving DecidableEq

/-- How `Encode` ends without a value: by an access behind the end of an array, or not within so
many passes. -/
inductive Stop
  | outside (store : Store)
  | unfinished
  deriving DecidableEq

/-- The members of the class. -/
structure Encoder where
  temp : MD5
  strLength : UInt32

/-! ## The methods -/

/-- The loop of `Padding`, left after `fuel` passes at the latest. -/
def paddingLoop (src : Bytes) : ℕ → UInt32 → List UInt32 → Except Stop (List UInt32)
  | 0, _, _ => .error .unfinished
  | fuel + 1, i, words =>
    if i.toNat < src.length then do
      let words ← Checked.modify (.outside .words) words (i >>> 2).toNat
        (· ||| word (src.getD i.toNat 0) (i % 4).toNat)
      paddingLoop src fuel (i + 1) words
    else .ok words

namespace Encoder

/-- `Padding`. -/
def padding (self : Encoder) (fuel : ℕ) (src : Bytes) : Except Stop (List UInt32 × Encoder) := do
  let num := UInt32.ofNat ((src.length + 8) / 64 + 1)
  let words ← paddingLoop src fuel 0 (List.replicate (num * 16).toNat 0)
  let words ← Checked.modify (.outside .words) words (src.length >>> 2)
    (· ||| 0x80 <<< UInt32.ofNat (src.length % 4 * 8))
  let words ← Checked.modify (.outside .words) words (words.length - 2)
    fun _ => UInt32.ofNat (src.length <<< 3)
  return (words, { self with strLength := num * 16 })

end Encoder

/-- One pass of the loop of `IterateFunc`. -/
def pass (X : List UInt32) (q : MD5) (i : ℕ) : Except Stop MD5 := do
  let (g, k) :=
    if i < 16 then (F q.b q.c q.d, i)
    else if i < 32 then (G q.b q.c q.d, (1 + 5 * i) % 16)
    else if i < 48 then (H q.b q.c q.d, (5 + 3 * i) % 16)
    else (I q.b q.c q.d, (7 * i) % 16)
  let x ← Checked.get (.outside .block) X k
  return ⟨q.d, q.b + shift (q.a + g + x + T.getD i 0) (s.getD i 0), q.b, q.c⟩

/-- `IterateFunc`. -/
def iterate (q : MD5) (X : List UInt32) : Except Stop MD5 := do
  let r ← (List.range 64).foldlM (pass X) q
  return ⟨q.a + r.a, q.b + r.b, q.c + r.c, q.d + r.d⟩

/-- `res += tmp`: the text up to a NUL. -/
def cString : Reads UInt8 Stop Bytes := do
  let length ← Reads.scanWhile (.outside .tmp) (· != 0) none 0
  Reads.copy (.outside .tmp) 0 length

/-- `Format`. -/
def formatTmp (num : UInt32) : Except Stop Bytes :=
  (List.range 4).foldlM (fun res i => do
    let b := (num >>> UInt32.ofNat (i * 8)).toNat % 256
    let text ← cString.result [str16.getD (b / 16 % 16) 0, str16.getD (b % 16) 0]
    return res ++ text) []

/-- `Encode`. -/
def Encoder.encode (format : UInt32 → Except Stop Bytes) (fuel : ℕ) (self : Encoder)
    (src : Bytes) : Except Stop (Bytes × Encoder) := do
  let self : Encoder := { self with temp := initial, strLength := 0 }
  let (words, self) ← self.padding fuel src
  let temp ← (List.range (self.strLength.toNat / 16)).foldlM (fun temp i => do
    let num ← Checked.window (.outside .words) words (i * 16) 16
    iterate temp num) self.temp
  let a ← format temp.a
  let b ← format temp.b
  let c ← format temp.c
  let d ← format temp.d
  return (a ++ b ++ c ++ d, { self with temp })

/-! ## `Padding` -/

theorem length_foldl_put (entries : List (UInt8 × ℕ)) (words : List UInt32) :
    (entries.foldl put words).length = words.length := by
  induction entries generalizing words with
  | nil => rfl
  | cons entry entries ih => rw [List.foldl_cons, ih, put, List.length_modify]

@[simp] theorem length_padding (src : Bytes) :
    (padding src).length = ((src.length + 8) / 64 + 1) * 16 := by
  rw [padding]
  change (List.set (List.modify (src.zipIdx.foldl put _) _ _) _ _).length = _
  rw [List.length_set, List.length_modify, length_foldl_put, List.length_replicate]

/-- The counter of the loop, as long as it has not come round. -/
theorem toNat_counter {i : ℕ} (h : i < 2 ^ 32) :
    (UInt32.ofNat i).toNat = i ∧ (UInt32.ofNat i >>> 2).toNat = i / 4 ∧
      (UInt32.ofNat i % 4).toNat = i % 4 := by
  have hi : (UInt32.ofNat i).toNat = i := UInt32.toNat_ofNat_of_lt' h
  refine ⟨hi, ?_, ?_⟩
  · rw [UInt32.toNat_shiftRight, hi, Nat.shiftRight_eq_div_pow]
    rfl
  · rw [UInt32.toNat_mod, hi]
    rfl

/-- The words are enough for the bytes, so no pass leaves them. -/
theorem paddingLoop_eq {src : Bytes} (hsrc : src.length < 2 ^ 32) {fuel i : ℕ}
    (hi : i ≤ src.length) (hfuel : src.length - i < fuel) {words : List UInt32}
    (hwords : src.length ≤ 4 * words.length) :
    paddingLoop src fuel (UInt32.ofNat i) words =
      .ok (((src.drop i).zipIdx i).foldl put words) := by
  induction fuel generalizing i words with
  | zero => omega
  | succ fuel ih =>
    obtain ⟨hcounter, hshift, hmod⟩ := toNat_counter (i := i) (by omega)
    rw [paddingLoop, hcounter, hshift, hmod]
    by_cases hend : i < src.length
    · have hnext : UInt32.ofNat i + 1 = UInt32.ofNat (i + 1) := by
        rw [UInt32.ofNat_add]
        rfl
      have hget : src.getD i 0 = src[i] := by simp [hend]
      rw [if_pos hend, Checked.modify_eq _ (by omega), List.drop_eq_getElem_cons hend,
        List.zipIdx_cons, List.foldl_cons, hnext, hget]
      exact ih (by omega) (by omega) (by rwa [List.length_modify])
    · rw [if_neg hend, List.drop_eq_nil_iff.mpr (by omega)]
      rfl

/-- A counter of 32 bits never reaches a longer text. -/
theorem paddingLoop_ne_ok {src : Bytes} (hsrc : 2 ^ 32 ≤ src.length) (fuel : ℕ) (i : UInt32)
    (words r : List UInt32) : paddingLoop src fuel i words ≠ .ok r := by
  induction fuel generalizing i words with
  | zero => nofun
  | succ fuel ih =>
    have hi : i.toNat < src.length := lt_of_lt_of_le i.toNat_lt hsrc
    rw [paddingLoop, if_pos hi]
    intro h
    obtain ⟨words', -, hrest⟩ := Checked.bind_eq_ok.mp h
    exact ih _ _ hrest

/-- `str_length_` as `Padding` leaves it. -/
def blockWords (src : Bytes) : UInt32 := UInt32.ofNat ((src.length + 8) / 64 + 1) * 16

theorem toNat_blockWords {src : Bytes} (hsrc : src.length < 2 ^ 32) :
    (blockWords src).toNat = (padding src).length := by
  rw [blockWords, UInt32.toNat_mul, UInt32.toNat_ofNat', length_padding]
  change _ * 16 % 2 ^ 32 = _
  omega

theorem padding_eq_words {src : Bytes} (hsrc : src.length < 2 ^ 32) {fuel : ℕ}
    (hfuel : src.length < fuel) (self : Encoder) :
    self.padding fuel src = .ok (padding src, { self with strLength := blockWords src }) := by
  have hsize : (UInt32.ofNat ((src.length + 8) / 64 + 1) * 16).toNat =
      ((src.length + 8) / 64 + 1) * 16 := by
    rw [← length_padding]
    exact toNat_blockWords hsrc
  have hshift : src.length >>> 2 = src.length / 4 := Nat.shiftRight_eq_div_pow _ 2
  have hbits : src.length <<< 3 = src.length * 8 := Nat.shiftLeft_eq _ 3
  let zeros : List UInt32 := List.replicate (((src.length + 8) / 64 + 1) * 16) 0
  have hzeros : zeros.length = ((src.length + 8) / 64 + 1) * 16 := List.length_replicate
  have hloop : paddingLoop src fuel 0 zeros = .ok (src.zipIdx.foldl put zeros) :=
    paddingLoop_eq hsrc (Nat.zero_le _) hfuel (by omega)
  have hlength : (src.zipIdx.foldl put zeros).length = ((src.length + 8) / 64 + 1) * 16 := by
    rw [length_foldl_put, hzeros]
  rw [Encoder.padding]
  simp only [hsize, hshift, hbits]
  refine Checked.bind_eq_ok.mpr ⟨_, hloop, Checked.bind_eq_ok.mpr
    ⟨_, Checked.modify_eq _ (by omega) _, Checked.bind_eq_ok.mpr
      ⟨_, Checked.modify_eq _ (by rw [List.length_modify]; omega) _, ?_⟩⟩⟩
  rw [List.length_modify, hlength, ← List.set_eq_modify]
  rfl

/-! ## The blocks -/

theorem pass_eq {X : List UInt32} (hX : X.length = 16) (q : MD5) (i : ℕ) :
    pass X q i = .ok (round X q i) := by
  have hget : ∀ k < 16, Checked.get (Stop.outside .block) X k = .ok (X.getD k 0) := by
    intro k hk
    rw [Checked.get_eq _ (by omega), List.getD_eq_getElem?_getD,
      List.getElem?_eq_getElem (by omega)]
    rfl
  unfold pass round
  split_ifs
  all_goals
    dsimp only
    rw [hget _ (by omega)]
    rfl

/-- `IterateFunc` never leaves its block. -/
theorem iterate_eq {X : List UInt32} (hX : X.length = 16) (q : MD5) :
    iterate q X = .ok (iterateFunc q X) := by
  rw [iterate, Checked.foldlM_eq fun q i _ => pass_eq hX q i]
  rfl

/-- On every block and every chaining value, `IterateFunc` is the block step of the standard. -/
theorem iterate_view (X : Fin 16 → UInt32) (r : Buffer) :
    iterate (view r 0) (List.ofFn X) =
      .ok (view (RFC1321.processBlock (fun k => (List.ofFn X).getD k 0) r) 0) := by
  rw [iterate_eq (List.length_ofFn), iterateFunc_eq fun k _ => rfl]

/-- The blocks of `Encode` are inside its words. -/
theorem blocks_eq {words : List UInt32} (q : MD5) :
    (List.range (words.length / 16)).foldlM (fun temp i => do
      let num ← Checked.window (Stop.outside .words) words (i * 16) 16
      iterate temp num) q =
      .ok ((List.range (words.length / 16)).foldl
        (fun q i => iterateFunc q ((words.drop (i * 16)).take 16)) q) := by
  refine Checked.foldlM_eq (fun q i hi => ?_) q
  have hi := List.mem_range.mp hi
  have hlength : ((words.drop (i * 16)).take 16).length = 16 := by
    rw [List.length_take, List.length_drop]
    omega
  exact Checked.bind_eq_ok.mpr ⟨_, Checked.window_eq _ (by omega), iterate_eq hlength q⟩

/-! ## `Encode` -/

/-- The variables behind the last block. -/
def registers (src : Bytes) : MD5 := view (RFC1321.process (padding src)) 0

/-- Up to its text, `Encode` stays inside its arrays and computes the standard on the words of
`Padding`, whatever the object was used for before. -/
theorem encode_eq_format {src : Bytes} (hsrc : src.length < 2 ^ 32) {fuel : ℕ}
    (hfuel : src.length < fuel) (format : UInt32 → Except Stop Bytes) (self : Encoder) :
    self.encode format fuel src = (do
      let a ← format (registers src).a
      let b ← format (registers src).b
      let c ← format (registers src).c
      let d ← format (registers src).d
      return (a ++ b ++ c ++ d, ⟨registers src, blockWords src⟩)) := by
  have hblocks := @blocks_eq (padding src) initial
  rw [process_eq] at hblocks
  rw [Encoder.encode]
  simp only [padding_eq_words hsrc hfuel, Checked.ok_bind, toNat_blockWords hsrc, hblocks]
  rfl

/-- With a `Format` of two characters a byte, `Encode` is the function that tokens are made with. -/
theorem encode_eq_encode {src : Bytes} (hsrc : src.length < 2 ^ 32) {fuel : ℕ}
    (hfuel : src.length < fuel) (self : Encoder) :
    self.encode (fun num => .ok (format num)) fuel src =
      .ok (encode src, ⟨registers src, blockWords src⟩) := by
  rw [encode_eq_format hsrc hfuel, encode]
  simp only [process_eq]
  rfl

/-- `Encode` gives the text of the standard's block steps on the words that `Padding` makes. -/
def Refines (src : Bytes) : Prop :=
  ∀ self : Encoder, ∃ fuel words padded text self',
    self.padding fuel src = .ok (words, padded) ∧
    self.encode (fun num => .ok (format num)) fuel src = .ok (text, self') ∧
    text = RFC1321.hexUpper
      ([(RFC1321.process words).a, (RFC1321.process words).b, (RFC1321.process words).c,
        (RFC1321.process words).d].flatMap fun w => RFC1321.lowBytes 4 w.toNat)

theorem Refines.length_lt {src : Bytes} (h : Refines src) : src.length < 2 ^ 32 := by
  by_contra hlong
  obtain ⟨fuel, words, padded, text, self', hpadding, -⟩ := h ⟨initial, 0⟩
  obtain ⟨words', hloop, -⟩ := Checked.bind_eq_ok.mp hpadding
  exact paddingLoop_ne_ok (not_lt.mp hlong) _ _ _ _ hloop

/-- The block step on all blocks and chaining values, and `Encode` on every text that is counted
by an `unsigned int`, and no other. -/
theorem refines_iff (src : Bytes) :
    (∀ (X : Fin 16 → UInt32) (r : Buffer), iterate (view r 0) (List.ofFn X) =
      .ok (view (RFC1321.processBlock (fun k => (List.ofFn X).getD k 0) r) 0)) ∧
    (Refines src ↔ src.length < 2 ^ 32) := by
  refine ⟨iterate_view, Refines.length_lt, fun hsrc self => ?_⟩
  have hfuel : src.length < src.length + 1 := Nat.lt_succ_self _
  exact ⟨src.length + 1, padding src, _, _, _, padding_eq_words hsrc hfuel self,
    encode_eq_encode hsrc hfuel self, encode_eq_process src⟩

/-- `2 ^ 32` bytes. -/
theorem long_not_refined : ¬ Refines (List.replicate (2 ^ 32) 0) := by
  intro h
  have hlong := h.length_lt
  rw [List.length_replicate] at hlong
  exact Nat.lt_irrefl _ hlong

/-! ## The text of a byte -/

theorem str16_ne_zero : ∀ n < 16, (str16.getD n 0 != 0) = true := by decide

/-- Two digits have no NUL behind them. -/
theorem cString_digits {x y : ℕ} (hx : x < 16) (hy : y < 16) :
    cString.result [str16.getD x 0, str16.getD y 0] = .error (.outside .tmp) := by
  have hall : ∀ c ∈ [str16.getD x 0, str16.getD y 0].drop 0, (c != 0) = true := by
    intro c hc
    rcases List.mem_pair.mp hc with rfl | rfl
    · exact str16_ne_zero x hx
    · exact str16_ne_zero y hy
  rw [cString, Reads.result, Reads.run_bind_error (Reads.scanWhile_overrun hall)]

/-- `Format` leaves `tmp` with its first byte. -/
theorem formatTmp_eq (num : UInt32) : formatTmp num = .error (.outside .tmp) := by
  have hrange : List.range 4 = 0 :: [1, 2, 3] := by decide
  rw [formatTmp, hrange, List.foldlM_cons]
  simp only [cString_digits (Nat.mod_lt _ (by decide)) (Nat.mod_lt _ (by decide))]
  rfl

/-- `Encode` returns a text of 32 characters, and no access on its way is outside an array. -/
def StaysInside (src : Bytes) : Prop :=
  ∀ self : Encoder, ∃ fuel text self',
    self.encode formatTmp fuel src = .ok (text, self') ∧ text.length = 32

theorem encode_formatTmp_ne_ok (self : Encoder) (fuel : ℕ) (src : Bytes) (r : Bytes × Encoder) :
    self.encode formatTmp fuel src ≠ .ok r := by
  intro h
  obtain ⟨padded, -, h⟩ := Checked.bind_eq_ok.mp h
  obtain ⟨temp, -, h⟩ := Checked.bind_eq_ok.mp h
  obtain ⟨a, ha, -⟩ := Checked.bind_eq_ok.mp h
  rw [formatTmp_eq] at ha
  cases ha

theorem not_staysInside (src : Bytes) : ¬ StaysInside src := by
  intro h
  obtain ⟨fuel, text, self', hrun, -⟩ := h ⟨initial, 0⟩
  exact encode_formatTmp_ne_ok _ _ _ _ hrun

/-- On a text whose length in bits fits a word, the accesses to `rec` and to the blocks stay
inside, and the append in `Format` never does. -/
theorem encode_leaves_tmp {src : Bytes} (h : src.length < 2 ^ 29) :
    (∀ self : Encoder, ∃ fuel, self.encode formatTmp fuel src = .error (.outside .tmp)) ∧
      ¬ StaysInside src := by
  refine ⟨fun self => ⟨src.length + 1, ?_⟩, not_staysInside src⟩
  rw [encode_eq_format (by omega) (Nat.lt_succ_self _)]
  simp only [formatTmp_eq]
  rfl

/-- The text `"a"`. -/
theorem a_not_staysInside : ¬ StaysInside [97] := not_staysInside [97]

theorem encode_leaves_tmp_a :
    (∀ self : Encoder, ∃ fuel, self.encode formatTmp fuel [97] = .error (.outside .tmp)) ∧
      ¬ StaysInside [97] :=
  encode_leaves_tmp (by decide)

end MD5
end Calabash
