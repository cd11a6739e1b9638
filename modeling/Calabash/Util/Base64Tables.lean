import Calabash.Util.Base64

/-!
# The lookups of `Base64`

The indices that `Encode` and `Decode` compute, up to the point where a run loses its meaning.
A promoted `char` is negative from 128 on, and so is what a shift to the right leaves of it:
the lookups stay inside the tables exactly on the seven-bit bytes that the loops come to.

## Main results

* `tables_inRange` — where the lookups stay inside the tables.
* `isSome_encode_iff` — where `Encode` has a result.
-/

namespace Calabash
namespace Base64

/-! ## What the loops look up -/

/-- The indices that the loop of `Encode` computes from `i` on. The last two of a group read
`input[i + 2]`, and the index of that can overflow. -/
def encodeIndices (i : ℕ) : Bytes → List Int32
  | [] => []
  | [a] => [promote a >>> 2, (promote a &&& 0x3) <<< 4]
  | [a, b] =>
    [promote a >>> 2, (promote a &&& 0x3) <<< 4 ||| promote b >>> 4, (promote b &&& 0xf) <<< 2]
  | a :: b :: c :: rest =>
    promote a >>> 2 :: ((promote a &&& 0x3) <<< 4 ||| promote b >>> 4) ::
      match advance i 2 with
      | none => []
      | some _ =>
        ((promote b &&& 0xf) <<< 2 ||| promote c >>> 6) :: (promote c &&& 0x3f) ::
          match advance i 3 with
          | none => []
          | some i => encodeIndices i rest

/-- Every index is one of `Base64EncodeMap`. -/
def EncodeInRange (input : Bytes) : Prop := ∀ index ∈ encodeIndices 0 input, Index index

/-- A character that the table has a value for. -/
def valid (c : UInt8) : Bool := (lookup decodeMap (promote c)).any (· != 0xFF)

/-- Four characters after which `Decode` goes on. -/
def passes (c₀ c₁ c₂ c₃ : UInt8) : Bool :=
  valid c₀ && valid c₁ && c₂ != pad && valid c₂ && c₃ != pad && valid c₃

/-- The positions that the loop of `Decode` reads from `i` on, where this is left of the
input. -/
def decodePositions (i : ℕ) : Bytes → List ℕ
  | [] => []
  | c₀ :: c₁ :: c₂ :: c₃ :: rest =>
    if passes c₀ c₁ c₂ c₃ ∧ (advance i 4).isSome then
      i :: (i + 1) :: (i + 2) :: (i + 3) :: decodePositions (i + 4) rest
    else [i, i + 1, i + 2, i + 3]
  | _ :: _ => [i, i + 1, i + 2, i + 3]

/-- The positions that `Decode` reads. -/
def decodeReads (input : Bytes) : List ℕ :=
  if input.length % 4 ≠ 0 then [] else decodePositions 0 input

/-- An index of `Base64DecodeMap`. -/
def DecodeIndex (i : Int32) : Prop := 0 ≤ i ∧ i.toInt.toNat < 256

/-- The index computed from every position is one of `Base64DecodeMap`. -/
def DecodeInRange (input : Bytes) : Prop :=
  ∀ p ∈ decodeReads input, ∀ c ∈ input[p]?, DecodeIndex (promote c)

/-- The groups of four in front after which `Decode` goes on, and one more. -/
def reached : Bytes → Bytes
  | c₀ :: c₁ :: c₂ :: c₃ :: rest =>
    c₀ :: c₁ :: c₂ :: c₃ :: if passes c₀ c₁ c₂ c₃ then reached rest else []
  | _ => []

/-! ## `Encode` -/

theorem index_first_iff (a : UInt8) : Index (promote a >>> 2) ↔ a < 128 :=
  ⟨fun h => lt_128_iff.mpr (index_first a h.1).1, fun h => (index_one h).1⟩

theorem index_second_iff (a b : UInt8) :
    Index ((promote a &&& 0x3) <<< 4 ||| promote b >>> 4) ↔ b < 128 :=
  ⟨fun h => lt_128_iff.mpr (index_second a b h.1).1, index_two⟩

theorem index_third_iff (b c : UInt8) :
    Index ((promote b &&& 0xf) <<< 2 ||| promote c >>> 6) ↔ c < 128 :=
  ⟨fun h => lt_128_iff.mpr (index_third b c h.1).1, index_three⟩

theorem ascii_nil : Ascii [] := List.forall_mem_nil _

theorem ascii_cons {c : UInt8} {s : Bytes} : Ascii (c :: s) ↔ c < 128 ∧ Ascii s :=
  List.forall_mem_cons

theorem encodeIndices_iff {i : ℕ} (hi : i % 3 = 0) (hlt : i < 2 ^ 31) (input : Bytes) :
    (∀ index ∈ encodeIndices i input, Index index) ↔ Ascii (input.take (2 ^ 31 - i)) := by
  induction i, input using encodeFrom.induct with
  | case1 i => simp [encodeIndices, Ascii]
  | case2 i a =>
    have hone : [a].take (2 ^ 31 - i) = [a] := List.take_of_length_le (by simp; omega)
    simp only [encodeIndices, List.forall_mem_cons, index_first_iff, hone, ascii_cons]
    refine and_congr_right fun ha => ?_
    simp [index_one ha, Ascii]
  | case3 i a b =>
    have htwo : [a, b].take (2 ^ 31 - i) = [a, b] := List.take_of_length_le (by simp; omega)
    simp only [encodeIndices, List.forall_mem_cons, index_first_iff, index_second_iff, htwo,
      ascii_cons]
    refine and_congr_right fun _ => and_congr_right fun hb => ?_
    simp [index_four hb, Ascii]
  | case4 i a b c rest ih =>
    simp only [encodeIndices, List.forall_mem_cons, index_first_iff, index_second_iff]
    by_cases hroom : i + 3 < 2 ^ 31
    · have htake : (a :: b :: c :: rest).take (2 ^ 31 - i) =
          a :: b :: c :: rest.take (2 ^ 31 - (i + 3)) := by
        rw [show 2 ^ 31 - i = 2 ^ 31 - (i + 3) + 3 by omega]
        rfl
      have htwo : i + 2 < 2 ^ 31 := by omega
      simp only [advance, if_pos htwo, if_pos hroom, List.forall_mem_cons, index_third_iff,
        ih (i + 3) (by omega) hroom, htake, ascii_cons]
      refine and_congr_right fun _ => and_congr_right fun _ => and_congr_right fun hc => ?_
      simp [index_four hc]
    · -- The counter is at the last multiple of three before it overflows.
      have htake : (a :: b :: c :: rest).take (2 ^ 31 - i) = [a, b] := by
        rw [show 2 ^ 31 - i = 2 by omega]
        rfl
      have htwo : ¬ i + 2 < 2 ^ 31 := by omega
      simp only [advance, if_neg htwo, htake, ascii_cons]
      simp [Ascii]

theorem encodeInRange_iff (s : Bytes) : EncodeInRange s ↔ Ascii (s.take (2 ^ 31)) :=
  encodeIndices_iff rfl (by decide) s

/-- `Encode` has a result on seven-bit input whose length its counter can hold. -/
theorem isSome_encodeFrom_iff (i : ℕ) (input : Bytes) :
    (encodeFrom i input).isSome = true ↔ Ascii input ∧ Room 3 i input.length := by
  constructor
  · intro h
    obtain ⟨encoded, hrun⟩ := Option.isSome_iff_exists.mp h
    refine ⟨?_, room_of_encodeFrom hrun⟩
    clear h
    induction i, input using encodeFrom.induct generalizing encoded with
    | case1 i => exact ascii_nil
    | case2 i a =>
      simp only [encodeFrom, Option.bind_eq_bind, Option.bind_eq_some_iff] at hrun
      obtain ⟨c₀, h₀, -⟩ := hrun
      have ha := lt_128_iff.mpr (index_first a (sextet_of_lookup h₀).1).1
      exact ascii_cons.mpr ⟨ha, ascii_nil⟩
    | case3 i a b =>
      simp only [encodeFrom, Option.bind_eq_bind, Option.bind_eq_some_iff] at hrun
      obtain ⟨c₀, h₀, c₁, h₁, -⟩ := hrun
      have ha := lt_128_iff.mpr (index_first a (sextet_of_lookup h₀).1).1
      have hb := lt_128_iff.mpr (index_second a b (sextet_of_lookup h₁).1).1
      exact ascii_cons.mpr ⟨ha, ascii_cons.mpr ⟨hb, ascii_nil⟩⟩
    | case4 i a b c rest ih =>
      simp only [encodeFrom, Option.bind_eq_bind, Option.bind_eq_some_iff] at hrun
      obtain ⟨c₀, h₀, c₁, h₁, c₂, h₂, c₃, -, i', -, out, hout, -⟩ := hrun
      have ha := lt_128_iff.mpr (index_first a (sextet_of_lookup h₀).1).1
      have hb := lt_128_iff.mpr (index_second a b (sextet_of_lookup h₁).1).1
      have hc := lt_128_iff.mpr (index_third b c (sextet_of_lookup h₂).1).1
      exact ascii_cons.mpr ⟨ha, ascii_cons.mpr ⟨hb, ascii_cons.mpr ⟨hc, ih i' out hout⟩⟩⟩
  · rintro ⟨hascii, hroom⟩
    obtain ⟨encoded, hrun⟩ := exists_encodeFrom hascii hroom
    rw [hrun]
    rfl

/-- `Encode` has a result where its lookups stay inside the table and its counter does not
overflow. -/
theorem isSome_encode_iff (s : Bytes) :
    (encode s).isSome = true ↔ EncodeInRange s ∧ Room 3 0 s.length := by
  rw [encode, isSome_encodeFrom_iff, encodeInRange_iff]
  refine and_congr_left fun hroom => ?_
  rw [List.take_of_length_le]
  rw [Room] at hroom
  omega

/-! ## `Decode` -/

theorem decodeIndex_iff (c : UInt8) : DecodeIndex (promote c) ↔ c < 128 := by
  have hall : ∀ n : Fin 256, (0 ≤ promote (UInt8.ofNat n.val) ∧
      (promote (UInt8.ofNat n.val)).toInt.toNat < 256) ↔ UInt8.ofNat n.val < 128 := by
    decide +kernel
  revert c
  exact of_fin hall

theorem isSome_advance (i k : ℕ) : (advance i k).isSome = true ↔ i + k < 2 ^ 31 := by
  rw [advance]
  split
  · next h => exact ⟨fun _ => h, fun _ => rfl⟩
  · next h => exact ⟨fun hnone => absurd hnone (by decide), fun hlt => absurd hlt h⟩

/-- A text of whole groups that is not empty starts with one. -/
theorem exists_group {c : UInt8} {rest : Bytes} (hlen : (c :: rest).length % 4 = 0) :
    ∃ c₁ c₂ c₃ rest', rest = c₁ :: c₂ :: c₃ :: rest' := by
  match rest, hlen with
  | [], hlen | [_], hlen | [_, _], hlen =>
    simp only [List.length_cons, List.length_nil] at hlen
    omega
  | c₁ :: c₂ :: c₃ :: rest', _ => exact ⟨c₁, c₂, c₃, rest', rfl⟩

/-- In whole groups, every position read is inside the input. -/
theorem decodePositions_lt {i : ℕ} {rest : Bytes} (hlen : rest.length % 4 = 0) :
    ∀ p ∈ decodePositions i rest, p < i + rest.length := by
  fun_induction decodePositions i rest with
  | case1 => exact nofun
  | case2 i c₀ c₁ c₂ c₃ rest hgo ih =>
    simp only [List.length_cons] at hlen
    have htail := ih (by omega)
    simp only [List.forall_mem_cons, List.length_cons]
    refine ⟨by omega, by omega, by omega, by omega, fun p hp => ?_⟩
    have hlt := htail p hp
    omega
  | case3 i c₀ c₁ c₂ c₃ rest hstop =>
    simp only [List.forall_mem_cons, List.length_cons]
    exact ⟨by omega, by omega, by omega, by omega, nofun⟩
  | case4 i c₀ rest hshort =>
    obtain ⟨c₁, c₂, c₃, rest', rfl⟩ := exists_group hlen
    exact absurd rfl (hshort c₁ c₂ c₃ rest')

/-- The characters of a group are where `Decode` reads them. -/
theorem getElem?_group {input : Bytes} {i : ℕ} {c₀ c₁ c₂ c₃ : UInt8} {rest : Bytes}
    (h : input.drop i = c₀ :: c₁ :: c₂ :: c₃ :: rest) :
    input[i]? = some c₀ ∧ input[i + 1]? = some c₁ ∧ input[i + 2]? = some c₂ ∧
      input[i + 3]? = some c₃ := by
  have hat : ∀ k, input[i + k]? = (c₀ :: c₁ :: c₂ :: c₃ :: rest)[k]? := fun k => by
    rw [← h, List.getElem?_drop]
  exact ⟨hat 0, hat 1, hat 2, hat 3⟩

theorem decodePositions_iff {input rest : Bytes} {i : ℕ} (hrest : input.drop i = rest)
    (hlen : rest.length % 4 = 0) (hi : i % 4 = 0) (hlt : i < 2 ^ 31) :
    (∀ p ∈ decodePositions i rest, ∀ c ∈ input[p]?, DecodeIndex (promote c)) ↔
      Ascii ((reached rest).take (2 ^ 31 - i)) := by
  fun_induction decodePositions i rest with
  | case1 => simp [reached, Ascii]
  | case2 i c₀ c₁ c₂ c₃ rest hgo ih =>
    rw [isSome_advance] at hgo
    obtain ⟨hpass, hroom⟩ := hgo
    obtain ⟨h₀, h₁, h₂, h₃⟩ := getElem?_group hrest
    have hdrop : input.drop (i + 4) = rest := by
      rw [← List.drop_drop, hrest]
      rfl
    simp only [List.length_cons] at hlen
    have htake : (reached (c₀ :: c₁ :: c₂ :: c₃ :: rest)).take (2 ^ 31 - i) =
        c₀ :: c₁ :: c₂ :: c₃ :: (reached rest).take (2 ^ 31 - (i + 4)) := by
      rw [reached, if_pos hpass, show 2 ^ 31 - i = 2 ^ 31 - (i + 4) + 4 by omega]
      rfl
    have htail := ih hdrop (by omega) (by omega) hroom
    rw [htake, ascii_cons, ascii_cons, ascii_cons, ascii_cons, ← htail]
    simp only [List.forall_mem_cons, h₀, h₁, h₂, h₃, Option.mem_some_iff, forall_eq',
      decodeIndex_iff]
  | case3 i c₀ c₁ c₂ c₃ rest hstop =>
    obtain ⟨h₀, h₁, h₂, h₃⟩ := getElem?_group hrest
    have htake : (reached (c₀ :: c₁ :: c₂ :: c₃ :: rest)).take (2 ^ 31 - i) =
        [c₀, c₁, c₂, c₃] := by
      rw [isSome_advance] at hstop
      rw [reached]
      by_cases hpass : passes c₀ c₁ c₂ c₃ = true
      · -- The counter is at the last multiple of four before it overflows.
        have hroom : ¬ i + 4 < 2 ^ 31 := fun h => hstop ⟨hpass, h⟩
        rw [if_pos hpass, show 2 ^ 31 - i = 4 by omega]
        rfl
      · rw [if_neg hpass, List.take_of_length_le]
        simp only [List.length_cons, List.length_nil]
        omega
    rw [htake]
    simp [h₀, h₁, h₂, h₃, decodeIndex_iff, Ascii]
  | case4 i c₀ rest hshort =>
    obtain ⟨c₁, c₂, c₃, rest', rfl⟩ := exists_group hlen
    exact absurd rfl (hshort c₁ c₂ c₃ rest')

theorem decodeInRange_iff (s : Bytes) :
    DecodeInRange s ↔ s.length % 4 ≠ 0 ∨ Ascii ((reached s).take (2 ^ 31)) := by
  unfold DecodeInRange decodeReads
  by_cases hlen : s.length % 4 = 0
  · rw [if_neg (not_not.mpr hlen), or_iff_right (not_not.mpr hlen)]
    exact decodePositions_iff rfl hlen rfl (by decide)
  · simp [hlen]

theorem decodeReads_lt (s : Bytes) : ∀ p ∈ decodeReads s, p < s.length := by
  rw [decodeReads]
  split
  · exact nofun
  · next hlen =>
    intro p hp
    have hlt := decodePositions_lt (not_not.mp hlen) p hp
    omega

/-! ## Both -/

/-- Where the lookups stay inside the tables. What `Decode` reads is always inside its input. -/
theorem tables_inRange (s : Bytes) :
    (EncodeInRange s ↔ Ascii (s.take (2 ^ 31))) ∧
      (DecodeInRange s ↔ s.length % 4 ≠ 0 ∨ Ascii ((reached s).take (2 ^ 31))) ∧
      ∀ p ∈ decodeReads s, p < s.length :=
  ⟨encodeInRange_iff s, decodeInRange_iff s, decodeReads_lt s⟩

/-- The byte 128 gives the index -32. -/
theorem tables_outOfRange : ¬ ∀ s, EncodeInRange s ∧ DecodeInRange s := by
  intro hall
  exact absurd ((hall [128]).1 (promote 128 >>> 2) List.mem_cons_self) (by decide)

end Base64
end Calabash
