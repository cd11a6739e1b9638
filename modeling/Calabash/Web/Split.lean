import Mathlib.Data.List.Basic
import Calabash.Web.RequestMaker

/-!
# What `Split` keeps

The two loops of `Split` with their `int` indices. A pass of the outer loop moves both indices
behind the next separator, or one behind the end of the string where there is none, so the index
has to count one more than the bytes of a string that does not end with a separator.

## Main results

* `split_induction` — a string as its first piece and what is behind the separator.
* `whole_split` — the pieces are the string.
* `splitLoop_eq` — the loops compute `split` as long as their index fits an `int`.
* `splitLoop_whole` — what the loops return of text from the server's buffer.
-/

namespace Calabash
namespace RequestMaker

/-! ## The loops -/

/-- `++ed` on an `int`. -/
def increment (ed : ℕ) : Option ℕ := if ed + 1 < 2 ^ 31 then some (ed + 1) else none

/-- The inner loop, on the bytes from `ed` on. -/
def scanPiece (ch : UInt8) : Bytes → ℕ → Option ℕ
  | [], ed => some ed
  | c :: cs, ed => if c = ch then some ed else (increment ed).bind (scanPiece ch cs)

/-- The outer loop, left after `fuel` passes at the latest. -/
def splitLoop (str : Bytes) (ch : UInt8) : ℕ → ℕ → ℕ → List Bytes → Option (List Bytes)
  | 0, _, _, _ => none
  | fuel + 1, bg, ed, res =>
    if ed < str.length then do
      let ed ← scanPiece ch (str.drop ed) ed
      let res := res ++ [(str.drop bg).take (ed - bg)]
      let ed ← increment ed
      splitLoop str ch fuel ed ed res
    else some res

/-! ## One piece after the other -/

section Pieces
variable {ch : UInt8}

/-- The bytes in front of the first separator. -/
def firstPiece (str : Bytes) (ch : UInt8) : Bytes := str.takeWhile (· != ch)

/-- The bytes behind the first separator, none where there is no separator. -/
def afterPiece (str : Bytes) (ch : UInt8) : Bytes := str.drop ((firstPiece str ch).length + 1)

/-- The string with a separator behind its last piece. -/
def closed (str : Bytes) (ch : UInt8) : Bytes :=
  if str = [] ∨ str.getLast? = some ch then str else str ++ [ch]

theorem not_mem_firstPiece (str : Bytes) : ch ∉ firstPiece str ch := by
  intro h
  have hne := List.mem_takeWhile_imp h
  simp at hne

/-- A string has no separator, or its first piece is followed by one. -/
theorem firstPiece_cases (str : Bytes) :
    firstPiece str ch = str ∧ ch ∉ str ∧ afterPiece str ch = [] ∨
      str = firstPiece str ch ++ ch :: afterPiece str ch := by
  have hsplit : firstPiece str ch ++ str.dropWhile (· != ch) = str :=
    List.takeWhile_append_dropWhile
  have hafter : afterPiece str ch = (str.dropWhile (· != ch)).drop 1 := by
    have hleft := @List.drop_left _ (firstPiece str ch) (str.dropWhile (· != ch))
    rw [hsplit] at hleft
    rw [afterPiece, ← List.drop_drop, hleft]
  cases hdrop : str.dropWhile (· != ch) with
  | nil =>
    rw [hdrop, List.append_nil] at hsplit
    refine .inl ⟨hsplit, ?_, by rw [hafter, hdrop]; rfl⟩
    rw [← hsplit]
    exact not_mem_firstPiece str
  | cons c cs =>
    have hhead := List.head?_dropWhile_not (p := (· != ch)) (l := str)
    rw [hdrop] at hhead
    obtain rfl : c = ch := by simpa using hhead
    rw [hdrop] at hsplit hafter
    right
    rw [hafter]
    exact hsplit.symm

theorem length_afterPiece_lt {str : Bytes} (hne : str ≠ []) :
    (afterPiece str ch).length < str.length := by
  have hpos := List.length_pos_iff.mpr hne
  rw [afterPiece, List.length_drop]
  omega

/-- What holds of the empty string, and of a string when it holds of what is behind its first
separator, holds of every string. -/
theorem split_induction {P : Bytes → Prop} (ch : UInt8) (nil : P [])
    (piece : ∀ str, str ≠ [] → P (afterPiece str ch) → P str) (str : Bytes) : P str := by
  induction hlen : str.length using Nat.strong_induction_on generalizing str with
  | _ n ih =>
    by_cases hne : str = []
    · rw [hne]
      exact nil
    · exact piece str hne (ih _ (hlen ▸ length_afterPiece_lt hne) _ rfl)

/-- `splitFrom` emits what it holds with the first piece. -/
theorem splitFrom_eq {piece str : Bytes} (hne : piece ++ str ≠ []) :
    splitFrom ch piece str = (piece ++ firstPiece str ch) :: split (afterPiece str ch) ch := by
  induction str generalizing piece with
  | nil =>
    have hpiece : piece ≠ [] := by simpa using hne
    simp [splitFrom, hpiece, firstPiece, afterPiece, split]
  | cons c cs ih =>
    by_cases hc : c = ch
    · subst hc
      simp [splitFrom, firstPiece, afterPiece, split]
    · rw [splitFrom, if_neg hc, ih (by simp)]
      simp [firstPiece, afterPiece, hc]

@[simp] theorem split_nil (ch : UInt8) : split [] ch = [] := rfl

theorem split_eq {str : Bytes} (hne : str ≠ []) :
    split str ch = firstPiece str ch :: split (afterPiece str ch) ch :=
  @splitFrom_eq ch [] str hne

theorem split_ne_nil {str : Bytes} (hne : str ≠ []) : split str ch ≠ [] := by
  rw [split_eq hne]
  exact List.cons_ne_nil _ _

/-- Text without the separator is one piece. -/
theorem split_plain {str : Bytes} (h : ch ∉ str) (hne : str ≠ []) : split str ch = [str] := by
  rcases firstPiece_cases str with ⟨hfirst, -, hafter⟩ | hsplit
  · rw [split_eq hne, hfirst, hafter, split_nil]
  · exact absurd (hsplit ▸ List.mem_append_right _ List.mem_cons_self) h

/-- What is in front of a separator is a piece, when there is no other in it. -/
theorem split_append_cons {front : Bytes} (h : ch ∉ front) (rest : Bytes) :
    split (front ++ ch :: rest) ch = front :: split rest ch := by
  have hplain : ∀ c ∈ front, (c != ch) = true := by
    intro c hc
    rw [bne_iff_ne]
    rintro rfl
    exact h hc
  have hfirst : firstPiece (front ++ ch :: rest) ch = front := by
    rw [firstPiece, List.takeWhile_append_of_pos hplain, List.takeWhile_cons_of_neg (by simp),
      List.append_nil]
  have hafter : afterPiece (front ++ ch :: rest) ch = rest := by
    rw [afterPiece, hfirst, ← List.drop_drop, List.drop_left]
    rfl
  rw [split_eq (by simp), hfirst, hafter]

@[simp] theorem closed_nil (ch : UInt8) : closed [] ch = [] := rfl

theorem closed_append (front rest : Bytes) :
    closed (front ++ ch :: rest) ch = front ++ ch :: closed rest ch := by
  by_cases hrest : rest = []
  · simp [closed, hrest]
  · have hlast : (front ++ ch :: rest).getLast? = rest.getLast? := by
      rw [List.append_cons, List.getLast?_append_of_ne_nil _ hrest]
    have hcons : front ++ ch :: rest ≠ [] := by simp
    simp only [closed, hlast, hcons, hrest, false_or]
    split_ifs
    · rfl
    · simp

theorem closed_eq {str : Bytes} (hne : str ≠ []) :
    closed str ch = firstPiece str ch ++ ch :: closed (afterPiece str ch) ch := by
  rcases firstPiece_cases str with ⟨hfirst, hch, hafter⟩ | hsplit
  · have hlast : ¬ (str = [] ∨ str.getLast? = some ch) := by
      rintro (hnil | hlast)
      · exact hne hnil
      · exact hch (List.mem_of_getLast? hlast)
    rw [closed, if_neg hlast, hafter, hfirst, closed_nil]
  · conv_lhs => rw [hsplit]
    exact closed_append _ _

/-! ## What the pieces are -/

theorem not_mem_of_mem_split {str piece : Bytes} (h : piece ∈ split str ch) : ch ∉ piece := by
  induction str using split_induction ch with
  | nil => cases h
  | piece str hne ih =>
    rw [split_eq hne] at h
    rcases List.mem_cons.mp h with rfl | h
    · exact not_mem_firstPiece str
    · exact ih h

/-- The pieces, each with a separator behind it, are the string. -/
theorem flatMap_split (str : Bytes) (ch : UInt8) :
    (split str ch).flatMap (· ++ [ch]) = closed str ch := by
  induction str using split_induction ch with
  | nil => rfl
  | piece str hne ih =>
    rw [split_eq hne, closed_eq hne, List.flatMap_cons, ih, List.append_assoc]
    rfl

theorem length_closed_le (str : Bytes) (ch : UInt8) : (closed str ch).length ≤ str.length + 1 := by
  rw [closed]
  split_ifs
  · exact Nat.le_succ _
  · rw [List.length_append, List.length_singleton]

theorem count_closed (str : Bytes) (ch : UInt8) :
    (closed str ch).count ch =
      str.count ch + if str = [] ∨ str.getLast? = some ch then 0 else 1 := by
  rw [closed]
  split_ifs
  · rfl
  · rw [List.count_append, List.count_singleton_self]

/-- Every piece brings one separator. -/
theorem length_split (str : Bytes) (ch : UInt8) :
    (split str ch).length = (closed str ch).count ch := by
  have hone : ∀ piece ∈ split str ch, (piece ++ [ch]).count ch = 1 := by
    intro piece hpiece
    rw [List.count_append, List.count_eq_zero_of_not_mem (not_mem_of_mem_split hpiece),
      List.count_singleton_self]
  have hmap : (split str ch).map (List.count ch ∘ (· ++ [ch])) = (split str ch).map fun _ => 1 :=
    List.map_congr_left hone
  rw [← flatMap_split, List.count_flatMap, hmap]
  simp

end Pieces

/-- What a string should be split into. -/
structure Whole (str : Bytes) (ch : UInt8) (pieces : List Bytes) : Prop where
  plain : ∀ piece ∈ pieces, ch ∉ piece
  join : pieces.flatMap (· ++ [ch]) = closed str ch
  first : str ≠ [] → pieces.head? = some (firstPiece str ch)
  number : pieces.length = str.count ch + if str = [] ∨ str.getLast? = some ch then 0 else 1

theorem whole_split (str : Bytes) (ch : UInt8) : Whole str ch (split str ch) where
  plain _ := not_mem_of_mem_split
  join := flatMap_split str ch
  first hne := by rw [split_eq hne, List.head?_cons]
  number := by rw [length_split, count_closed]

/-! ## What the loops return -/

/-- The inner loop stops behind the first piece, when an `int` gets that far. -/
theorem scanPiece_eq (ch : UInt8) (rest : Bytes) {ed : ℕ} (hed : ed < 2 ^ 31) :
    scanPiece ch rest ed =
      if ed + (firstPiece rest ch).length < 2 ^ 31 then
        some (ed + (firstPiece rest ch).length) else none := by
  induction rest generalizing ed with
  | nil => simpa [scanPiece, firstPiece] using hed
  | cons c cs ih =>
    by_cases hc : c = ch
    · simpa [scanPiece, firstPiece, hc] using hed
    · have hlength : (firstPiece (c :: cs) ch).length = (firstPiece cs ch).length + 1 := by
        simp [firstPiece, hc]
      rw [scanPiece, if_neg hc, increment, hlength]
      by_cases hnext : ed + 1 < 2 ^ 31
      · rw [if_pos hnext, Option.bind_some, ih hnext, Nat.add_right_comm, Nat.add_assoc]
      · rw [if_neg hnext, Option.bind_none, if_neg (by omega)]

/-- The index behind a pass of the outer loop. -/
theorem drop_next (str : Bytes) (ch : UInt8) (ed : ℕ) :
    str.drop (ed + (firstPiece (str.drop ed) ch).length + 1) = afterPiece (str.drop ed) ch := by
  rw [afterPiece, List.drop_drop, Nat.add_assoc]

/-- From a pass on, the loops split what is left of the string, when an `int` gets behind the
end of it and there is a pass for each piece and one to see the end. -/
theorem splitLoop_eq (str : Bytes) (ch : UInt8) (fuel : ℕ) {ed : ℕ} (hed : ed < 2 ^ 31)
    (res : List Bytes) :
    splitLoop str ch fuel ed ed res =
      if ed + (closed (str.drop ed) ch).length < 2 ^ 31 ∧ (split (str.drop ed) ch).length < fuel
      then some (res ++ split (str.drop ed) ch) else none := by
  induction fuel generalizing ed res with
  | zero => simp [splitLoop]
  | succ fuel ih =>
    rw [splitLoop]
    by_cases hend : ed < str.length
    · have hne : str.drop ed ≠ [] := by simpa using hend
      have hpiece : (str.drop ed).take (ed + (firstPiece (str.drop ed) ch).length - ed) =
          firstPiece (str.drop ed) ch := by
        rw [Nat.add_sub_cancel_left]
        exact (List.prefix_iff_eq_take.mp (List.takeWhile_prefix _)).symm
      have hclosed := congrArg List.length (@closed_eq ch _ hne)
      rw [List.length_append, List.length_cons] at hclosed
      rw [if_pos hend, scanPiece_eq ch _ hed, split_eq hne, hclosed]
      by_cases hscan : ed + (firstPiece (str.drop ed) ch).length < 2 ^ 31
      · rw [if_pos hscan]
        simp only [Option.bind_eq_bind, Option.bind_some, hpiece, increment]
        by_cases hnext : ed + (firstPiece (str.drop ed) ch).length + 1 < 2 ^ 31
        · have hbound : (ed + ((firstPiece (str.drop ed) ch).length +
                ((closed (afterPiece (str.drop ed) ch) ch).length + 1)) < 2 ^ 31 ∧
              (split (afterPiece (str.drop ed) ch) ch).length + 1 < fuel + 1) ↔
              (ed + (firstPiece (str.drop ed) ch).length + 1 +
                (closed (afterPiece (str.drop ed) ch) ch).length < 2 ^ 31 ∧
              (split (afterPiece (str.drop ed) ch) ch).length < fuel) := by omega
          rw [if_pos hnext, Option.bind_some, ih hnext, drop_next, List.append_assoc,
            List.singleton_append]
          simp only [List.length_cons, hbound]
        · rw [if_neg hnext, if_neg (by omega), Option.bind_none]
      · rw [if_neg hscan, if_neg (by omega)]
        rfl
    · have hnil : str.drop ed = [] := List.drop_eq_nil_iff.mpr (by omega)
      rw [if_neg hend, hnil, split_nil, closed_nil, if_pos ⟨hed, Nat.succ_pos fuel⟩,
        List.append_nil]

theorem splitLoop_start (str : Bytes) (ch : UInt8) (fuel : ℕ) :
    splitLoop str ch fuel 0 0 [] =
      if (closed str ch).length < 2 ^ 31 ∧ (split str ch).length < fuel
      then some (split str ch) else none := by
  have hloop := @splitLoop_eq str ch fuel 0 (by decide) []
  simpa only [List.drop_zero, List.nil_append, Nat.zero_add] using hloop

/-- On text from the server's buffer the loops are `split`. -/
theorem splitLoop_of_buffer {str : Bytes} (hstr : str.length ≤ kReqBufSize) (ch : UInt8) {fuel : ℕ}
    (hfuel : str.length + 1 < fuel) : splitLoop str ch fuel 0 0 [] = some (split str ch) := by
  have hclosed := length_closed_le str ch
  have hpieces : (split str ch).length ≤ (closed str ch).length := by
    rw [length_split]
    exact List.count_le_length
  have hbuffer : kReqBufSize < 2 ^ 31 - 1 := by decide
  rw [splitLoop_start, if_pos ⟨by omega, by omega⟩]

/-- Of every text that the buffer holds, and whatever the separator, the loops return the pieces,
and none of it is lost. -/
theorem splitLoop_whole {str : Bytes} (hstr : str.length ≤ kReqBufSize) (ch : UInt8) :
    ∃ pieces, (∀ fuel, str.length + 1 < fuel → splitLoop str ch fuel 0 0 [] = some pieces) ∧
      Whole str ch pieces :=
  ⟨split str ch, fun _ => splitLoop_of_buffer hstr ch, whole_split str ch⟩

/-- An empty piece in the middle, and text behind the last separator. -/
theorem splitLoop_whole_pairs : ∃ pieces,
    splitLoop (ascii "a=1&&b".toList) 38 8 0 0 [] = some pieces ∧ pieces.length = 3 ∧
      Whole (ascii "a=1&&b".toList) 38 pieces := by
  obtain ⟨pieces, hrun, hwhole⟩ :=
    @splitLoop_whole (ascii "a=1&&b".toList) (by decide) 38
  exact ⟨pieces, hrun 8 (by decide), hwhole.number.trans (by decide), hwhole⟩

end RequestMaker
end Calabash
