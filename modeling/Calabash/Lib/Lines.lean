import Mathlib.Data.List.Infix
import Mathlib.Data.UInt

/-!
# Lines of a text

A text cut at its line ends. A line ends with `"\r\n"`; for a lenient reader it also ends
with a bare `"\n"`.

## Main results

* `lines_append` — the lines of two texts with a line end between them.
* `length_lines_eq_one` — a text is a single line when there is no line end in it.
-/

namespace Calabash

/-- The lines of a text, and what is behind its last line end. -/
def lines (lenient : Bool) : List UInt8 → List (List UInt8)
  | 13 :: 10 :: rest => [] :: lines lenient rest
  | c :: rest =>
    if lenient = true ∧ c = 10 then [] :: lines lenient rest
    else (lines lenient rest).modifyHead (c :: ·)
  | [] => [[]]

/-- There is no line end in the text. -/
def Unbroken (lenient : Bool) (s : List UInt8) : Prop :=
  ¬ [13, 10] <:+: s ∧ (lenient = true → 10 ∉ s)

instance (lenient : Bool) (s : List UInt8) : Decidable (Unbroken lenient s) :=
  inferInstanceAs (Decidable (_ ∧ _))

theorem unbroken_of_not_mem (lenient : Bool) {s : List UInt8} (h : 10 ∉ s) :
    Unbroken lenient s := by
  refine ⟨fun hpair => h (hpair.subset ?_), fun _ => h⟩
  exact List.mem_cons_of_mem _ List.mem_cons_self

theorem lines_ne_nil (lenient : Bool) (s : List UInt8) : lines lenient s ≠ [] := by
  fun_induction lines lenient s with
  | case1 | case2 | case4 => exact List.cons_ne_nil _ _
  | case3 c rest hpair hbare ih => simpa using ih

theorem lines_append (lenient : Bool) (a b : List UInt8) :
    lines lenient (a ++ 13 :: 10 :: b) = lines lenient a ++ lines lenient b := by
  fun_induction lines lenient a with
  | case1 rest ih => rw [List.cons_append, List.cons_append, lines, ih, List.cons_append]
  | case2 c rest hpair hbare ih =>
    rw [List.cons_append, lines, if_pos hbare, ih, List.cons_append]
    rintro rest' rfl
    exact absurd hbare.2 (by decide)
  | case3 c rest hpair hbare ih =>
    rw [List.cons_append, lines, if_neg hbare, ih]
    · obtain ⟨l, ls, hlines⟩ := List.exists_cons_of_ne_nil (lines_ne_nil lenient rest)
      rw [hlines]
      rfl
    · rintro rest' rfl hrest
      cases rest with
      | nil => cases hrest
      | cons d rest =>
        cases hrest
        exact hpair _ rfl rfl
  | case4 => rw [List.nil_append, lines]; rfl

/-- A byte that does not end a line does not matter. -/
theorem unbroken_cons {lenient : Bool} {c : UInt8} {rest : List UInt8}
    (hpair : ∀ rest', c = 13 → rest = 10 :: rest' → False) (hbare : ¬ (lenient = true ∧ c = 10)) :
    Unbroken lenient (c :: rest) ↔ Unbroken lenient rest := by
  have hstart : ¬ [13, 10] <+: c :: rest := by
    intro h
    obtain ⟨hc, hrest⟩ := List.cons_prefix_cons.mp h
    obtain ⟨rest', hrest'⟩ := hrest
    exact hpair rest' hc.symm hrest'.symm
  have hne : lenient = true → c ≠ 10 := fun hlenient hc => hbare ⟨hlenient, hc⟩
  rw [Unbroken, Unbroken, List.infix_cons_iff, or_iff_right hstart]
  refine and_congr_right fun _ => ?_
  constructor
  · exact fun h hlenient hmem => h hlenient (List.mem_cons_of_mem _ hmem)
  · intro h hlenient hmem
    rcases List.mem_cons.mp hmem with heq | hmem
    · exact hne hlenient heq.symm
    · exact h hlenient hmem

theorem unbroken_cons_of_ne {lenient : Bool} {c : UInt8} {rest : List UInt8} (hcr : c ≠ 13)
    (hlf : c ≠ 10) : Unbroken lenient (c :: rest) ↔ Unbroken lenient rest :=
  unbroken_cons (fun _ hc _ => hcr hc) fun h => hlf h.2

theorem lines_of_unbroken {lenient : Bool} {s : List UInt8} (h : Unbroken lenient s) :
    lines lenient s = [s] := by
  fun_induction lines lenient s with
  | case1 rest => exact absurd (List.prefix_append [13, 10] rest).isInfix h.1
  | case2 c rest hpair hbare =>
    refine absurd ?_ (h.2 hbare.1)
    rw [hbare.2]
    exact List.mem_cons_self
  | case3 c rest hpair hbare ih =>
    rw [ih ((unbroken_cons hpair hbare).mp h)]
    rfl
  | case4 => rfl

/-- A text is a single line exactly when there is no line end in it. -/
theorem length_lines_eq_one {lenient : Bool} {s : List UInt8} :
    (lines lenient s).length = 1 ↔ Unbroken lenient s := by
  constructor
  · intro h
    fun_induction lines lenient s with
    | case1 rest | case2 c rest =>
      rw [List.length_cons, Nat.add_eq_right, List.length_eq_zero_iff] at h
      exact absurd h (lines_ne_nil lenient rest)
    | case3 c rest hpair hbare ih =>
      rw [List.length_modifyHead] at h
      exact (unbroken_cons hpair hbare).mpr (ih h)
    | case4 => exact unbroken_of_not_mem lenient List.not_mem_nil
  · intro h
    rw [lines_of_unbroken h]
    rfl

theorem length_lines_append (lenient : Bool) (a : List UInt8) {c : UInt8} (hc : c ≠ 10)
    (b : List UInt8) : (lines lenient (a ++ c :: b)).length + 1 =
      (lines lenient a).length + (lines lenient (c :: b)).length := by
  fun_induction lines lenient a with
  | case1 rest ih =>
    rw [List.cons_append, List.cons_append, lines, List.length_cons, List.length_cons]
    omega
  | case2 d rest hpair hbare ih =>
    rw [List.cons_append, lines, if_pos hbare, List.length_cons, List.length_cons]
    · omega
    · rintro rest' rfl
      exact absurd hbare.2 (by decide)
  | case3 d rest hpair hbare ih =>
    rw [List.cons_append, lines, if_neg hbare, List.length_modifyHead, List.length_modifyHead]
    · exact ih
    · rintro rest' rfl hrest
      cases rest with
      | nil => exact hc (List.cons.inj hrest).1
      | cons e rest =>
        cases hrest
        exact hpair _ rfl rfl
  | case4 =>
    rw [List.nil_append, List.length_singleton]
    exact Nat.add_comm _ _

/-- Two texts joined by a byte that is not `"\n"`. -/
theorem unbroken_append {lenient : Bool} {a b : List UInt8} {c : UInt8} (hc : c ≠ 10) :
    Unbroken lenient (a ++ c :: b) ↔ Unbroken lenient a ∧ Unbroken lenient (c :: b) := by
  have hlength := length_lines_append lenient a hc b
  have ha := List.length_pos_iff.mpr (lines_ne_nil lenient a)
  have hb := List.length_pos_iff.mpr (lines_ne_nil lenient (c :: b))
  simp only [← length_lines_eq_one]
  omega

end Calabash
