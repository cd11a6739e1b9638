import Mathlib.Data.List.Infix

/-!
# Paths in a file tree

A place in a tree is the list of the names that lead to it. A path is walked step by step,
and every step is made from a directory. In a tree without links, where a walk ends can be
read off its steps: `walk_eq_some`. `FileTree.around` is the smallest tree that has a file
at the end of a given walk, and exists unless the walk leads through the file.
-/

namespace Calabash
namespace Paths

variable {ν : Type}

/-- One step of a path. -/
inductive Step (ν : Type)
  | stay
  | up
  | down (name : ν)

/-- Where a step leads; above the root is the root. -/
def Step.from (d : List ν) : Step ν → List ν
  | .stay => d
  | .up => d.dropLast
  | .down name => d ++ [name]

/-- Where the steps lead, if each can be made. -/
def resolve (d : List ν) (steps : List (Step ν)) : List ν := steps.foldl Step.from d

/-- The places that the steps are made from. -/
def trail : List ν → List (Step ν) → List (List ν)
  | _, [] => []
  | d, step :: steps => d :: trail (step.from d) steps

theorem resolve_append (d : List ν) (s t : List (Step ν)) :
    resolve d (s ++ t) = resolve (resolve d s) t := List.foldl_append

inductive Kind
  | file
  | directory
  deriving DecidableEq

/-- A file tree without links: whatever there is lies in a directory. -/
structure FileTree (ν : Type) where
  kind : List ν → Option Kind
  root : kind [] = some .directory
  parent : ∀ d name, kind (d ++ [name]) ≠ none → kind d = some .directory

namespace FileTree
variable (tree : FileTree ν)

/-- Walks the steps; `none` when one would be made from something that is no directory. -/
def walk : List ν → List (Step ν) → Option (List ν)
  | d, [] => some d
  | d, step :: steps =>
    if tree.kind d = some .directory then walk (step.from d) steps else none

/-- The steps lead to a file. -/
def HasFile (d : List ν) (steps : List (Step ν)) : Prop :=
  ∃ f, tree.walk d steps = some f ∧ tree.kind f = some .file

instance (d : List ν) (steps : List (Step ν)) : Decidable (tree.HasFile d steps) :=
  match h : tree.walk d steps with
  | none => isFalse fun ⟨f, hf, _⟩ => by rw [h] at hf; cases hf
  | some f =>
    if hk : tree.kind f = some .file then isTrue ⟨f, h, hk⟩
    else isFalse fun ⟨g, hg, hgk⟩ => by
      rw [h] at hg
      cases hg
      exact hk hgk

variable {tree}

theorem walk_eq_some {d : List ν} {steps : List (Step ν)} {f : List ν} :
    tree.walk d steps = some f ↔
      f = resolve d steps ∧ ∀ v ∈ trail d steps, tree.kind v = some .directory := by
  induction steps generalizing d with
  | nil => simp [walk, resolve, trail, eq_comm]
  | cons step steps ih =>
    by_cases hd : tree.kind d = some .directory
    · rw [walk, if_pos hd, ih, trail, List.forall_mem_cons]
      exact ⟨fun h => ⟨h.1, hd, h.2⟩, fun h => ⟨h.1, h.2.2⟩⟩
    · simp [walk, trail, hd]

/-- What lies below something is not below a file. -/
theorem kind_of_prefix {d e : List ν} (hpre : d <+: e) (hne : d ≠ e)
    (h : tree.kind e ≠ none) : tree.kind d = some .directory := by
  obtain ⟨rest, rfl⟩ := hpre
  induction rest using List.reverseRecOn with
  | nil => simp at hne
  | append_singleton rest name ih =>
    rw [← List.append_assoc] at h
    have hparent := tree.parent _ _ h
    by_cases hrest : rest = []
    · simpa [hrest] using hparent
    · exact ih (by simpa using hrest) (by rw [hparent]; simp)

/-- Nothing on the way to a file lies in it. -/
theorem not_prefix_of_hasFile {d : List ν} {steps : List (Step ν)} (h : tree.HasFile d steps) :
    ∀ v ∈ trail d steps, ¬ resolve d steps <+: v := by
  obtain ⟨f, hwalk, hfile⟩ := h
  obtain ⟨rfl, hdirs⟩ := walk_eq_some.mp hwalk
  intro v hv hpre
  have hdir : tree.kind (resolve d steps) = some .directory := by
    by_cases heq : resolve d steps = v
    · rw [heq]
      exact hdirs v hv
    · exact kind_of_prefix hpre heq (by rw [hdirs v hv]; simp)
  rw [hfile] at hdir
  cases hdir

variable [DecidableEq ν]

/-- A tree with one file, the directories above it, and some others. -/
def around (f : List ν) (dirs : List (List ν)) (hf : f ≠ [])
    (hdirs : ∀ v ∈ dirs, ¬ f <+: v) : FileTree ν where
  kind q :=
    if q = f then some .file
    else if q <+: f ∨ ∃ v ∈ dirs, q <+: v then some .directory else none
  root := by simp [Ne.symm hf]
  parent d name h := by
    have hsub : d ++ [name] <+: f ∨ ∃ v ∈ dirs, d ++ [name] <+: v := by
      by_contra hno
      have hne : d ++ [name] ≠ f := by
        rintro rfl
        exact hno (.inl (List.prefix_refl _))
      rw [if_neg hne, if_neg hno] at h
      exact h rfl
    have hpre : d <+: d ++ [name] := List.prefix_append _ _
    have hne : d ≠ f := by
      rintro rfl
      rcases hsub with hlong | ⟨v, hv, hlong⟩
      · have hlen := hlong.length_le
        rw [List.length_append, List.length_singleton] at hlen
        omega
      · exact hdirs v hv (hpre.trans hlong)
    rw [if_neg hne, if_pos]
    rcases hsub with hlong | ⟨v, hv, hlong⟩
    · exact .inl (hpre.trans hlong)
    · exact .inr ⟨v, hv, hpre.trans hlong⟩

theorem around_hasFile {d : List ν} {steps : List (Step ν)} (hf : resolve d steps ≠ [])
    (h : ∀ v ∈ trail d steps, ¬ resolve d steps <+: v) :
    (around (resolve d steps) (trail d steps) hf h).HasFile d steps := by
  refine ⟨resolve d steps, walk_eq_some.mpr ⟨rfl, fun v hv => ?_⟩, if_pos rfl⟩
  have hne : v ≠ resolve d steps := by
    rintro rfl
    exact h _ hv (List.prefix_refl _)
  exact (if_neg hne).trans (if_pos (.inr ⟨v, hv, List.prefix_refl _⟩))

end FileTree
end Paths
end Calabash
