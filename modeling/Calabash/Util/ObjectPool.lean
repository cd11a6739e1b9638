import Mathlib.Data.List.Basic

/-!
# `ObjectPool`

The slots of the one block that the constructor allocates, and the limit on how many of
them are in use. A call of `Allocate` that finds no idle slot calls `AllocNewBlock` with
the mutex locked, and `AllocNewBlock` locks the same `std::mutex`.
-/

namespace Calabash

/-- `idle` is `idle_objs_` with its back in front. The sizes are `size_t`. -/
structure ObjectPool (S : Type) where
  idle : List S
  nowSize : UInt64
  maxSize : UInt64
  deriving DecidableEq, Repr

namespace ObjectPool
variable {S : Type}

/-- What a call of `Allocate` comes to. -/
inductive Allocation (S : Type)
  | null
  | slot (s : S) (pool : ObjectPool S)
  /-- The thread waits for the mutex it has locked itself. -/
  | stuck
  deriving DecidableEq, Repr

/-- The constructor, for a block with these slots. -/
def create (block : List S) : ObjectPool S := ⟨block.reverse, 0, -1⟩

def setMaxSize (p : ObjectPool S) (newSize : UInt64) : ObjectPool S := { p with maxSize := newSize }

def allocate (p : ObjectPool S) : Allocation S :=
  if p.maxSize ≠ -1 ∧ p.nowSize = p.maxSize then .null
  else
    match p.idle with
    | [] => .stuck
    | s :: idle => .slot s { p with idle := idle, nowSize := p.nowSize + 1 }

/-- `Delete`, but for the destructor of the object. -/
def delete (p : ObjectPool S) (s : S) : ObjectPool S :=
  { p with idle := s :: p.idle, nowSize := p.nowSize - 1 }

@[simp] theorem idle_delete (p : ObjectPool S) (s : S) : (p.delete s).idle = s :: p.idle := rfl

theorem allocate_slot {p p' : ObjectPool S} {s : S} (h : p.allocate = .slot s p') :
    p.idle = s :: p'.idle := by
  rw [allocate] at h
  split at h
  · cases h
  · split at h
    · cases h
    · next hidle =>
      cases h
      exact hidle

theorem allocate_nowSize {p p' : ObjectPool S} {s : S} (h : p.allocate = .slot s p') :
    p'.nowSize = p.nowSize + 1 := by
  rw [allocate] at h
  split at h
  · cases h
  · split at h
    · cases h
    · cases h
      rfl

/-- The pool after so many calls of `Allocate`, if each of them gives a slot. -/
def allocations : ℕ → ObjectPool S → Option (ObjectPool S)
  | 0, p => some p
  | n + 1, p =>
    match p.allocate with
    | .slot _ p => allocations n p
    | _ => none

/-- As long as there are idle slots and the limit is not reached, each call gives a slot. -/
theorem allocations_isSome {n : ℕ} {p : ObjectPool S} (hidle : n ≤ p.idle.length)
    (hroom : p.nowSize.toNat + n ≤ p.maxSize.toNat) : (allocations n p).isSome := by
  induction n generalizing p with
  | zero => rfl
  | succ n ih =>
    obtain ⟨_ | ⟨s, idle⟩, nowSize, maxSize⟩ := p
    · simp at hidle
    · simp only [List.length_cons] at hidle hroom
      have hlimit : nowSize ≠ maxSize := by
        rintro rfl
        omega
      have hnext : (nowSize + 1).toNat = nowSize.toNat + 1 := by
        have hmax := maxSize.toNat_lt
        rw [UInt64.toNat_add, UInt64.toNat_one, Nat.mod_eq_of_lt (by omega)]
      have hslot : (⟨s :: idle, nowSize, maxSize⟩ : ObjectPool S).allocate =
          .slot s ⟨idle, nowSize + 1, maxSize⟩ := by simp [allocate, hlimit]
      rw [allocations, hslot]
      exact ih (by simpa using hidle) (by simpa only [hnext] using (by omega))

end ObjectPool

end Calabash
