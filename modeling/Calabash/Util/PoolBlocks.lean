import Mathlib.Data.List.ProdSigma
import Mathlib.Data.List.Perm.Basic
import Mathlib.Data.Finset.Sort
import Calabash.Lib.Transition
import Calabash.Util.ObjectPool

/-!
# The blocks of an `ObjectPool`

`ObjectPool` with its blocks and its mutex. A slot is known by its block and its place in
it, since `new char[]` gives memory apart from all earlier blocks. `Allocate` holds the
mutex when it calls `AllocNewBlock`, which locks it: whether a thread that holds the mutex
gets it again is left open as `relock`. For a `std::mutex` it is not.

A run keeps, next to the pool, the slots that were handed out and not given back, and
those that were taken for an object whose constructor threw.

## Main results

* `Orderly.next` — every call keeps idle, live and lost slots apart, and accounts for all.
* `represents_of_constructed` — when no constructor throws, idle and live are all there is.
* `allocate_completes_iff` — when `Allocate` hands out a slot.
-/

namespace Calabash

structure Slot where
  block : ℕ
  index : ℕ
  deriving DecidableEq, Repr

/-- `allMemory` holds, for each block of `all_memory_`, how many slots it has. -/
structure PoolBlocks where
  allMemory : List ℕ
  pool : ObjectPool Slot
  blockSize : UInt64
  locked : Bool := false
  deriving DecidableEq, Repr

namespace PoolBlocks

/-- The slots of one block. -/
def slotsOf (block size : ℕ) : List Slot := (List.range size).map (Slot.mk block)

/-- The slots of all blocks. -/
def slots (p : PoolBlocks) : List Slot := p.allMemory.zipIdx.flatMap fun m => slotsOf m.2 m.1

/-- How a call ends. -/
inductive Outcome
  | null
  | slot (s : Slot)
  /-- An exception leaves `Allocate`, with a slot taken when the constructor threw it. -/
  | threw (taken : Option Slot)
  /-- `back()` of an empty vector. -/
  | undefined
  /-- The call waits for the mutex for ever. -/
  | stuck
  deriving DecidableEq, Repr

/-- What `AllocNewBlock` does once it has the mutex. -/
def grow (p : PoolBlocks) : PoolBlocks :=
  { p with
    allMemory := p.allMemory ++ [p.blockSize.toNat]
    pool := { p.pool with
      idle := (slotsOf p.allMemory.length p.blockSize.toNat).reverse ++ p.pool.idle } }

/-- The constructor. -/
def create : PoolBlocks := grow ⟨[], ⟨[], 0, -1⟩, 40, false⟩

def setMaxSize (p : PoolBlocks) (newSize : UInt64) : PoolBlocks :=
  { p with pool := p.pool.setMaxSize newSize }

def setBlockSize (p : PoolBlocks) (newBlockSize : UInt64) : PoolBlocks :=
  { p with blockSize := newBlockSize }

/-- `Delete`, but for the destructor of the object. -/
def delete (p : PoolBlocks) (s : Slot) : PoolBlocks := { p with pool := p.pool.delete s }

/-- `Allocate` behind the test for an idle slot; the guard unlocks the mutex on every way
out. -/
def take (p : PoolBlocks) (constructs : Bool) : Outcome × PoolBlocks :=
  match p.pool.idle with
  | [] => (.undefined, p)
  | s :: idle =>
    (if constructs then .slot s else .threw (some s),
      { p with
        pool := { p.pool with idle := idle, nowSize := p.pool.nowSize + 1 }
        locked := false })

/-- `Allocate`, for an object whose constructor returns or throws. The memory of a block
that would bring the slots to 2 ^ 64 cannot be had. -/
def allocate (relock : Bool) (p : PoolBlocks) (constructs : Bool) : Outcome × PoolBlocks :=
  if p.locked then (.stuck, p)
  else if p.pool.maxSize ≠ -1 ∧ p.pool.nowSize = p.pool.maxSize then (.null, p)
  else if p.pool.idle ≠ [] then { p with locked := true }.take constructs
  else if relock = false then (.stuck, { p with locked := true })
  else if 2 ^ 64 ≤ p.allMemory.sum + p.blockSize.toNat then (.threw none, p)
  else { p with locked := true }.grow.take constructs

end PoolBlocks

/-- A pool, the slots in use, and those lost to constructors that threw. -/
structure PoolState where
  mem : PoolBlocks
  live : List Slot := []
  lost : List Slot := []
  deriving DecidableEq, Repr

/-- The calls on a pool. -/
inductive PoolCall
  | allocate (constructs : Bool)
  | delete (s : Slot)
  | setMaxSize (newSize : UInt64)
  | setBlockSize (newBlockSize : UInt64)
  deriving DecidableEq, Repr

namespace PoolState

open PoolBlocks

/-- The state behind an `Allocate`. -/
def after (s : PoolState) : PoolBlocks.Outcome × PoolBlocks → Option PoolState
  | (.slot x, mem) => some { s with mem := mem, live := x :: s.live }
  | (.threw (some x), mem) => some { s with mem := mem, lost := x :: s.lost }
  | (.null, mem) | (.threw none, mem) | (.stuck, mem) => some { s with mem := mem }
  | (.undefined, _) => none

/-- What a call makes of the state. `Delete` is for a slot in use, and a call on a locked
pool waits. -/
def next (relock : Bool) (s : PoolState) : PoolCall → Option PoolState
  | .allocate constructs => s.after (s.mem.allocate relock constructs)
  | .delete x =>
    if x ∈ s.live then
      if s.mem.locked then some s
      else some { s with mem := s.mem.delete x, live := s.live.erase x }
    else none
  | .setMaxSize newSize =>
    some (if s.mem.locked then s else { s with mem := s.mem.setMaxSize newSize })
  | .setBlockSize newBlockSize =>
    some (if s.mem.locked then s else { s with mem := s.mem.setBlockSize newBlockSize })

/-- The runs of a pool. -/
def system (relock : Bool) : System PoolState PoolCall where
  init s := s = { mem := .create }
  step s a t := s.next relock a = some t

/-- Idle, live and lost slots are apart and make up all blocks, and `now_size_` counts
those that are not idle. -/
structure Orderly (s : PoolState) : Prop where
  perm : (s.mem.pool.idle ++ (s.live ++ s.lost)).Perm s.mem.slots
  nowSize : s.mem.pool.nowSize.toNat = s.live.length + s.lost.length
  small : s.mem.allMemory.sum < 2 ^ 64

end PoolState

namespace PoolBlocks

theorem mem_slotsOf {block size : ℕ} {s : Slot} :
    s ∈ slotsOf block size ↔ s.block = block ∧ s.index < size := by
  constructor
  · intro h
    obtain ⟨i, hi, rfl⟩ := List.mem_map.mp h
    exact ⟨rfl, List.mem_range.mp hi⟩
  · intro ⟨hblock, hindex⟩
    refine List.mem_map.mpr ⟨s.index, List.mem_range.mpr hindex, ?_⟩
    rw [← hblock]

theorem nodup_slotsOf (block size : ℕ) : (slotsOf block size).Nodup :=
  List.Nodup.map (fun _ _ h => (Slot.mk.inj h).2) List.nodup_range

@[simp] theorem length_slotsOf (block size : ℕ) : (slotsOf block size).length = size := by
  simp [slotsOf]

theorem slots_grow (p : PoolBlocks) :
    p.grow.slots = p.slots ++ slotsOf p.allMemory.length p.blockSize.toNat := by
  simp [slots, grow, List.zipIdx_append]

theorem length_slots (p : PoolBlocks) : p.slots.length = p.allMemory.sum := by
  rw [slots, List.length_flatMap]
  have hsizes : (p.allMemory.zipIdx.map fun m => (slotsOf m.2 m.1).length) = p.allMemory := by
    simp only [length_slotsOf]
    exact List.zipIdx_map_fst 0 _
  rw [hsizes]

/-- Blocks are apart. -/
theorem nodup_slots (p : PoolBlocks) : p.slots.Nodup := by
  rw [slots, List.nodup_flatMap]
  refine ⟨fun m _ => nodup_slotsOf _ _, ?_⟩
  have hplaces : (p.allMemory.zipIdx.map Prod.snd).Nodup := by
    rw [List.zipIdx_map_snd]
    exact List.nodup_range'
  refine (List.pairwise_map.mp hplaces).imp fun {m n} hne => ?_
  intro s hm hn
  exact hne ((mem_slotsOf.mp hm).1.symm.trans (mem_slotsOf.mp hn).1)

/-! ## What `Allocate` gives -/

/-- A slot that is handed out, or lost, was the back of the idle list. -/
theorem take_eq {p mem : PoolBlocks} {constructs : Bool} {outcome : Outcome}
    (h : p.take constructs = (outcome, mem)) (hne : outcome ≠ .undefined) :
    ∃ x idle, p.pool.idle = x :: idle ∧ mem.locked = false ∧
      outcome = if constructs then .slot x else .threw (some x) := by
  rw [take] at h
  cases hidle : p.pool.idle with
  | nil =>
    rw [hidle] at h
    cases h
    exact absurd rfl hne
  | cons x idle =>
    rw [hidle] at h
    cases h
    exact ⟨x, idle, rfl, rfl, rfl⟩

/-- The pool from which `Allocate` takes a slot: as it is, or with one more block. -/
inductive Source (relock : Bool) (p : PoolBlocks) : PoolBlocks → Prop
  | idle : p.pool.idle ≠ [] → Source relock p { p with locked := true }
  | grown : relock = true → p.allMemory.sum + p.blockSize.toNat < 2 ^ 64 →
      Source relock p { p with locked := true }.grow

/-- `Allocate` goes on to take a slot, or ends without one. -/
theorem allocate_cases (relock : Bool) (p : PoolBlocks) (constructs : Bool) :
    (∃ q, Source relock p q ∧ p.allocate relock constructs = q.take constructs) ∨
      ∃ outcome locked, p.allocate relock constructs = (outcome, { p with locked := locked }) ∧
        (outcome = .null ∨ outcome = .threw none ∨ outcome = .stuck) := by
  rw [allocate]
  split
  · exact .inr ⟨_, p.locked, rfl, .inr (.inr rfl)⟩
  · split
    · exact .inr ⟨_, p.locked, rfl, .inl rfl⟩
    · split
      · next hidle => exact .inl ⟨_, .idle hidle, rfl⟩
      · split
        · exact .inr ⟨_, true, rfl, .inr (.inr rfl)⟩
        · next hrelock =>
          split
          · exact .inr ⟨_, p.locked, rfl, .inr (.inl rfl)⟩
          · next hroom =>
            exact .inl ⟨_, .grown (by simpa using hrelock) (Nat.lt_of_not_le hroom), rfl⟩

/-- Without its blocks, an unlocked pool is an `ObjectPool`. -/
theorem allocate_pool {p : PoolBlocks} (hlocked : p.locked = false) :
    p.allocate false true = match p.pool.allocate with
      | .null => (.null, p)
      | .slot s pool => (.slot s, { p with pool := pool })
      | .stuck => (.stuck, { p with locked := true }) := by
  by_cases hfull : p.pool.maxSize ≠ -1 ∧ p.pool.nowSize = p.pool.maxSize
  · have hnull : p.pool.allocate = .null := if_pos hfull
    rw [hnull, allocate, if_neg (by simp [hlocked]), if_pos hfull]
  · rw [allocate, if_neg (by simp [hlocked]), if_neg hfull]
    cases hidle : p.pool.idle with
    | nil =>
      have hstuck : p.pool.allocate = .stuck := by
        rw [ObjectPool.allocate, if_neg hfull, hidle]
      rw [hstuck, if_neg (by simp), if_pos rfl]
    | cons s idle =>
      have hslot : p.pool.allocate =
          .slot s { p.pool with idle := idle, nowSize := p.pool.nowSize + 1 } := by
        rw [ObjectPool.allocate, if_neg hfull, hidle]
      rw [hslot, if_pos (by simp), take, hidle, ← hlocked]
      rfl

theorem allocate_true_ne {relock : Bool} {p : PoolBlocks} (x : Slot) (mem : PoolBlocks) :
    p.allocate relock true ≠ (.threw (some x), mem) := by
  intro h
  rcases allocate_cases relock p true with ⟨q, hq, heq⟩ | ⟨outcome, locked, heq, hend⟩
  · rw [heq] at h
    obtain ⟨y, idle, -, -, hy⟩ := take_eq h (by simp)
    cases hy
  · rw [heq] at h
    cases h
    rcases hend with hend | hend | hend <;> cases hend

end PoolBlocks

namespace PoolState

open PoolBlocks

variable {relock : Bool} {s t : PoolState}

/-! ## What a call does -/

/-- An `Allocate` takes a slot for the object, or at most locks the mutex. -/
theorem after_cases {constructs : Bool}
    (h : s.after (s.mem.allocate relock constructs) = some t) :
    (∃ locked, t = { s with mem := { s.mem with locked := locked } }) ∨
      ∃ q x idle mem, Source relock s.mem q ∧ q.pool.idle = x :: idle ∧
        mem = { q with
          pool := { q.pool with idle := idle, nowSize := q.pool.nowSize + 1 }
          locked := false } ∧
        t = if constructs then { s with mem := mem, live := x :: s.live }
          else { s with mem := mem, lost := x :: s.lost } := by
  rcases allocate_cases relock s.mem constructs with ⟨q, hq, heq⟩ | ⟨outcome, locked, heq, hend⟩
  · rw [heq, PoolBlocks.take] at h
    cases hidle : q.pool.idle with
    | nil =>
      rw [hidle] at h
      cases h
    | cons x idle =>
      rw [hidle] at h
      refine .inr ⟨q, x, idle, _, hq, hidle, rfl, ?_⟩
      cases constructs <;>
      · cases h
        rfl
  · rw [heq] at h
    rcases hend with rfl | rfl | rfl <;>
    · cases h
      exact .inl ⟨locked, rfl⟩

/-- What the calls make of a state. -/
inductive Effect (relock : Bool) (s : PoolState) : PoolCall → PoolState → Prop
  | allocate {constructs : Bool} {t : PoolState} :
      s.after (s.mem.allocate relock constructs) = some t →
      Effect relock s (.allocate constructs) t
  | waits (call : PoolCall) : s.mem.locked = true → Effect relock s call s
  | delete {x : Slot} : s.mem.locked = false → x ∈ s.live →
      Effect relock s (.delete x) { s with mem := s.mem.delete x, live := s.live.erase x }
  | setMaxSize (newSize : UInt64) : s.mem.locked = false →
      Effect relock s (.setMaxSize newSize) { s with mem := s.mem.setMaxSize newSize }
  | setBlockSize (newBlockSize : UInt64) : s.mem.locked = false →
      Effect relock s (.setBlockSize newBlockSize) { s with mem := s.mem.setBlockSize newBlockSize }

theorem effect_of_next {call : PoolCall} (h : s.next relock call = some t) :
    Effect relock s call t := by
  cases call with
  | allocate constructs => exact .allocate h
  | delete x =>
    simp only [PoolState.next] at h
    by_cases hx : x ∈ s.live
    · rw [if_pos hx] at h
      by_cases hlocked : s.mem.locked = true
      · rw [if_pos hlocked] at h
        cases h
        exact .waits _ hlocked
      · rw [if_neg hlocked] at h
        cases h
        exact .delete (Bool.eq_false_of_not_eq_true hlocked) hx
    · rw [if_neg hx] at h
      cases h
  | setMaxSize newSize =>
    simp only [PoolState.next] at h
    by_cases hlocked : s.mem.locked = true
    · rw [if_pos hlocked] at h
      cases h
      exact .waits _ hlocked
    · rw [if_neg hlocked] at h
      cases h
      exact .setMaxSize newSize (Bool.eq_false_of_not_eq_true hlocked)
  | setBlockSize newBlockSize =>
    simp only [PoolState.next] at h
    by_cases hlocked : s.mem.locked = true
    · rw [if_pos hlocked] at h
      cases h
      exact .waits _ hlocked
    · rw [if_neg hlocked] at h
      cases h
      exact .setBlockSize newBlockSize (Bool.eq_false_of_not_eq_true hlocked)

/-! ## What a call keeps -/

theorem Orderly.length (h : s.Orderly) :
    s.mem.pool.idle.length + (s.live.length + s.lost.length) = s.mem.allMemory.sum := by
  have hlen := h.perm.length_eq
  rw [List.length_append, List.length_append, length_slots] at hlen
  exact hlen

/-- The guard on the mutex does not matter. -/
theorem Orderly.lock (h : s.Orderly) (locked : Bool) :
    Orderly { s with mem := { s.mem with locked := locked } } := ⟨h.perm, h.nowSize, h.small⟩

theorem Orderly.grow (h : s.Orderly)
    (hfit : s.mem.allMemory.sum + s.mem.blockSize.toNat < 2 ^ 64) :
    Orderly { s with mem := s.mem.grow } := by
  refine ⟨?_, h.nowSize, ?_⟩
  · simp only
    rw [slots_grow]
    have hnew : (slotsOf s.mem.allMemory.length s.mem.blockSize.toNat).reverse.Perm
        (slotsOf s.mem.allMemory.length s.mem.blockSize.toNat) := List.reverse_perm _
    simp only [PoolBlocks.grow, List.append_assoc]
    exact (hnew.append h.perm).trans List.perm_append_comm
  · simp only [PoolBlocks.grow, List.sum_append, List.sum_singleton]
    exact hfit

/-- Taking a slot moves it out of the idle ones. -/
theorem Orderly.take (h : s.Orderly) {constructs : Bool}
    (ht : s.after (s.mem.take constructs) = some t) : t.Orderly := by
  have hlength := h.length
  have hnow := h.nowSize
  have hsmall := h.small
  cases hidle : s.mem.pool.idle with
  | nil =>
    rw [PoolBlocks.take, hidle] at ht
    cases ht
  | cons x idle =>
    have hperm := h.perm
    rw [hidle] at hlength hperm
    have hone : (s.mem.pool.nowSize + 1).toNat = s.live.length + s.lost.length + 1 := by
      rw [List.length_cons] at hlength
      rw [UInt64.toNat_add, hnow]
      simp only [UInt64.reduceToNat]
      omega
    rw [PoolBlocks.take, hidle] at ht
    cases constructs with
    | true =>
      cases ht
      refine ⟨?_, ?_, hsmall⟩
      · exact List.perm_middle.trans hperm
      · simp only [List.length_cons]
        omega
    | false =>
      cases ht
      refine ⟨?_, ?_, hsmall⟩
      · refine List.Perm.trans ?_ hperm
        have hinner : (s.live ++ x :: s.lost).Perm (x :: (s.live ++ s.lost)) := List.perm_middle
        exact (hinner.append_left idle).trans List.perm_middle
      · simp only [List.length_cons]
        omega

theorem Orderly.source (h : s.Orderly) {q : PoolBlocks} (hq : Source relock s.mem q) :
    Orderly { s with mem := q } := by
  cases hq with
  | idle _ => exact h.lock true
  | grown _ hroom => exact (h.lock true).grow hroom

theorem Orderly.allocate (h : s.Orderly) {constructs : Bool}
    (ht : s.after (s.mem.allocate relock constructs) = some t) : t.Orderly := by
  rcases allocate_cases relock s.mem constructs with ⟨q, hq, heq⟩ | ⟨outcome, locked, heq, hend⟩
  · rw [heq] at ht
    exact (h.source hq).take ht
  · rw [heq] at ht
    rcases hend with rfl | rfl | rfl <;>
    · cases ht
      exact h.lock locked

theorem Orderly.delete (h : s.Orderly) {x : Slot} (hx : x ∈ s.live) :
    Orderly { s with mem := s.mem.delete x, live := s.live.erase x } := by
  have hnow := h.nowSize
  have hpos := List.length_pos_of_mem hx
  refine ⟨?_, ?_, h.small⟩
  · have hlive : (x :: s.live.erase x).Perm s.live := (List.perm_cons_erase hx).symm
    have hmiddle : (x :: s.mem.pool.idle ++ (s.live.erase x ++ s.lost)).Perm
        (s.mem.pool.idle ++ (x :: s.live.erase x ++ s.lost)) := List.perm_middle.symm
    exact (hmiddle.trans ((hlive.append_right s.lost).append_left _)).trans h.perm
  · have hle : (1 : UInt64) ≤ s.mem.pool.nowSize := by
      rw [UInt64.le_iff_toNat_le, hnow]
      simp only [UInt64.reduceToNat]
      omega
    simp only [PoolBlocks.delete, ObjectPool.delete, List.length_erase_of_mem hx]
    rw [UInt64.toNat_sub_of_le _ _ hle, hnow]
    simp only [UInt64.reduceToNat]
    omega

/-- Every call keeps the order of the pool. -/
theorem Orderly.next (h : s.Orderly) {call : PoolCall} (ht : s.next relock call = some t) :
    t.Orderly := by
  cases effect_of_next ht with
  | allocate hafter => exact h.allocate hafter
  | waits _ _ => exact h
  | delete _ hx => exact h.delete hx
  | setMaxSize n _ | setBlockSize n _ => exact ⟨h.perm, h.nowSize, h.small⟩

theorem orderly_create : Orderly { mem := .create } := by
  refine ⟨?_, rfl, by decide⟩
  have hslots : PoolBlocks.create.slots = slotsOf 0 40 := rfl
  rw [hslots]
  exact List.reverse_perm (slotsOf 0 40)

theorem Orderly.of_reachable (h : (system relock).Reachable s) : s.Orderly := by
  refine h.invariant ?_ ?_
  · intro s hs
    rw [hs]
    exact orderly_create
  · intro s call t hs ht
    exact hs.next ht

/-! ## When no constructor throws -/

/-- The idle list has no duplicates and no slot in use, idle and used slots are all slots of
all blocks, and `now_size_` is the number of those in use. -/
structure Represents (s : PoolState) : Prop where
  idle_nodup : s.mem.pool.idle.Nodup
  live_nodup : s.live.Nodup
  disjoint : ∀ x ∈ s.mem.pool.idle, x ∉ s.live
  all : ∀ x, x ∈ s.mem.pool.idle ∨ x ∈ s.live ↔ x ∈ s.mem.slots
  nowSize : s.mem.pool.nowSize.toNat = s.live.length

instance (s : PoolState) : Decidable (∀ x ∈ s.mem.pool.idle, x ∉ s.live) :=
  inferInstanceAs (Decidable (∀ x ∈ s.mem.pool.idle, _))

theorem Orderly.nodup (h : s.Orderly) : (s.mem.pool.idle ++ (s.live ++ s.lost)).Nodup :=
  h.perm.nodup_iff.mpr (nodup_slots _)

theorem Orderly.represents (h : s.Orderly) (hlost : s.lost = []) : s.Represents := by
  have hnodup := h.nodup
  have hperm := h.perm
  have hnow := h.nowSize
  rw [hlost, List.append_nil] at hnodup hperm
  rw [hlost, List.length_nil, Nat.add_zero] at hnow
  obtain ⟨hidle, hlive, hdisjoint⟩ := List.nodup_append'.mp hnodup
  exact ⟨hidle, hlive, fun x hx hx' => hdisjoint hx hx',
    fun x => by rw [← List.mem_append, hperm.mem_iff], hnow⟩

/-- `Allocate` never hands out a slot in use. -/
theorem Orderly.fresh (h : s.Orderly) {constructs : Bool} {x : Slot} {mem : PoolBlocks}
    (hslot : s.mem.allocate relock constructs = (.slot x, mem)) : x ∉ s.live := by
  rcases allocate_cases relock s.mem constructs with ⟨q, hq, heq⟩ | ⟨outcome, locked, heq, hend⟩
  · rw [heq] at hslot
    obtain ⟨y, idle, hidle, -, hy⟩ := take_eq hslot (by simp)
    have hx : y = x := by
      cases constructs with
      | true => exact (Outcome.slot.inj hy).symm
      | false => cases hy
    have hnodup := (h.source hq).nodup
    rw [hidle, hx] at hnodup
    intro hlive
    exact (List.nodup_cons.mp hnodup).1
      (List.mem_append_right _ (List.mem_append_left _ hlive))
  · rw [heq] at hslot
    cases hslot
    rcases hend with hend | hend | hend <;> cases hend

/-- Only a constructor that throws loses a slot. -/
theorem lost_eq_of_constructed {calls : List PoolCall} (h : (system relock).Trace calls s)
    (hconstructs : ∀ c ∈ calls, c ≠ .allocate false) : s.lost = [] := by
  refine h.invariant (P := fun calls s => (∀ c ∈ calls, c ≠ .allocate false) → s.lost = [])
    ?_ ?_ hconstructs
  · intro s hs _
    rw [hs]
  · intro calls s call t hs ht hall
    have hlost := hs fun c hc => hall c (List.mem_append_left _ hc)
    have hcall := hall call (List.mem_append_right _ List.mem_cons_self)
    cases effect_of_next ht with
    | @allocate constructs _ hafter =>
      rcases after_cases hafter with ⟨locked, rfl⟩ | ⟨q, x, idle, mem, -, -, -, rfl⟩
      · exact hlost
      · have hreturns : constructs = true := by
          cases constructs with
          | true => rfl
          | false => exact absurd rfl hcall
        rw [if_pos hreturns]
        exact hlost
    | waits _ _ | delete _ _ | setMaxSize _ _ | setBlockSize _ _ => exact hlost

/-- On every run on which no constructor throws, whatever the mutex does for its holder. -/
theorem represents_of_constructed {calls : List PoolCall} (h : (system relock).Trace calls s)
    (hconstructs : ∀ c ∈ calls, c ≠ .allocate false) :
    s.Represents ∧ ∀ constructs x mem,
      s.mem.allocate relock constructs = (.slot x, mem) → x ∉ s.live := by
  have horderly := Orderly.of_reachable h.reachable
  refine ⟨horderly.represents (lost_eq_of_constructed h hconstructs), ?_⟩
  intro constructs x mem hslot
  exact horderly.fresh hslot

/-- The calls one after the other. -/
def run (relock : Bool) (s : PoolState) (calls : List PoolCall) : Option PoolState :=
  calls.foldlM (next relock) s

theorem trace_of_run {calls : List PoolCall} (h : run relock { mem := .create } calls = some t) :
    (system relock).Trace calls t :=
  .of_foldlM (fun _ _ _ hstep => hstep) rfl h

theorem represents_small :
    ∃ s, (system false).Trace [.allocate true, .setMaxSize 1, .allocate true] s ∧ s.Represents ∧
      ∀ constructs x mem, s.mem.allocate false constructs = (.slot x, mem) → x ∉ s.live := by
  obtain ⟨s, hs⟩ : ∃ s, run false { mem := .create }
      [.allocate true, .setMaxSize 1, .allocate true] = some s := ⟨_, rfl⟩
  exact ⟨s, trace_of_run hs, represents_of_constructed (trace_of_run hs) (by decide)⟩

/-- An `Allocate` whose object throws in its constructor, and a call that is completed: the
slot is neither idle nor in use. -/
theorem represents_fails :
    ∃ s, (system false).Trace [.allocate false, .setMaxSize 1] s ∧ ¬ s.Represents := by
  obtain ⟨s, hs, hnow, hlive⟩ : ∃ s, run false { mem := .create }
      [.allocate false, .setMaxSize 1] = some s ∧ s.mem.pool.nowSize.toNat = 1 ∧ s.live = [] :=
    ⟨_, rfl, rfl, rfl⟩
  refine ⟨s, trace_of_run hs, fun h => ?_⟩
  have hcount := h.nowSize
  rw [hnow, hlive] at hcount
  cases hcount

/-! ## When `Allocate` hands out a slot -/

/-- With a mutex that is not given twice, the first block is the only one. -/
theorem allMemory_eq (h : (system false).Reachable s) : s.mem.allMemory = [40] := by
  refine h.invariant (P := fun s => s.mem.allMemory = [40]) ?_ ?_
  · intro s hs
    rw [hs]
    rfl
  · intro s call t hs ht
    cases effect_of_next ht with
    | @allocate constructs _ hafter =>
      rcases after_cases hafter with ⟨locked, rfl⟩ | ⟨q, x, idle, mem, hq, -, rfl, rfl⟩
      · exact hs
      · cases hq with
        | grown hrelock _ => cases hrelock
        | idle _ => cases constructs <;> exact hs
    | waits _ _ | delete _ _ | setMaxSize _ _ | setBlockSize _ _ => exact hs

/-- In every state that a run reaches, whatever the block size and the limit have been set
to: `Allocate` comes back with a slot, and the mutex unlocked, exactly when no call has
locked it for ever, slots of the first block are left, the limit is not met (slots lost to
constructors count), and the constructor returns. -/
theorem allocate_completes_iff (h : (system false).Reachable s) (constructs : Bool) :
    (∃ x mem, s.mem.allocate false constructs = (.slot x, mem) ∧ mem.locked = false) ↔
      s.mem.locked = false ∧ s.live.length + s.lost.length < 40 ∧
        (s.mem.pool.maxSize = -1 ∨
          s.live.length + s.lost.length ≠ s.mem.pool.maxSize.toNat) ∧ constructs = true := by
  have horderly := Orderly.of_reachable h
  have hlength := horderly.length
  have hnow := horderly.nowSize
  rw [allMemory_eq h, List.sum_singleton] at hlength
  constructor
  · intro ⟨x, mem, hslot, _⟩
    rw [PoolBlocks.allocate] at hslot
    split at hslot
    · cases hslot
    · next hlocked =>
      split at hslot
      · cases hslot
      · next hfull =>
        split at hslot
        · next hidle =>
          have hpos := List.length_pos_iff.mpr hidle
          obtain ⟨y, idle, -, -, hy⟩ := take_eq hslot (by simp)
          refine ⟨by simpa using hlocked, by omega, ?_, ?_⟩
          · rw [not_and_or, not_not] at hfull
            refine hfull.imp id fun hne heq => hne ?_
            rw [← UInt64.toNat_inj, hnow]
            exact heq
          · cases constructs with
            | true => rfl
            | false => cases hy
        · split at hslot
          · cases hslot
          · next hrelock => exact absurd rfl hrelock
  · intro ⟨hlocked, htaken, hroom, hreturns⟩
    have hidle : s.mem.pool.idle ≠ [] := by
      intro hnil
      rw [hnil, List.length_nil] at hlength
      omega
    have hfull : ¬ (s.mem.pool.maxSize ≠ -1 ∧ s.mem.pool.nowSize = s.mem.pool.maxSize) := by
      rintro ⟨hmax, heq⟩
      refine (hroom.resolve_left hmax) ?_
      rw [← hnow, heq]
    rcases htake : { s.mem with locked := true }.take constructs with ⟨outcome, mem⟩
    have hdefined : outcome ≠ .undefined := by
      rintro rfl
      obtain ⟨x, idle, hcons⟩ := List.exists_cons_of_ne_nil hidle
      rw [PoolBlocks.take, hcons, hreturns] at htake
      cases htake
    obtain ⟨x, idle, -, hfree, houtcome⟩ := take_eq htake hdefined
    rw [hreturns] at houtcome
    refine ⟨x, mem, ?_, hfree⟩
    rw [PoolBlocks.allocate, if_neg (by simp [hlocked]), if_neg hfull, if_pos hidle, htake,
      houtcome]
    rfl

/-- Under a limit of three, with a slot in use, one lost to a constructor and one given back. -/
theorem allocate_completes_limited :
    ∃ s, (system false).Trace [.setMaxSize 3, .allocate true, .allocate true, .allocate false,
        .delete ⟨0, 39⟩] s ∧ s.live = [⟨0, 38⟩] ∧ s.lost = [⟨0, 37⟩] ∧
      ∃ x mem, s.mem.allocate false true = (.slot x, mem) ∧ mem.locked = false := by
  have hrun : (run false { mem := .create } [.setMaxSize 3, .allocate true, .allocate true,
      .allocate false, .delete ⟨0, 39⟩]).any (fun s =>
        decide (s.live = [⟨0, 38⟩] ∧ s.lost = [⟨0, 37⟩] ∧ s.mem.locked = false ∧
          s.mem.pool.maxSize.toNat = 3)) = true := by
    decide +kernel
  obtain ⟨s, hs, hend⟩ := (Option.any_eq_true _ _).mp hrun
  rw [decide_eq_true_eq] at hend
  obtain ⟨hlive, hlost, hlocked, hmax⟩ := hend
  refine ⟨s, trace_of_run hs, hlive, hlost, ?_⟩
  exact (allocate_completes_iff (trace_of_run hs).reachable true).mpr
    ⟨hlocked, by simp [hlive, hlost], by simp [hlive, hlost, hmax], rfl⟩

/-- Forty allocations on a pool without a limit, and the next one locks itself out. -/
theorem allocate_completes_fails :
    ∃ s, (system false).Trace (List.replicate 40 (.allocate true)) s ∧ 0 < s.mem.blockSize ∧
      s.mem.pool.maxSize = -1 ∧ (s.mem.allocate false true).1 = .stuck ∧
      ¬ ∃ x mem, s.mem.allocate false true = (.slot x, mem) ∧ mem.locked = false := by
  have hrun : ((run false { mem := .create } (List.replicate 40 (.allocate true))).any fun s =>
      decide (0 < s.mem.blockSize ∧ s.mem.pool.maxSize = -1 ∧
        (s.mem.allocate false true).1 = .stuck)) = true := by
    decide +kernel
  obtain ⟨s, hs, hend⟩ := (Option.any_eq_true _ _).mp hrun
  rw [decide_eq_true_eq] at hend
  obtain ⟨hblock, hmax, hstuck⟩ := hend
  refine ⟨s, trace_of_run hs, hblock, hmax, hstuck, ?_⟩
  intro ⟨x, mem, hslot, _⟩
  rw [hslot] at hstuck
  cases hstuck

end PoolState
end Calabash
