import Mathlib.Data.List.ReduceOption
import Calabash.Util.PoolBlocks

/-!
# Shared allocations of an `ObjectPool`

`AllocateShared` wraps whatever `Allocate` gives into a `shared_ptr` whose deleter calls `Delete`,
and a `shared_ptr` calls its deleter for a null pointer too. So the pool is modelled with pointers
in its idle list, of which the null pointer may be one.

As long as no null pointer is given back, the pool is one of slots: `ofBlocks` is the map.

## Main results

* `Mirrors.next` — a call that constructs, or gives back a slot, is one on the pool of slots.
* `consistent_of_sound` — runs of such calls keep the pool consistent.
-/

namespace Calabash

open PoolBlocks (slotsOf)

/-- A pool with its pointers; `none` is the null pointer. -/
structure PointerPool where
  allMemory : List ℕ
  pool : ObjectPool (Option Slot)
  blockSize : UInt64
  locked : Bool := false
  deriving DecidableEq, Repr

namespace PointerPool

/-- The slots of all blocks. -/
def slots (p : PointerPool) : List Slot := p.allMemory.zipIdx.flatMap fun m => slotsOf m.2 m.1

/-- What `AllocNewBlock` does once it has the mutex. -/
def grow (p : PointerPool) : PointerPool :=
  { p with
    allMemory := p.allMemory ++ [p.blockSize.toNat]
    pool := { p.pool with
      idle := ((slotsOf p.allMemory.length p.blockSize.toNat).map some).reverse ++ p.pool.idle } }

/-- The constructor. -/
def create : PointerPool := grow ⟨[], ⟨[], 0, -1⟩, 40, false⟩

def setMaxSize (p : PointerPool) (newSize : UInt64) : PointerPool :=
  { p with pool := p.pool.setMaxSize newSize }

def setBlockSize (p : PointerPool) (newBlockSize : UInt64) : PointerPool :=
  { p with blockSize := newBlockSize }

/-- `Delete`, but for the destructor of the object. -/
def delete (p : PointerPool) (ptr : Option Slot) : PointerPool :=
  { p with pool := p.pool.delete ptr }

/-- `Allocate` behind the test for an idle pointer. No object can be constructed at the null
pointer. -/
def take (p : PointerPool) (constructs : Bool) : PoolBlocks.Outcome × PointerPool :=
  match p.pool.idle with
  | [] => (.undefined, p)
  | none :: _ => (.undefined, p)
  | some s :: idle =>
    (if constructs then .slot s else .threw (some s),
      { p with
        pool := { p.pool with idle := idle, nowSize := p.pool.nowSize + 1 }
        locked := false })

/-- `Allocate`; see `PoolBlocks.allocate`. -/
def allocate (relock : Bool) (p : PointerPool) (constructs : Bool) :
    PoolBlocks.Outcome × PointerPool :=
  if p.locked then (.stuck, p)
  else if p.pool.maxSize ≠ -1 ∧ p.pool.nowSize = p.pool.maxSize then (.null, p)
  else if p.pool.idle ≠ [] then { p with locked := true }.take constructs
  else if relock = false then (.stuck, { p with locked := true })
  else if 2 ^ 64 ≤ p.allMemory.sum + p.blockSize.toNat then (.threw none, p)
  else { p with locked := true }.grow.take constructs

/-- A pool of slots, with a pointer to each. -/
def ofBlocks (p : PoolBlocks) : PointerPool :=
  ⟨p.allMemory, ⟨p.pool.idle.map some, p.pool.nowSize, p.pool.maxSize⟩, p.blockSize, p.locked⟩

theorem ofBlocks_grow (p : PoolBlocks) : (ofBlocks p).grow = ofBlocks p.grow := by
  simp [ofBlocks, grow, PoolBlocks.grow]

theorem ofBlocks_create : create = ofBlocks .create :=
  ofBlocks_grow ⟨[], ⟨[], 0, -1⟩, 40, false⟩

theorem ofBlocks_delete (p : PoolBlocks) (s : Slot) :
    (ofBlocks p).delete (some s) = ofBlocks (p.delete s) := rfl

theorem ofBlocks_take (p : PoolBlocks) (constructs : Bool) :
    (ofBlocks p).take constructs =
      ((p.take constructs).1, ofBlocks (p.take constructs).2) := by
  rw [take, PoolBlocks.take]
  cases hidle : p.pool.idle with
  | nil => simp [ofBlocks, hidle]
  | cons s idle => simp [ofBlocks, hidle]

theorem ofBlocks_allocate (relock : Bool) (p : PoolBlocks) (constructs : Bool) :
    (ofBlocks p).allocate relock constructs =
      ((p.allocate relock constructs).1, ofBlocks (p.allocate relock constructs).2) := by
  have hlock : { ofBlocks p with locked := true } = ofBlocks { p with locked := true } := rfl
  have hidle : (ofBlocks p).pool.idle ≠ [] ↔ p.pool.idle ≠ [] := by simp [ofBlocks]
  rw [allocate, PoolBlocks.allocate, hlock, ofBlocks_grow, ofBlocks_take, ofBlocks_take]
  simp only [hidle]
  change (if p.locked = true then _ else if p.pool.maxSize ≠ -1 ∧ p.pool.nowSize = p.pool.maxSize
    then _ else if p.pool.idle ≠ [] then _ else if relock = false then _ else
      if 2 ^ 64 ≤ p.allMemory.sum + p.blockSize.toNat then _ else _) = _
  split_ifs <;> rfl

end PointerPool

/-- A pool, the slots that `Allocate` gave, and the handles that `AllocateShared` gave; copies of a
`shared_ptr` are one handle. -/
structure SharedState where
  mem : PointerPool
  live : List Slot := []
  handles : List (Option Slot) := []
  deriving DecidableEq, Repr

/-- The calls on a pool. -/
inductive SharedCall
  | allocate (constructs : Bool)
  | allocateShared (constructs : Bool)
  | delete (s : Slot)
  /-- The last copy of a handle goes. -/
  | release (handle : Option Slot)
  | setMaxSize (newSize : UInt64)
  | setBlockSize (newBlockSize : UInt64)
  deriving DecidableEq, Repr

namespace SharedState

/-- The slots of the objects that are in use. -/
def objects (s : SharedState) : List Slot := s.live ++ s.handles.reduceOption

/-- The state behind an `Allocate`, for the caller or in `AllocateShared`. -/
def after (s : SharedState) (shared : Bool) : PoolBlocks.Outcome × PointerPool → Option SharedState
  | (.slot x, mem) =>
    if shared then some { s with mem := mem, handles := some x :: s.handles }
    else some { s with mem := mem, live := x :: s.live }
  | (.null, mem) =>
    if shared then some { s with mem := mem, handles := none :: s.handles }
    else some { s with mem := mem }
  | (.threw _, mem) | (.stuck, mem) => some { s with mem := mem }
  | (.undefined, _) => none

/-- What a call makes of the state. `Delete` is for a slot that `Allocate` gave, and a call on a
locked pool waits. -/
def next (relock : Bool) (s : SharedState) : SharedCall → Option SharedState
  | .allocate constructs => s.after false (s.mem.allocate relock constructs)
  | .allocateShared constructs => s.after true (s.mem.allocate relock constructs)
  | .delete x =>
    if x ∈ s.live then
      if s.mem.locked then some s
      else some { s with mem := s.mem.delete (some x), live := s.live.erase x }
    else none
  | .release handle =>
    if handle ∈ s.handles then
      if s.mem.locked then some s
      else some { s with mem := s.mem.delete handle, handles := s.handles.erase handle }
    else none
  | .setMaxSize newSize =>
    some (if s.mem.locked then s else { s with mem := s.mem.setMaxSize newSize })
  | .setBlockSize newBlockSize =>
    some (if s.mem.locked then s else { s with mem := s.mem.setBlockSize newBlockSize })

/-- The runs of a pool. -/
def system (relock : Bool) : System SharedState SharedCall where
  init s := s = { mem := .create }
  step s a t := s.next relock a = some t

/-- Every idle entry is a slot of the pool, no slot is twice among those that are idle and in use,
and `now_size_` is the number of those in use. -/
structure Consistent (s : SharedState) : Prop where
  real : ∀ ptr ∈ s.mem.pool.idle, ∃ x ∈ s.mem.slots, ptr = some x
  nodup : (s.mem.pool.idle ++ s.objects.map some).Nodup
  nowSize : s.mem.pool.nowSize.toNat = s.objects.length

/-- The constructor returns, and the handle that goes is not the null pointer of an exhausted
pool. -/
def Sound (_ : SharedState) : SharedCall → Prop
  | .allocate constructs | .allocateShared constructs => constructs = true
  | .release handle => handle ≠ none
  | _ => True

/-- The pool is one of slots, in which no slot was lost. -/
structure Mirrors (q : PoolState) (s : SharedState) : Prop where
  mem : s.mem = .ofBlocks q.mem
  live : q.live.Perm s.objects
  lost : q.lost = []
  orderly : q.Orderly

theorem Mirrors.consistent {q : PoolState} {s : SharedState} (h : Mirrors q s) : s.Consistent := by
  have hrep := h.orderly.represents h.lost
  have hidle : s.mem.pool.idle = q.mem.pool.idle.map some := by rw [h.mem]; rfl
  refine ⟨?_, ?_, ?_⟩
  · rw [hidle, h.mem]
    intro ptr hptr
    obtain ⟨x, hx, rfl⟩ := List.mem_map.mp hptr
    exact ⟨x, (hrep.all x).mp (.inl hx), rfl⟩
  · rw [hidle, ← List.map_append]
    refine List.Nodup.map (Option.some_injective _) ?_
    rw [List.nodup_append']
    refine ⟨hrep.idle_nodup, h.live.nodup_iff.mp hrep.live_nodup, ?_⟩
    intro x hx hx'
    exact hrep.disjoint x hx (h.live.mem_iff.mpr hx')
  · rw [h.mem, ← h.live.length_eq]
    exact hrep.nowSize

/-- `Allocate` for an object whose constructor returns, on the pool of slots. -/
theorem Mirrors.allocate {relock : Bool} {q : PoolState} {s t : SharedState} (h : Mirrors q s)
    {shared : Bool} (ht : s.after shared (s.mem.allocate relock true) = some t) :
    ∃ q', Mirrors q' t := by
  rw [h.mem, PointerPool.ofBlocks_allocate] at ht
  rcases houtcome : q.mem.allocate relock true with ⟨outcome, mem⟩
  rw [houtcome] at ht
  have hnext : ∀ q', q.after (outcome, mem) = some q' → q'.Orderly := by
    intro q' hq'
    rw [← houtcome] at hq'
    exact h.orderly.allocate hq'
  cases outcome with
  | slot x =>
    have hq' := hnext _ rfl
    refine ⟨{ q with mem := mem, live := x :: q.live }, ?_⟩
    cases shared with
    | true =>
      cases ht
      exact ⟨rfl, (h.live.cons x).trans List.perm_middle.symm, h.lost, hq'⟩
    | false =>
      cases ht
      exact ⟨rfl, h.live.cons x, h.lost, hq'⟩
  | null =>
    have hq' := hnext _ rfl
    refine ⟨{ q with mem := mem }, ?_⟩
    cases shared <;>
    · cases ht
      exact ⟨rfl, h.live, h.lost, hq'⟩
  | threw taken =>
    cases taken with
    | none =>
      have hq' := hnext _ rfl
      cases ht
      exact ⟨{ q with mem := mem }, rfl, h.live, h.lost, hq'⟩
    | some x => exact absurd houtcome (PoolBlocks.allocate_true_ne x mem)
  | stuck =>
    have hq' := hnext _ rfl
    cases ht
    exact ⟨{ q with mem := mem }, rfl, h.live, h.lost, hq'⟩
  | undefined => cases ht

/-- Giving back a slot that is in use. -/
theorem Mirrors.delete {q : PoolState} {s t : SharedState} (h : Mirrors q s) {x : Slot}
    (hmem : t.mem = s.mem.delete (some x)) (hobjects : s.objects.Perm (x :: t.objects)) :
    ∃ q', Mirrors q' t := by
  have hperm := h.live.trans hobjects
  have hx : x ∈ q.live := hperm.mem_iff.mpr List.mem_cons_self
  refine ⟨{ q with mem := q.mem.delete x, live := q.live.erase x }, ?_, ?_, h.lost,
    h.orderly.delete hx⟩
  · rw [hmem, h.mem, PointerPool.ofBlocks_delete]
  · have herase := hperm.erase x
    rwa [List.erase_cons_head] at herase

/-- A sound call on a pool that is one of slots leaves a pool of slots. -/
theorem Mirrors.next {relock : Bool} {q : PoolState} {s t : SharedState} (h : Mirrors q s)
    {call : SharedCall} (ht : s.next relock call = some t) (hcall : s.Sound call) :
    ∃ q', Mirrors q' t := by
  cases call with
  | allocate constructs | allocateShared constructs =>
    have hreturns : constructs = true := hcall
    subst hreturns
    exact h.allocate ht
  | delete x =>
    simp only [SharedState.next] at ht
    split at ht
    · next hx =>
      split at ht
      · cases ht
        exact ⟨q, h⟩
      · cases ht
        exact h.delete rfl ((List.perm_cons_erase hx).append_right _)
    · cases ht
  | release handle =>
    obtain ⟨x, rfl⟩ := Option.ne_none_iff_exists'.mp hcall
    simp only [SharedState.next] at ht
    split at ht
    · next hx =>
      split at ht
      · cases ht
        exact ⟨q, h⟩
      · cases ht
        refine h.delete rfl ?_
        have hhandles : s.handles.reduceOption.Perm
            (x :: (s.handles.erase (some x)).reduceOption) :=
          (List.perm_cons_erase hx).filterMap id
        exact (hhandles.append_left _).trans List.perm_middle
    · cases ht
  | setMaxSize n =>
    simp only [SharedState.next] at ht
    split at ht
    · cases ht
      exact ⟨q, h⟩
    · cases ht
      exact ⟨{ q with mem := q.mem.setMaxSize n }, by rw [h.mem]; rfl, h.live, h.lost,
        h.orderly.perm, h.orderly.nowSize, h.orderly.small⟩
  | setBlockSize n =>
    simp only [SharedState.next] at ht
    split at ht
    · cases ht
      exact ⟨q, h⟩
    · cases ht
      exact ⟨{ q with mem := q.mem.setBlockSize n }, by rw [h.mem]; rfl, h.live, h.lost,
        h.orderly.perm, h.orderly.nowSize, h.orderly.small⟩

/-- On every run on which the constructors return and no null handle is released, whatever the
mutex does for its holder, the pool is consistent in every state. -/
theorem consistent_of_sound {relock : Bool} {s : SharedState}
    (h : ((system relock).guarded Sound).Reachable s) : s.Consistent := by
  obtain ⟨q, hq⟩ : ∃ q, Mirrors q s := by
    refine h.invariant (P := fun s => ∃ q, Mirrors q s) ?_ ?_
    · rintro s rfl
      exact ⟨{ mem := .create }, PointerPool.ofBlocks_create, .refl _, rfl,
        PoolState.orderly_create⟩
    · intro s call t hs hstep
      obtain ⟨q, hq⟩ := hs
      exact hq.next hstep.1 hstep.2
  exact hq.consistent

theorem sound_step {relock : Bool} {s t : SharedState} {call : SharedCall}
    (h : s.next relock call = some t) (hcall : s.Sound call) :
    ((system relock).guarded Sound).step s call t := ⟨h, hcall⟩

/-- A shared object and its release. -/
theorem consistent_small : ∃ s, ((system false).guarded Sound).Reachable s ∧
    s.mem.pool.nowSize = 0 ∧ s.Consistent := by
  have hinit : ((system false).guarded Sound).Trace [] { mem := .create } := .nil rfl
  obtain ⟨s, x, t, hs, ht, hnow⟩ : ∃ s x t,
      next false { mem := .create } (.allocateShared true) = some s ∧
      next false s (.release (some x)) = some t ∧ t.mem.pool.nowSize = 0 :=
    ⟨_, ⟨0, 39⟩, _, rfl, rfl, rfl⟩
  have hshared := hinit.snoc (sound_step hs rfl)
  have hreleased := hshared.snoc (sound_step ht (Option.some_ne_none x))
  exact ⟨t, hreleased.reachable, hnow, consistent_of_sound hreleased.reachable⟩

/-- A handle of an exhausted pool is released: the null pointer is idle, and one object fewer is
counted than is in use. -/
theorem consistent_fails : ∃ s, (system false).Trace
    [.setMaxSize 1, .allocate true, .allocateShared true, .release none] s ∧
    none ∈ s.mem.pool.idle ∧ s.mem.pool.nowSize = 0 ∧ s.objects.length = 1 ∧ ¬ s.Consistent := by
  obtain ⟨s, hs, hidle, hnow, hobjects⟩ : ∃ s, List.foldlM (next false) { mem := .create }
      [.setMaxSize 1, .allocate true, .allocateShared true, .release none] = some s ∧
      s.mem.pool.idle.head? = some none ∧ s.mem.pool.nowSize = 0 ∧ s.objects.length = 1 :=
    ⟨_, rfl, rfl, rfl, rfl⟩
  have hnull : none ∈ s.mem.pool.idle := List.mem_of_head? hidle
  refine ⟨s, .of_foldlM (fun _ _ _ hstep => hstep) rfl hs, hnull, hnow, hobjects, fun h => ?_⟩
  obtain ⟨x, -, hx⟩ := h.real none hnull
  cases hx

end SharedState
end Calabash
