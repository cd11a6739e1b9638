import Calabash.Util.PoolBlocks

/-!
# The limit of an `ObjectPool`, and constructors that throw

`Allocate` refuses when as many objects are counted as the limit says, not when there are more.
It counts an object, and takes its slot, before the constructor runs.

## Main results

* `limited_of_respects` — a limit that is never set below the number of objects is kept.
* `throw_costs_slot` — a constructor that throws takes a slot that is never given back.
-/

namespace Calabash
namespace PoolState

open PoolBlocks

variable {relock : Bool} {s t : PoolState}

/-- How many objects `now_size_` counts: those in use, and those whose constructors threw. -/
def counted (s : PoolState) : ℕ := s.live.length + s.lost.length

/-! ## The limit -/

/-- With a limit in force that the objects in use have met, `Allocate` gives nothing and changes
nothing. -/
def Limited (relock : Bool) (s : PoolState) : Prop :=
  s.mem.pool.maxSize ≠ -1 → s.mem.pool.maxSize.toNat ≤ s.live.length →
    ∀ constructs, s.mem.allocate relock constructs = (.null, s.mem)

/-- A limit is not set below the number of objects that are counted. -/
def Respects (s : PoolState) : PoolCall → Prop
  | .setMaxSize newSize => newSize ≠ -1 → s.counted ≤ newSize.toNat
  | _ => True

/-- No more objects are counted than the limit says, and fewer when an `Allocate` has locked
itself out. -/
structure InLimit (s : PoolState) : Prop extends Orderly s where
  le : s.mem.pool.maxSize ≠ -1 → s.counted ≤ s.mem.pool.maxSize.toNat
  lt : s.mem.pool.maxSize ≠ -1 → s.mem.locked = true → s.counted < s.mem.pool.maxSize.toNat

theorem allocate_of_locked {p : PoolBlocks} (h : p.locked = true) (constructs : Bool) :
    p.allocate relock constructs = (.stuck, p) := by
  rw [PoolBlocks.allocate, if_pos h]

theorem allocate_of_full {p : PoolBlocks} (hlocked : p.locked = false)
    (hfull : p.pool.maxSize ≠ -1 ∧ p.pool.nowSize = p.pool.maxSize) (constructs : Bool) :
    p.allocate relock constructs = (.null, p) := by
  rw [PoolBlocks.allocate, if_neg (by simp [hlocked]), if_pos hfull]

/-- `Allocate` leaves the limit as it is, and counts one object more only if it comes back. -/
theorem counted_allocate {constructs : Bool}
    (h : s.after (s.mem.allocate relock constructs) = some t) :
    t.mem.pool.maxSize = s.mem.pool.maxSize ∧
      (t.counted = s.counted ∨ t.counted = s.counted + 1 ∧ t.mem.locked = false) := by
  rcases after_cases h with ⟨locked, rfl⟩ | ⟨q, x, idle, mem, hq, -, rfl, rfl⟩
  · exact ⟨rfl, .inl rfl⟩
  · have hmax : q.pool.maxSize = s.mem.pool.maxSize := by
      cases hq <;> rfl
    cases constructs with
    | true =>
      refine ⟨hmax, .inr ⟨?_, rfl⟩⟩
      simp only [counted, if_true, List.length_cons]
      omega
    | false => exact ⟨hmax, .inr ⟨rfl, rfl⟩⟩

theorem InLimit.allocate (h : s.InLimit) {constructs : Bool}
    (ht : s.after (s.mem.allocate relock constructs) = some t) : t.InLimit := by
  have horderly := h.toOrderly.allocate ht
  obtain ⟨hmax, hcount⟩ := counted_allocate ht
  by_cases hlocked : s.mem.locked = true
  · rw [allocate_of_locked hlocked] at ht
    cases ht
    exact h
  · rw [Bool.not_eq_true] at hlocked
    by_cases hfull : s.mem.pool.maxSize ≠ -1 ∧ s.mem.pool.nowSize = s.mem.pool.maxSize
    · rw [allocate_of_full hlocked hfull] at ht
      cases ht
      exact h
    · -- There is room below the limit for the one object that may be counted now.
      have hroom : s.mem.pool.maxSize ≠ -1 → s.counted < s.mem.pool.maxSize.toNat := by
        intro hlimit
        refine lt_of_le_of_ne (h.le hlimit) fun heq => hfull ⟨hlimit, ?_⟩
        rw [← UInt64.toNat_inj, h.nowSize]
        exact heq
      refine ⟨horderly, ?_, ?_⟩
      · rw [hmax]
        intro hlimit
        have hlt := hroom hlimit
        omega
      · rw [hmax]
        intro hlimit hstuck
        have hlt := hroom hlimit
        rcases hcount with hsame | ⟨-, hfree⟩
        · omega
        · rw [hfree] at hstuck
          cases hstuck

/-- Every call that respects the limit keeps it. -/
theorem InLimit.next (h : s.InLimit) {call : PoolCall} (ht : s.next relock call = some t)
    (hcall : s.Respects call) : t.InLimit := by
  have horderly := h.toOrderly.next ht
  cases effect_of_next ht with
  | allocate hafter => exact h.allocate hafter
  | waits _ _ => exact h
  | delete hlocked hx =>
    refine ⟨horderly, fun hlimit => ?_,
      fun _ hstuck => absurd (hlocked.symm.trans hstuck) Bool.false_ne_true⟩
    have hle := h.le hlimit
    simp only [counted, List.length_erase_of_mem hx] at hle ⊢
    exact le_trans (Nat.add_le_add_right (Nat.sub_le _ _) _) hle
  | setMaxSize newSize hlocked =>
    exact ⟨horderly, hcall, fun _ hstuck => absurd (hlocked.symm.trans hstuck) Bool.false_ne_true⟩
  | setBlockSize newBlockSize hlocked => exact ⟨horderly, h.le, h.lt⟩

theorem InLimit.limited (h : s.InLimit) : s.Limited relock := by
  intro hlimit hmet constructs
  have hle := h.le hlimit
  have hcount : s.counted = s.mem.pool.maxSize.toNat := by
    simp only [counted] at hle ⊢
    omega
  have hlocked : s.mem.locked = false := by
    rw [← Bool.not_eq_true]
    intro hstuck
    have hlt := h.lt hlimit hstuck
    omega
  refine allocate_of_full hlocked ⟨hlimit, ?_⟩ constructs
  rw [← UInt64.toNat_inj, h.nowSize]
  exact hcount

/-- On every run on which no limit is set below the number of objects, whatever the mutex does
for its holder, every limit is a limit in every state. -/
theorem limited_of_respects (h : ((system relock).guarded Respects).Reachable s) :
    s.Limited relock := by
  refine InLimit.limited (h.invariant ?_ ?_)
  · intro s hs
    rw [hs]
    exact ⟨orderly_create, fun hlimit => absurd rfl hlimit, fun hlimit => absurd rfl hlimit⟩
  · intro s call t hs ht
    exact hs.next ht.1 ht.2

theorem respects_step {call : PoolCall} (h : s.next relock call = some t)
    (hcall : s.Respects call) : ((system relock).guarded Respects).step s call t := ⟨h, hcall⟩

/-- One object, and a limit of one. -/
theorem limited_small : ∃ s, ((system false).guarded Respects).Reachable s ∧
    s.mem.pool.maxSize = 1 ∧ s.live.length = 1 ∧ s.Limited false := by
  have hinit : ((system false).guarded Respects).Trace [] { mem := .create } := .nil rfl
  obtain ⟨s, hs, hcount, hlive, hlocked⟩ : ∃ s, next false { mem := .create } (.allocate true) =
      some s ∧ s.counted = 1 ∧ s.live.length = 1 ∧ s.mem.locked = false := ⟨_, rfl, rfl, rfl, rfl⟩
  have hone := hinit.snoc (respects_step hs trivial)
  have hset : next false s (.setMaxSize 1) = some { s with mem := s.mem.setMaxSize 1 } := by
    rw [PoolState.next, hlocked]
    rfl
  have hlimit := hone.snoc (respects_step hset fun _ => hcount.le)
  exact ⟨_, hlimit.reachable, rfl, hlive, limited_of_respects hlimit.reachable⟩

/-- Two objects, and a limit that is lowered to one: a third object is given. -/
theorem limited_fails : ∃ s, (system false).Trace
    [.allocate true, .allocate true, .setMaxSize 1] s ∧ ¬ s.Limited false := by
  obtain ⟨s, hs, hmax, hlive, hslot⟩ : ∃ s, run false { mem := .create }
      [.allocate true, .allocate true, .setMaxSize 1] = some s ∧ s.mem.pool.maxSize = 1 ∧
      s.live.length = 2 ∧ (s.mem.allocate false true).1 ≠ .null := by
    refine ⟨_, rfl, rfl, rfl, ?_⟩
    decide
  refine ⟨s, trace_of_run hs, fun h => hslot ?_⟩
  rw [h (by rw [hmax]; decide) (by rw [hmax, hlive]; decide) true]

/-! ## Constructors that throw -/

/-- The pool can give as many objects as before: the same slots are in use, no more objects are
counted, and of the slots of all blocks, those of new ones included, as many are idle. -/
structure SameCapacity (s t : PoolState) : Prop where
  live : t.live = s.live
  nowSize : t.mem.pool.nowSize = s.mem.pool.nowSize
  idle : t.mem.pool.idle.length + s.mem.allMemory.sum =
    s.mem.pool.idle.length + t.mem.allMemory.sum

/-- Nothing is taken out of the slots that are lost. -/
theorem lost_subset {call : PoolCall} (h : s.next relock call = some t) : s.lost ⊆ t.lost := by
  cases effect_of_next h with
  | @allocate constructs _ hafter =>
    rcases after_cases hafter with ⟨locked, rfl⟩ | ⟨q, x, idle, mem, -, -, -, rfl⟩
    · exact List.Subset.refl _
    · cases constructs with
      | true => exact List.Subset.refl _
      | false => exact List.subset_cons_self x _
  | waits _ _ | delete _ _ | setMaxSize _ _ | setBlockSize _ _ => exact List.Subset.refl _

/-- A slot that is lost is a slot of the pool that is neither idle nor in use. -/
theorem Orderly.of_lost (h : s.Orderly) {x : Slot} (hx : x ∈ s.lost) :
    x ∈ s.mem.slots ∧ x ∉ s.mem.pool.idle ∧ x ∉ s.live := by
  obtain ⟨-, hrest, hidle⟩ := List.nodup_append'.mp h.nodup
  obtain ⟨-, -, hlive⟩ := List.nodup_append'.mp hrest
  refine ⟨h.perm.mem_iff.mp ?_, fun hmem => ?_, fun hmem => hlive hmem hx⟩
  · exact List.mem_append_right _ (List.mem_append_right _ hx)
  · exact hidle hmem (List.mem_append_right _ hx)

theorem Orderly.run (h : s.Orderly) {calls : List PoolCall}
    (hrun : (system relock).Run s calls t) : t.Orderly ∧ s.lost ⊆ t.lost := by
  induction hrun with
  | nil => exact ⟨h, List.Subset.refl _⟩
  | snoc _ hstep ih => exact ⟨ih.1.next hstep, List.Subset.trans ih.2 (lost_subset hstep)⟩

theorem Orderly.not_sameCapacity (h : s.Orderly) {x : Slot} (ht : t.Orderly)
    (hlive : t.live = s.live) (hlost : t.lost = x :: s.lost) : ¬ SameCapacity s t := by
  intro hsame
  have hnow := ht.nowSize
  rw [hsame.nowSize, h.nowSize, hlive, hlost, List.length_cons] at hnow
  omega

/-- In every state that a run reaches, whatever the limit, the block size and the mutex are: a
constructor that throws leaves less capacity, and its slot is a slot of the pool that is never
idle nor in use again. -/
theorem throw_costs_slot (h : (system relock).Reachable s) {x : Slot} {mem : PoolBlocks}
    (hthrow : s.mem.allocate relock false = (.threw (some x), mem)) :
    ∃ t, s.next relock (.allocate false) = some t ∧ ¬ SameCapacity s t ∧
      ∀ calls u, (system relock).Run t calls u →
        x ∈ u.mem.slots ∧ x ∉ u.mem.pool.idle ∧ x ∉ u.live := by
  have horderly := Orderly.of_reachable h
  have hnext : s.next relock (.allocate false) =
      some { s with mem := mem, lost := x :: s.lost } := by
    simp only [PoolState.next, hthrow]
    rfl
  have ht := horderly.next hnext
  refine ⟨_, hnext, horderly.not_sameCapacity ht rfl rfl, ?_⟩
  intro calls u hrun
  obtain ⟨hu, hlost⟩ := ht.run hrun
  exact hu.of_lost (hlost List.mem_cons_self)

theorem throw_costs_first : ∃ x t, next false { mem := .create } (.allocate false) = some t ∧
    ¬ SameCapacity { mem := .create } t ∧ ∀ calls u, (system false).Run t calls u →
      x ∈ u.mem.slots ∧ x ∉ u.mem.pool.idle ∧ x ∉ u.live := by
  obtain ⟨x, mem, hthrow⟩ : ∃ x mem,
      PoolBlocks.create.allocate false false = (.threw (some x), mem) := ⟨_, _, rfl⟩
  exact ⟨x, throw_costs_slot (s := { mem := .create }) ⟨[], .nil rfl⟩ hthrow⟩

/-- With a limit of one, a constructor that throws leaves an empty pool from which nothing is
given. -/
theorem throw_costs_limit : ∃ s t, (system false).Trace [.setMaxSize 1] s ∧
    s.next false (.allocate false) = some t ∧ t.live = [] ∧ ¬ SameCapacity s t ∧
    (s.mem.allocate false true).1 ≠ .null ∧ (t.mem.allocate false true).1 = .null := by
  obtain ⟨s, hs, hslot, hlost⟩ : ∃ s, run false { mem := .create } [.setMaxSize 1] = some s ∧
      (s.mem.allocate false true).1 ≠ .null ∧ ∃ x mem, s.mem.allocate false false =
        (.threw (some x), mem) ∧ s.live = [] ∧ (mem.allocate false true).1 = .null := by
    refine ⟨_, rfl, ?_, _, _, rfl, rfl, rfl⟩
    decide
  obtain ⟨x, mem, hthrow, hlive, hnull⟩ := hlost
  have horderly := Orderly.of_reachable (trace_of_run hs).reachable
  have hnext : s.next false (.allocate false) =
      some { s with mem := mem, lost := x :: s.lost } := by
    simp only [PoolState.next, hthrow]
    rfl
  exact ⟨s, _, trace_of_run hs, hnext, hlive,
    horderly.not_sameCapacity (horderly.next hnext) rfl rfl, hslot, hnull⟩

end PoolState
end Calabash
