import Calabash.Socket.Descriptors
import Mathlib.Data.Fintype.EquivFin

/-!
# How many connections there can be

`Allocate` gives no socket when as many are in use as `SetMaxSize` has allowed. When the slots of
the block are used up before that, it waits for the mutex that it has locked itself, and with it
the event loop. A block has 40 slots, and `connects` is 100 unless it is set.

## Main results

* `pool_step` — what a step does to the pool.
* `filled_run` — connections that come one after the other use up the block.
* `never_stuck_iff` — for which limits the event loop goes on.
-/

namespace Calabash
namespace EventLoop
variable {W S : Type}

/-- The limit is no more than the slots there are. -/
def Sufficient (pool : ObjectPool S) : Prop :=
  pool.maxSize ≠ -1 ∧ pool.maxSize.toNat ≤ pool.idle.length

instance (pool : ObjectPool S) : Decidable (Sufficient pool) :=
  inferInstanceAs (Decidable (_ ∧ _))

/-- How things stand once the loop is stuck: no connection is accepted and no request queued, and
whoever gives a slot back waits as well. -/
structure Frozen (σ τ : EventLoop W S) : Prop where
  loop : τ.loop = .stuck
  pool : τ.handler.pool = σ.handler.pool
  queue : τ.queue <:+ σ.queue
  deleting : ∀ w s, σ.worker w = .deleting s → τ.worker w = .deleting s

/-- Of `slots`, those that are not idle are counted, and no more than the limit says. -/
structure Counted (slots : List S) (max : UInt64) (pool : ObjectPool S) : Prop where
  maxSize : pool.maxSize = max
  count : pool.idle.length + pool.nowSize.toNat = slots.length
  le : pool.nowSize.toNat ≤ max.toNat

namespace Counted
variable {slots : List S} {max : UInt64} {pool pool' : ObjectPool S} {s : S}

theorem slot (h : Counted slots max pool) (hmax : max ≠ -1)
    (halloc : pool.allocate = .slot s pool') : Counted slots max pool' := by
  obtain ⟨idle, nowSize, maxSize⟩ := pool
  obtain ⟨rfl, hcount, hle⟩ := h
  dsimp only at hmax hcount hle
  have hroom : nowSize ≠ maxSize := by
    rintro rfl
    simp [ObjectPool.allocate, hmax] at halloc
  have hlt : nowSize.toNat < maxSize.toNat :=
    lt_of_le_of_ne hle fun heq => hroom (UInt64.toNat_inj.mp heq)
  have hbound := maxSize.toNat_lt
  have hnext : (nowSize + 1).toNat = nowSize.toNat + 1 := by
    rw [UInt64.toNat_add, UInt64.toNat_one, Nat.mod_eq_of_lt (by omega)]
  cases idle with
  | nil => simp [ObjectPool.allocate, hroom] at halloc
  | cons t idle =>
    have heq : ObjectPool.mk idle (nowSize + 1) maxSize = pool' := by
      simp [ObjectPool.allocate, hroom] at halloc
      exact halloc.2
    subst heq
    rw [List.length_cons] at hcount
    exact ⟨rfl, by dsimp only; omega, by dsimp only; omega⟩

theorem delete (h : Counted slots max pool) (hslots : ∀ t, t ∈ slots) (honce : pool.idle.Nodup)
    (hs : s ∉ pool.idle) : Counted slots max (pool.delete s) := by
  obtain ⟨idle, nowSize, maxSize⟩ := pool
  obtain ⟨rfl, hcount, hle⟩ := h
  have hlength : (s :: idle).length ≤ slots.length :=
    (List.subperm_of_subset (List.nodup_cons.mpr ⟨hs, honce⟩) fun t _ => hslots t).length_le
  rw [List.length_cons] at hlength
  dsimp only at hcount hle
  have hprev : (nowSize - 1).toNat = nowSize.toNat - 1 := by
    refine UInt64.toNat_sub_of_le _ _ ?_
    rw [UInt64.le_iff_toNat_le, UInt64.toNat_one]
    omega
  refine ⟨rfl, ?_, ?_⟩
  · simp only [ObjectPool.delete, hprev, List.length_cons]
    omega
  · simp only [ObjectPool.delete, hprev]
    omega

/-- With a limit that the slots suffice for, no one gets stuck. -/
theorem not_stuck (h : Counted slots max pool) (hmax : max ≠ -1) (hle : max.toNat ≤ slots.length) :
    pool.allocate ≠ .stuck := by
  obtain ⟨idle, nowSize, maxSize⟩ := pool
  obtain ⟨rfl, hcount, hbound⟩ := h
  dsimp only at hmax hle hcount hbound
  by_cases hfull : nowSize = maxSize
  · simp [ObjectPool.allocate, hmax, hfull]
  · cases idle with
    | nil =>
      rw [List.length_nil] at hcount
      exact absurd (UInt64.toNat_inj.mp (by omega)) hfull
    | cons t idle => simp [ObjectPool.allocate, hfull]

end Counted

/-- The limit is beyond the idle slots. -/
def Exceeds (pool : ObjectPool S) : Prop :=
  pool.maxSize = -1 ∨ pool.nowSize.toNat + pool.idle.length < pool.maxSize.toNat

namespace Exceeds
variable {pool : ObjectPool S} {s : S} {idle : List S}

theorem not_full (h : Exceeds pool) : ¬ (pool.maxSize ≠ -1 ∧ pool.nowSize = pool.maxSize) := by
  rintro ⟨hmax, hfull⟩
  rcases h with h | h
  · exact hmax h
  · rw [hfull] at h
    omega

theorem stuck (h : Exceeds pool) (hidle : pool.idle = []) : pool.allocate = .stuck := by
  rw [ObjectPool.allocate, if_neg h.not_full, hidle]

theorem slot (h : Exceeds pool) (hidle : pool.idle = s :: idle) :
    ∃ pool', pool.allocate = .slot s pool' ∧ pool'.idle = idle ∧ Exceeds pool' := by
  refine ⟨⟨idle, pool.nowSize + 1, pool.maxSize⟩,
    by rw [ObjectPool.allocate, if_neg h.not_full, hidle], rfl, h.imp_right fun hlt => ?_⟩
  have hnext : (pool.nowSize + 1).toNat ≤ pool.nowSize.toNat + 1 := by
    rw [UInt64.toNat_add, UInt64.toNat_one]
    exact Nat.mod_le _ _
  rw [hidle, List.length_cons] at hlt
  dsimp only
  omega

end Exceeds

theorem exceeds_of_not_sufficient {pool : ObjectPool S} (hnone : pool.nowSize = 0)
    (h : ¬ Sufficient pool) : Exceeds pool := by
  rw [Sufficient, not_and_or, not_not, not_le] at h
  exact h.imp_right fun hlt => by rwa [hnone, UInt64.toNat_zero, Nat.zero_add]

section
variable [DecidableEq W] [DecidableEq S]

open Function (update)

/-- The pool stays as it is, gives a slot to the loop, or gets one back that is in hand. -/
theorem pool_step [Fintype W] {σ σ' : EventLoop W S} (hstep : Step σ σ') :
    σ'.handler.pool = σ.handler.pool ∨
      (∃ s, σ.handler.pool.allocate = .slot s σ'.handler.pool) ∨
      ∃ s ∈ σ.inHand, σ'.handler.pool = σ.handler.pool.delete s := by
  cases hstep with
  | wait rs es hloop | null fd es hloop | stuck fd es hloop | attach s es admits hloop
  | detach s ready es hloop | enqueue s es hloop | finish hloop | dequeue w s queue hw
  | reattach w s admits hw | remove w s hw | escape w s hw => exact .inl rfl
  | accept answer es hloop => exact .inl (SocketHandler.accepted_pool ..)
  | close s es hloop | closeTask w s hw => exact .inl (SocketHandler.close_pool ..)
  | slot fd es s pool hloop halloc => exact .inr (.inl ⟨s, halloc⟩)
  | delete s es hloop =>
    exact .inr (.inr ⟨s, Deleting.inHand (.inl ⟨es, hloop⟩), rfl⟩)
  | deleteTask w s hw =>
    exact .inr (.inr ⟨s, Deleting.inHand (.inr ⟨w, hw⟩), rfl⟩)

/-- The loop gets stuck in `Allocate`. -/
theorem stuck_step {σ σ' : EventLoop W S} (hstep : Step σ σ') (h : σ'.loop = .stuck) :
    σ.loop = .stuck ∨ σ.handler.pool.allocate = .stuck := by
  cases hstep with
  | stuck fd es hloop halloc => exact .inr halloc
  | dequeue | reattach | remove | closeTask | deleteTask | escape => exact .inl h
  | detach s ready es hloop =>
    dsimp only at h
    split at h <;> cases h
  | _ => cases h

/-- Once it is stuck, all that moves are tasks that were queued before. -/
theorem frozen_step {σ τ τ' : EventLoop W S} (h : Frozen σ τ) (hstep : Step τ τ') :
    Frozen σ τ' := by
  obtain ⟨hloop, hpool, hqueue, hdeleting⟩ := h
  have hworker : ∀ w pc, (∀ s, τ.worker w ≠ .deleting s) → ∀ v s, σ.worker v = .deleting s →
      update τ.worker w pc v = .deleting s := by
    intro w pc hw v s hv
    have hvw : v ≠ w := by
      rintro rfl
      exact hw s (hdeleting v s hv)
    rw [Function.update_of_ne hvw]
    exact hdeleting v s hv
  cases hstep with
  | wait rs es h | accept answer es h | null fd es h | stuck fd es h | slot fd es s pool h
  | attach s es admits h | detach s ready es h | close s es h | delete s es h | enqueue s es h
  | finish h =>
    rw [hloop] at h
    cases h
  | dequeue w s queue hw hcons =>
    refine ⟨hloop, hpool, ?_, hworker w _ (by rw [hw]; nofun)⟩
    rw [hcons] at hqueue
    exact (List.suffix_cons s queue).trans hqueue
  | reattach w s admits hw | remove w s hw | escape w s hw =>
    exact ⟨hloop, hpool, hqueue, hworker w _ (by rw [hw]; nofun)⟩
  | closeTask w s hw =>
    exact ⟨hloop, by rw [SocketHandler.close_pool, hpool], hqueue, hworker w _ (by rw [hw]; nofun)⟩
  | deleteTask w s hw hfree => exact absurd hloop hfree

/-! ## A run that gets stuck -/

/-- The listening socket is reported, and `accept` returns. -/
theorem exists_accepted {σ : EventLoop W S} (hloop : σ.loop = .waiting) :
    ∃ tr σ' fd, (system W S).Run σ tr σ' ∧ σ'.loop = .accepted fd [] ∧
      σ'.handler.pool = σ.handler.pool := by
  obtain ⟨answer, hanswer⟩ := Infinite.exists_notMem_finset σ.handler.opened.toFinset
  have hwait := (System.Run.nil (S := system W S) σ).snoc (a := ())
    (.wait [] [.listening] hloop (by simp) List.nodup_nil rfl)
  have haccept := hwait.snoc (a := ())
    (.accept answer [] rfl (fun hmem => hanswer (List.mem_toFinset.mpr hmem)))
  exact ⟨_, _, _, haccept, rfl, by simp [SocketHandler.accepted_pool]⟩

/-- A connection is accepted and attached. -/
theorem exists_connected {σ : EventLoop W S} (hloop : σ.loop = .waiting) {s : S}
    {pool : ObjectPool S} (halloc : σ.handler.pool.allocate = .slot s pool) :
    ∃ tr σ', (system W S).Run σ tr σ' ∧ σ'.loop = .waiting ∧ σ'.handler.pool = pool := by
  obtain ⟨tr, σ₁, fd, hrun, hfd, hpool⟩ := exists_accepted hloop
  have hslot := hrun.snoc (a := ()) (.slot fd [] s pool hfd (by rw [hpool]; exact halloc))
  have hattach := hslot.snoc (a := ()) (.attach s [] true rfl)
  exact ⟨_, _, hattach.snoc (a := ()) (.finish rfl), rfl, rfl⟩

/-- Connections that come one after the other use up the block. -/
theorem filled_run {idle : List S} {σ : EventLoop W S} (hloop : σ.loop = .waiting)
    (hidle : σ.handler.pool.idle = idle) (hexceeds : Exceeds σ.handler.pool) :
    ∃ tr σ', (system W S).Run σ tr σ' ∧ σ'.loop = .stuck := by
  induction idle generalizing σ with
  | nil =>
    obtain ⟨tr, σ₁, fd, hrun, hfd, hpool⟩ := exists_accepted hloop
    have hstuck := hrun.snoc (a := ())
      (.stuck fd [] hfd (by rw [hpool]; exact hexceeds.stuck hidle))
    exact ⟨_, _, hstuck, rfl⟩
  | cons s idle ih =>
    obtain ⟨pool, halloc, hrest, hmore⟩ := hexceeds.slot hidle
    obtain ⟨tr, σ₁, hrun, hwaiting, rfl⟩ := exists_connected hloop halloc
    obtain ⟨last, σ', hlast, hend⟩ := ih hwaiting hrest hmore
    exact ⟨_, σ', hrun.trans hlast, hend⟩

/-- Where `handle` starts with no socket in use, the event loop goes on for ever exactly when the
limit is no more than the slots of the block; and once it is stuck nothing gets it going again. -/
theorem never_stuck_iff [Fintype W] {σ₀ : EventLoop W S} (hstart : Start σ₀)
    (hnone : σ₀.handler.pool.nowSize = 0) :
    ((∀ tr σ, (system W S).Run σ₀ tr σ → σ.loop ≠ .stuck) ↔ Sufficient σ₀.handler.pool) ∧
      ∀ tr σ, (system W S).Run σ₀ tr σ → σ.loop = .stuck →
        ∀ more τ, (system W S).Run σ more τ → Frozen σ τ := by
  refine ⟨⟨fun hnever => ?_, fun hsuff => ?_⟩, fun _ σ _ hloop more τ hrun => ?_⟩
  · by_contra hinsufficient
    obtain ⟨tr, σ, hrun, hstuck⟩ :=
      filled_run hstart.loop rfl (exceeds_of_not_sufficient hnone hinsufficient)
    exact hnever tr σ hrun hstuck
  · suffices hkept : ∀ tr σ, (system W S).Run σ₀ tr σ → σ.Owned ∧ σ.loop ≠ .stuck ∧
        Counted σ₀.handler.pool.idle σ₀.handler.pool.maxSize σ.handler.pool from
      fun tr σ hrun => (hkept tr σ hrun).2.1
    intro tr σ hrun
    induction hrun with
    | nil =>
      refine ⟨owned_start hstart, by rw [hstart.loop]; nofun, rfl, ?_, ?_⟩
      · rw [hnone]
        rfl
      · rw [hnone]
        exact Nat.zero_le _
    | snoc _ hstep ih =>
      obtain ⟨hown, hloop, hcounted⟩ := ih
      refine ⟨owned_step hstep hown, fun hstuck => ?_, ?_⟩
      · rcases stuck_step hstep hstuck with hbefore | halloc
        · exact hloop hbefore
        · exact hcounted.not_stuck hsuff.1 hsuff.2 halloc
      · rcases pool_step hstep with hsame | ⟨s, halloc⟩ | ⟨s, hs, hdelete⟩
        · rwa [hsame]
        · exact hcounted.slot hsuff.1 halloc
        · rw [hdelete]
          exact hcounted.delete hstart.idle hown.idle_once (hown.in_use hs)
  · induction hrun with
    | nil => exact ⟨hloop, rfl, List.suffix_refl _, fun _ _ hw => hw⟩
    | snoc _ hstep ih => exact frozen_step ih hstep

/-- `handle` with a pool as its constructor leaves it. -/
def firstStart (maxConnections : UInt64) : EventLoop Unit (Fin 40) :=
  ⟨⟨(ObjectPool.create (List.finRange 40)).setMaxSize maxConnections, fun _ => 0, ⟨[]⟩, []⟩,
    .waiting, [], fun _ => .idle⟩

theorem start_firstStart (maxConnections : UInt64) : Start (firstStart maxConnections) where
  idle s := List.mem_reverse.mpr (List.mem_finRange s)
  idle_once := List.nodup_reverse.mpr (List.nodup_finRange 40)
  interest := rfl
  loop := rfl
  queue := rfl
  worker _ := rfl

/-- With 40 connections the loop goes on, and with 100 it need not. -/
theorem never_stuck_iff_default :
    (∀ tr σ, (system Unit (Fin 40)).Run (firstStart 40) tr σ → σ.loop ≠ .stuck) ∧
      ∃ tr σ, (system Unit (Fin 40)).Run (firstStart 100) tr σ ∧ σ.loop = .stuck := by
  refine ⟨(never_stuck_iff (start_firstStart 40) rfl).1.mpr (by decide), ?_⟩
  by_contra hnone
  refine absurd ((never_stuck_iff (start_firstStart 100) rfl).1.mp fun tr σ hrun hloop => ?_)
    (by decide)
  exact hnone ⟨tr, σ, hrun, hloop⟩

end

end EventLoop
end Calabash
