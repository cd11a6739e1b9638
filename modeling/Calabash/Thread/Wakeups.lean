import Calabash.Thread.ThreadPool
import Mathlib.Data.Fintype.Basic

/-!
# No wakeup is lost

A worker that blocks has seen an empty queue under the lock. Every task pushed since then
is covered by a producer that has yet to notify, or by a worker that was woken, or had not
blocked in the first place, and has yet to look at the queue. After `stop_` is set no
worker blocks any more, and `notify_all` wakes those that had.
-/

namespace Calabash
namespace ThreadPool

variable {W P T : Type}

/-- Awake, and yet to evaluate the predicate. -/
def WorkerPc.rechecks : WorkerPc T → Bool
  | .locking | .testing | .waking => true
  | _ => false

/-- With a task pushed, and yet to notify. -/
def ProducerPc.owes : ProducerPc T → Bool
  | .pushed _ | .notifying _ => true
  | _ => false

/-- `stop_` is set. -/
def DestructorPc.stops : DestructorPc → Bool
  | .stopped | .notifying | .joining | .done => true
  | _ => false

/-- `notify_all` has happened. -/
def DestructorPc.notified : DestructorPc → Bool
  | .joining | .done => true
  | _ => false

/-- The invariant behind the wakeups. -/
structure Covered [Fintype W] [Fintype P] (s : ThreadPool W P T) : Prop where
  stop_eq : s.stop = s.destructor.stops
  awake : s.destructor.notified = true → ∀ w, s.worker w ≠ .waiting
  covered : (∃ w, s.worker w = .waiting) → s.stop = false →
    s.tasks.length ≤ count WorkerPc.rechecks s.worker + count ProducerPc.owes s.producer

theorem DestructorPc.stops_of_notified {d : DestructorPc} (h : d.notified = true) :
    d.stops = true := by
  cases d with
  | joining | done => rfl
  | notStarted | locking | holding | stopped | notifying => cases h

theorem covered_initial [Fintype W] [Fintype P] : Covered (initial : ThreadPool W P T) where
  stop_eq := rfl
  awake h := by cases h
  covered h := by
    obtain ⟨w, hw⟩ := h
    cases hw

variable [DecidableEq W] [DecidableEq P]

open Function (update)

theorem stop_eq_step {s s' : ThreadPool W P T} {e : Event T}
    (hs : s.stop = s.destructor.stops) (h : Step s e s') : s'.stop = s'.destructor.stops := by
  cases h <;> grind -ring -linarith [DestructorPc.stops]

variable [Fintype W] [Fintype P]

theorem awake_step {s s' : ThreadPool W P T} {e : Event T} (hs : Covered s) (h : Step s e s')
    (hn : s'.destructor.notified = true) (w : W) : s'.worker w ≠ .waiting := by
  have hawake := hs.awake
  cases h with
  | block v hv hns =>
    have hset := hs.stop_eq
    rw [DestructorPc.stops_of_notified hn, hns] at hset
    cases hset
  | notifyAll => exact WorkerPc.woken_ne_waiting _
  | _ => grind -ring -linarith [DestructorPc.notified]

/-- A worker that is blocked after the step was blocked before it, unless the step is its
blocking, on an empty queue. -/
theorem covered_step {s s' : ThreadPool W P T} {e : Event T} (hs : Covered s)
    (h : Step s e s') : (∃ w, s'.worker w = .waiting) → s'.stop = false →
      s'.tasks.length ≤ count WorkerPc.rechecks s'.worker + count ProducerPc.owes s'.producer := by
  rintro ⟨v, hv⟩ hstop
  have hcov : s.worker v = .waiting → s.stop = false →
      s.tasks.length ≤ count WorkerPc.rechecks s.worker + count ProducerPc.owes s.producer := by
    intro hw
    exact hs.covered ⟨v, hw⟩
  cases h with
  | block w hw hns htasks => simp [htasks]
  | notifyAll hd => grind -ring -linarith [DestructorPc.stops, hs.stop_eq]
  | setStop hd => cases hstop
  | _ => grind -ring -linarith [count_update, WorkerPc.rechecks, ProducerPc.owes]

theorem covered_reachable {s : ThreadPool W P T} (h : (system W P T).Reachable s) : Covered s := by
  refine h.invariant ?_ ?_
  · rintro s rfl
    exact covered_initial
  · intro s e s' hs hstep
    exact ⟨stop_eq_step hs.stop_eq hstep, awake_step hs hstep, covered_step hs hstep⟩

/-- No wakeup is lost: while a worker is blocked and `stop_` is not set, the queued tasks
are covered by the awake workers that have yet to look at the queue and the producers that
have yet to notify; and after `notify_all` no worker is blocked. -/
theorem no_lost_wakeup {s : ThreadPool W P T} (h : (system W P T).Reachable s) :
    ((∃ w, s.worker w = .waiting) → s.stop = false →
      s.tasks.length ≤
        (Finset.univ.filter fun w => (s.worker w).rechecks = true).card +
          (Finset.univ.filter fun p => (s.producer p).owes = true).card) ∧
      (s.destructor = .joining ∨ s.destructor = .done → ∀ w, s.worker w ≠ .waiting) := by
  have hs := covered_reachable h
  refine ⟨hs.covered, ?_⟩
  intro hd
  apply hs.awake
  rcases hd with hd | hd <;> rw [hd] <;> rfl

/-- A worker has blocked, and a producer has pushed a task and not notified yet. -/
theorem exists_blocked : ∃ s : ThreadPool Unit Unit ℕ, (system Unit Unit ℕ).Reachable s ∧
    s.worker () = .waiting ∧ s.stop = false ∧ s.tasks = [7] := by
  have hstart : (system Unit Unit ℕ).Trace [] initial := .nil rfl
  have hlock := hstart.snoc (.lock () (.inl rfl) rfl)
  have hblock := hlock.snoc (.block () rfl rfl rfl)
  have hcall := hblock.snoc (.call () 7 rfl)
  have hacquire := hcall.snoc (.acquire () (t := 7) rfl rfl)
  have hpush := hacquire.snoc (.push () (t := 7) rfl rfl)
  exact ⟨_, hpush.reachable, rfl, rfl, rfl⟩

theorem no_lost_wakeup_blocked : ∃ s : ThreadPool Unit Unit ℕ, s.tasks = [7] ∧
    s.tasks.length ≤ (Finset.univ.filter fun w => (s.worker w).rechecks = true).card +
      (Finset.univ.filter fun p => (s.producer p).owes = true).card := by
  obtain ⟨s, hreach, hwait, hstop, htasks⟩ := exists_blocked
  exact ⟨s, htasks, (no_lost_wakeup hreach).1 ⟨(), hwait⟩ hstop⟩

end ThreadPool
end Calabash
