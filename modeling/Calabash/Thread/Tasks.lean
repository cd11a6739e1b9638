import Calabash.Thread.Wakeups
import Mathlib.Algebra.Order.BigOperators.Group.Finset
import Mathlib.Algebra.Group.Action.Defs
import Mathlib.Data.Fintype.Card

/-!
# Every accepted task runs once

The pool simulates the executor, so no task is lost, reordered or run twice. What the
executor does not know is that the pool comes to an end with its tasks: the threads at
work can only take a bounded number of steps before they have nothing left to do, and then
every accepted task has ended, and so it is when the destructor has joined the workers.

## Main results

* `refines` — the pool simulates the executor.
* `bounded` — without new calls and spurious wakeups the threads come to rest.
* `runsEveryTask` — all of it, for every trace.
-/

namespace Calabash
namespace ThreadPool

variable {W P T : Type}

/-! ## The pool as an executor -/

/-- The task a worker has taken out and not yet started. -/
def WorkerPc.inHand : WorkerPc T → Multiset T
  | .unlocking t | .ready t => {t}
  | _ => 0

def WorkerPc.runs : WorkerPc T → Multiset T
  | .running t => {t}
  | _ => 0

@[simp] theorem WorkerPc.inHand_woken (pc : WorkerPc T) : pc.woken.inHand = pc.inHand := by
  cases pc <;> rfl

@[simp] theorem WorkerPc.runs_woken (pc : WorkerPc T) : pc.woken.runs = pc.runs := by
  cases pc <;> rfl

/-- The executor behind the pool. -/
def executor [Fintype W] (s : ThreadPool W P T) : Executor T where
  queue := s.tasks
  inHand := total WorkerPc.inHand s.worker
  running := total WorkerPc.runs s.worker

variable [DecidableEq W] [DecidableEq P]

open Function (update)

section
variable [Fintype W]

/-- A step that shows nothing leaves the executor as it is; the others are its steps. -/
theorem executor_step {s s' : ThreadPool W P T} {e : Event T} (h : Step s e s') :
    (Executor.system T).Run s.executor e.visible s'.executor := by
  cases h with
  | lock w hw =>
    rcases hw with hw | hw
    all_goals
      simp only [executor]
      rw [total_same WorkerPc.inHand hw, total_same WorkerPc.runs hw]
      exacts [.nil _, rfl, rfl]
  | block w hw | leave w hw | unlock w hw | exit w hw | spurious w hw | notifyOne _ w _ hw =>
    simp only [executor]
    rw [total_same WorkerPc.inHand hw, total_same WorkerPc.runs hw]
    exacts [.nil _, rfl, rfl]
  | @take w t rest hw htasks =>
    simp only [executor, htasks]
    rw [total_gain WorkerPc.inHand hw, total_same WorkerPc.runs hw]
    exacts [.snoc (.nil _) (.dequeue _ _ _ _), rfl, rfl, rfl]
  | @start w t hw =>
    have hlose : total WorkerPc.inHand s.worker =
        t ::ₘ total WorkerPc.inHand (update s.worker w (.running t)) :=
      total_lose WorkerPc.inHand hw rfl rfl
    simp only [executor]
    rw [hlose, total_gain WorkerPc.runs hw]
    exacts [.snoc (.nil _) (.start _ _ _ _), rfl, rfl]
  | @finish w t how hw =>
    have hlose : total WorkerPc.runs s.worker =
        t ::ₘ total WorkerPc.runs (update s.worker w .locking) :=
      total_lose WorkerPc.runs hw rfl rfl
    simp only [executor]
    rw [hlose, total_same WorkerPc.inHand hw]
    exacts [.snoc (.nil _) (.finish _ _ _ _), rfl]
  | push p hp => exact .snoc (.nil _) (.accept _ _ _ _)
  | notifyAll hd =>
    simp only [executor, total, WorkerPc.inHand_woken, WorkerPc.runs_woken]
    exact .nil _
  | call p | acquire p | reject p | release p | unwind p | notifyNone p | destroy | seize
  | setStop | letGo | join => exact .nil _

/-- The pool simulates the executor. -/
def refines : System.Simulation (system W P T) (Executor.system T) where
  abs := executor
  label := Event.visible
  init := by
    rintro s rfl
    have hhand : total WorkerPc.inHand (initial : ThreadPool W P T).worker = 0 :=
      total_eq_zero fun _ => rfl
    have hrun : total WorkerPc.runs (initial : ThreadPool W P T).worker = 0 :=
      total_eq_zero fun _ => rfl
    simp only [executor, hhand, hrun]
    rfl
  step _ _ _ _ h := executor_step h

end

/-! ## Calls -/

/-- The task of an `Enqueue` that has not looked at `stop_` yet. -/
def ProducerPc.asks : ProducerPc T → Multiset T
  | .locking t | .holding t => {t}
  | _ => 0

/-- The task of an `Enqueue` that has pushed it and not returned yet. -/
def ProducerPc.owed : ProducerPc T → Multiset T
  | .pushed t | .notifying t => {t}
  | _ => 0

/-- The task of a call; likewise for the others. -/
def Event.calls : Event T → List T
  | .call t => [t]
  | _ => []

def Event.pushes : Event T → List T
  | .push t => [t]
  | _ => []

def Event.dequeues : Event T → List T
  | .dequeue t => [t]
  | _ => []

def Event.starts : Event T → List T
  | .start t => [t]
  | _ => []

def Event.finishes : Event T → List T
  | .finish t _ => [t]
  | _ => []

def Event.rejects : Event T → List T
  | .reject t => [t]
  | _ => []

def Event.returns : Event T → List T
  | .returned t => [t]
  | _ => []

section
variable [Fintype P]

/-- A call was accepted or rejected, or has yet to look at `stop_`. -/
theorem calls_eq {tr : List (Event T)} {s : ThreadPool W P T} (h : (system W P T).Trace tr s) :
    (tr.flatMap Event.calls : Multiset T) =
      tr.flatMap (fun e => e.pushes ++ e.rejects) + total ProducerPc.asks s.producer := by
  refine h.balance (fun s => total ProducerPc.asks s.producer) _ _ ?_ ?_
  · rintro s rfl
    exact total_eq_zero fun _ => rfl
  · intro s e s' hstep
    cases hstep with
    | call p t hp =>
      have hsum := total_update ProducerPc.asks s.producer p (.locking t)
      rw [hp] at hsum
      exact hsum
    | @push p t hp =>
      have hsum := total_update ProducerPc.asks s.producer p (.pushed t)
      rw [hp] at hsum
      exact hsum
    | @reject p t hp =>
      have hsum := total_update ProducerPc.asks s.producer p .throwing
      rw [hp] at hsum
      exact hsum
    | acquire p hp | release p hp | unwind p hp | notifyOne p _ hp | notifyNone p hp =>
      rw [total_same ProducerPc.asks hp]
      exacts [rfl, rfl]
    | _ => rfl

/-- A call was accepted or rejected, or is under way. -/
theorem called {tr : List (Event T)} {s : ThreadPool W P T} (h : (system W P T).Trace tr s) :
    (tr.flatMap Event.calls : Multiset T) =
      tr.flatMap Event.pushes + tr.flatMap Event.rejects + total ProducerPc.asks s.producer := by
  have hsplit := Multiset.coe_eq_coe.mpr
    (List.flatMap_append_perm tr Event.pushes Event.rejects)
  rw [calls_eq h, ← hsplit, Multiset.coe_add]

/-- An accepted task's call has returned, or has yet to notify. -/
theorem pushes_eq {tr : List (Event T)} {s : ThreadPool W P T} (h : (system W P T).Trace tr s) :
    (tr.flatMap Event.pushes : Multiset T) =
      tr.flatMap Event.returns + total ProducerPc.owed s.producer := by
  refine h.balance (fun s => total ProducerPc.owed s.producer) _ _ ?_ ?_
  · rintro s rfl
    exact total_eq_zero fun _ => rfl
  · intro s e s' hstep
    cases hstep with
    | @push p t hp =>
      have hsum := total_update ProducerPc.owed s.producer p (.pushed t)
      rw [hp] at hsum
      exact hsum
    | @notifyOne p t _ hp | @notifyNone p t hp =>
      have hsum := total_update ProducerPc.owed s.producer p .idle
      rw [hp] at hsum
      exact hsum
    | call p t hp | acquire p hp | reject p hp | release p hp | unwind p hp =>
      rw [total_same ProducerPc.owed hp]
      exacts [rfl, rfl]
    | _ => rfl

end

/-! ## Shutdown -/

/-- A worker on its way out. -/
def WorkerPc.gone : WorkerPc T → Bool
  | .leaving | .exited => true
  | _ => false

@[simp] theorem WorkerPc.gone_woken (pc : WorkerPc T) : pc.woken.gone = pc.gone := by
  cases pc <;> rfl

/-- Workers leave only a stopped pool with an empty queue, which stays that way. -/
def LeavesEmpty (s : ThreadPool W P T) : Prop :=
  (∀ w, (s.worker w).gone = true → s.stop = true ∧ s.tasks = []) ∧
    (s.destructor = .done → ∀ w, s.worker w = .exited)

theorem leavesEmpty_step {s s' : ThreadPool W P T} {e : Event T} (hs : LeavesEmpty s)
    (h : Step s e s') : LeavesEmpty s' := by
  obtain ⟨hgone, hdone⟩ := hs
  refine ⟨?_, ?_⟩
  · intro w
    have hw := hgone w
    cases h <;> grind -ring -linarith [WorkerPc.gone, WorkerPc.gone_woken]
  · intro hd w
    cases h <;> grind -ring -linarith [WorkerPc.woken]

theorem leavesEmpty_reachable {s : ThreadPool W P T} (h : (system W P T).Reachable s) :
    LeavesEmpty s := by
  refine h.invariant (P := LeavesEmpty) ?_ ?_
  · rintro s rfl
    refine ⟨?_, ?_⟩
    · intro w hw
      cases hw
    · intro hd
      cases hd
  · intro s e s' hs hstep
    exact leavesEmpty_step hs hstep

/-! ## Coming to rest -/

/-- A bound on the steps a worker can take before it blocks or leaves. -/
def WorkerPc.work : WorkerPc T → ℕ
  | .waiting | .exited => 0
  | .leaving => 1
  | .testing => 2
  | .locking | .waking => 3
  | .running _ => 4
  | .ready _ => 5
  | .unlocking _ => 6

/-- The same for a call, with what its task and its notification make others do. -/
def ProducerPc.work : ProducerPc T → ℕ
  | .idle => 0
  | .throwing => 1
  | .notifying _ => 4
  | .pushed _ => 5
  | .holding _ => 11
  | .locking _ => 12

/-- The same for the destructor of a pool with `n` workers. -/
def DestructorPc.work (n : ℕ) : DestructorPc → ℕ
  | .notStarted | .done => 0
  | .joining => 1
  | .notifying => 3 * n + 2
  | .stopped => 3 * n + 3
  | .holding => 3 * n + 4
  | .locking => 3 * n + 5

/-- A bound on the steps the threads at work can take. -/
def work [Fintype W] [Fintype P] (s : ThreadPool W P T) : ℕ :=
  5 * s.tasks.length + total WorkerPc.work s.worker + total ProducerPc.work s.producer +
    s.destructor.work (Fintype.card W)

theorem total_work_woken {ι : Type} [Fintype ι] (f : ι → WorkerPc T) :
    total WorkerPc.work (fun w => (f w).woken) ≤ total WorkerPc.work f + 3 * Fintype.card ι := by
  have hone : ∀ w, (f w).woken.work ≤ (f w).work + 3 := by
    intro w
    cases f w <;> simp [WorkerPc.woken, WorkerPc.work]
  have hsum := Finset.sum_le_sum fun w (_ : w ∈ Finset.univ) => hone w
  rw [Finset.sum_add_distrib, Finset.sum_const, Finset.card_univ, smul_eq_mul, mul_comm] at hsum
  exact hsum

/-- The steps of the threads at work: no new calls, no spurious wakeups. -/
def atWork (W P T : Type) [DecidableEq W] [DecidableEq P] :
    System (ThreadPool W P T) (Event T) where
  init _ := True
  step s e s' := Step s e s' ∧ e.external = false

theorem work_step [Fintype W] [Fintype P] {s s' : ThreadPool W P T} {e : Event T}
    (h : Step s e s') (he : e.external = false) : s'.work + 1 ≤ s.work := by
  have hwoken := total_work_woken s.worker
  cases h with
  | spurious w hw => cases he
  | call p t => cases he
  | destroy => cases he
  | lock w hw => grind -ring -linarith [work, total_update, WorkerPc.work]
  | block w hw | take w hw htasks | leave w hw | unlock w hw | start w hw | finish w _ hw
  | exit w hw => grind -ring -linarith [work, total_update, WorkerPc.work]
  | acquire p hp | push p hp | reject p hp | release p hp | unwind p hp | notifyNone p hp =>
    grind -ring -linarith [work, total_update, ProducerPc.work]
  | notifyOne p w hp hw =>
    grind -ring -linarith [work, total_update, WorkerPc.work, ProducerPc.work]
  | seize hd | setStop hd | letGo hd | notifyAll hd | join hd =>
    grind -ring -linarith [work, DestructorPc.work]

/-- No thread at work can take a step. -/
def AtRest (s : ThreadPool W P T) : Prop := ∀ e s', Step s e s' → e.external = true

/-- From a state in which someone can be named who could go on, the pool is not at rest. -/
theorem AtRest.no_step {s s' : ThreadPool W P T} {e : Event T} (h : AtRest s) (hstep : Step s e s')
    (he : e.external = false) : False := by
  rw [h e s' hstep] at he
  cases he

/-- At rest nobody holds the mutex. -/
theorem AtRest.owner {s : ThreadPool W P T} (h : AtRest s) (hx : Exclusive s) : s.owner = none := by
  cases howner : s.owner with
  | none => rfl
  | some x =>
    exfalso
    have hin := (hx x).mpr howner
    cases x with
    | worker w =>
      cases hw : s.worker w with
      | testing =>
        cases htasks : s.tasks with
        | cons t rest => exact h.no_step (.take w hw htasks) rfl
        | nil =>
          cases hstop : s.stop with
          | true => exact h.no_step (.leave w hw hstop htasks) rfl
          | false => exact h.no_step (.block w hw hstop htasks) rfl
      | unlocking t => exact h.no_step (.unlock w hw) rfl
      | leaving => exact h.no_step (.exit w hw) rfl
      | _ => simp [Holds, hw, WorkerPc.inside] at hin
    | producer p =>
      cases hp : s.producer p with
      | holding t =>
        cases hstop : s.stop with
        | true => exact h.no_step (.reject p hp hstop) rfl
        | false => exact h.no_step (.push p hp hstop) rfl
      | pushed t => exact h.no_step (.release p hp) rfl
      | throwing => exact h.no_step (.unwind p hp) rfl
      | _ => simp [Holds, hp, ProducerPc.inside] at hin
    | destructor =>
      cases hd : s.destructor with
      | holding => exact h.no_step (.setStop hd) rfl
      | stopped => exact h.no_step (.letGo hd) rfl
      | _ => simp [Holds, hd, DestructorPc.inside] at hin

/-- At rest every worker is blocked or gone. -/
theorem AtRest.worker {s : ThreadPool W P T} (h : AtRest s) (hx : Exclusive s) (w : W) :
    s.worker w = .waiting ∨ s.worker w = .exited := by
  have howner := h.owner hx
  cases hw : s.worker w with
  | waiting => exact .inl rfl
  | exited => exact .inr rfl
  | locking => exact (h.no_step (.lock w (.inl hw) howner) rfl).elim
  | waking => exact (h.no_step (.lock w (.inr hw) howner) rfl).elim
  | ready t => exact (h.no_step (.start w hw) rfl).elim
  | running t => exact (h.no_step (.finish w .returned hw) rfl).elim
  | testing | unlocking | leaving =>
    have hin := (hx (.worker w)).mp (by simp [Holds, hw, WorkerPc.inside])
    rw [howner] at hin
    cases hin

/-- At rest no call is under way. -/
theorem AtRest.producer {s : ThreadPool W P T} (h : AtRest s) (hx : Exclusive s) (p : P) :
    s.producer p = .idle := by
  have howner := h.owner hx
  cases hp : s.producer p with
  | idle => rfl
  | locking t => exact (h.no_step (.acquire p hp howner) rfl).elim
  | notifying t =>
    by_cases hw : ∃ w, s.worker w = .waiting
    · obtain ⟨w, hw⟩ := hw
      exact (h.no_step (.notifyOne p w hp hw) rfl).elim
    · exact (h.no_step (.notifyNone p hp (by simpa using hw)) rfl).elim
  | holding | pushed | throwing =>
    have hin := (hx (.producer p)).mp (by simp [Holds, hp, ProducerPc.inside])
    rw [howner] at hin
    cases hin

/-- At rest the destructor has not been called, or is done. -/
theorem AtRest.destructor [Fintype W] [Fintype P] {s : ThreadPool W P T} (h : AtRest s)
    (hx : Exclusive s) (hs : Covered s) : s.destructor = .notStarted ∨ s.destructor = .done := by
  have howner := h.owner hx
  cases hd : s.destructor with
  | notStarted => exact .inl rfl
  | done => exact .inr rfl
  | locking => exact (h.no_step (.seize hd howner) rfl).elim
  | holding => exact (h.no_step (.setStop hd) rfl).elim
  | stopped => exact (h.no_step (.letGo hd) rfl).elim
  | notifying => exact (h.no_step (.notifyAll hd) rfl).elim
  | joining =>
    refine (h.no_step (.join hd fun w => ?_) rfl).elim
    exact (h.worker hx w).resolve_left (hs.awake (by rw [hd]; rfl) w)

/-- At rest the queue is empty. -/
theorem AtRest.tasks [Fintype W] [Fintype P] [Nonempty W] {s : ThreadPool W P T} (h : AtRest s)
    (hx : Exclusive s) (hs : Covered s) (hl : LeavesEmpty s) : s.tasks = [] := by
  obtain ⟨w⟩ := ‹Nonempty W›
  rcases h.worker hx w with hw | hw
  · have hns : s.stop = false := by
      rw [hs.stop_eq]
      rcases h.destructor hx hs with hd | hd
      · rw [hd]
        rfl
      · exact absurd hw (hs.awake (by rw [hd]; rfl) w)
    have hle := hs.covered ⟨w, hw⟩ hns
    have hworkers : count WorkerPc.rechecks s.worker = 0 := by
      rw [count_eq_total]
      apply total_eq_zero
      intro v
      rcases h.worker hx v with hv | hv <;> rw [hv] <;> rfl
    have hproducers : count ProducerPc.owes s.producer = 0 := by
      rw [count_eq_total]
      apply total_eq_zero
      intro p
      rw [h.producer hx p]
      rfl
    rw [hworkers, hproducers] at hle
    exact List.length_eq_zero_iff.mp (by omega)
  · exact (hl.1 w (by rw [hw]; rfl)).2

/-- What a pool with a trace `tr` behind it has made of its tasks. -/
structure RunsEveryTask [Fintype W] [Fintype P] (tr : List (Event T)) (s : ThreadPool W P T) :
    Prop where
  /-- Tasks are dequeued in the order in which they were queued. -/
  order : tr.flatMap Event.pushes = tr.flatMap Event.dequeues ++ s.tasks
  /-- A dequeued task was started, or is in the hands of a worker. -/
  taken : (tr.flatMap Event.dequeues : Multiset T) =
    tr.flatMap Event.starts + total WorkerPc.inHand s.worker
  /-- A started task has returned or thrown, or is running. -/
  begun : (tr.flatMap Event.starts : Multiset T) =
    tr.flatMap Event.finishes + total WorkerPc.runs s.worker
  /-- A call was accepted or rejected, or is under way. -/
  called : (tr.flatMap Event.calls : Multiset T) =
    tr.flatMap Event.pushes + tr.flatMap Event.rejects + total ProducerPc.asks s.producer
  /-- An accepted call has returned, or is under way. -/
  returned : (tr.flatMap Event.pushes : Multiset T) =
    tr.flatMap Event.returns + total ProducerPc.owed s.producer
  /-- A rejected call leaves the queue unchanged. -/
  rejecting : ∀ t s', Step s (.reject t) s' → s'.tasks = s.tasks
  /-- Of different tasks, none is started twice, and none of the rejected ones is. -/
  once : (tr.flatMap Event.calls).Nodup → (tr.flatMap Event.starts).Nodup ∧
    ∀ t ∈ tr.flatMap Event.rejects, t ∉ tr.flatMap Event.pushes ∧ t ∉ tr.flatMap Event.starts
  /-- The threads at work come to rest. -/
  bounded : ∀ more s', (atWork W P T).Run s more s' → more.length ≤ s.work
  /-- At rest every accepted task has been started and has ended, and its call returned. -/
  rest : AtRest s → s.tasks = [] ∧ (tr.flatMap Event.starts).Perm (tr.flatMap Event.pushes) ∧
    (tr.flatMap Event.finishes).Perm (tr.flatMap Event.pushes) ∧
    (tr.flatMap Event.returns).Perm (tr.flatMap Event.pushes)
  /-- When the destructor has joined the workers every accepted task has ended. -/
  joined : s.destructor = .done → s.tasks = [] ∧
    (tr.flatMap Event.starts).Perm (tr.flatMap Event.pushes) ∧
    (tr.flatMap Event.finishes).Perm (tr.flatMap Event.pushes)

section
variable [Fintype W] {tr : List (Event T)} {s : ThreadPool W P T}

/-- The executor's account, in terms of the pool. -/
theorem accounts (h : (system W P T).Trace tr s) :
    tr.flatMap Event.pushes = tr.flatMap Event.dequeues ++ s.tasks ∧
      (tr.flatMap Event.dequeues : Multiset T) =
        tr.flatMap Event.starts + total WorkerPc.inHand s.worker ∧
      (tr.flatMap Event.starts : Multiset T) =
        tr.flatMap Event.finishes + total WorkerPc.runs s.worker := by
  have hacc := Executor.accounts (refines.trace h)
  have hpush : ∀ e : Event T, e.visible.flatMap Executor.Action.accepts = e.pushes := by
    intro e
    cases e <;> rfl
  have hdequeue : ∀ e : Event T, e.visible.flatMap Executor.Action.dequeues = e.dequeues := by
    intro e
    cases e <;> rfl
  have hstart : ∀ e : Event T, e.visible.flatMap Executor.Action.starts = e.starts := by
    intro e
    cases e <;> rfl
  have hfinish : ∀ e : Event T, e.visible.flatMap Executor.Action.finishes = e.finishes := by
    intro e
    cases e <;> rfl
  have horder := hacc.order
  have htaken := hacc.taken
  have hbegun := hacc.begun
  simp only [refines, List.flatMap_assoc, hpush, hdequeue, hstart, hfinish] at horder htaken hbegun
  exact ⟨horder, htaken, hbegun⟩

/-- With an empty queue, and no worker with a task, every accepted task has ended. -/
theorem all_ended (h : (system W P T).Trace tr s) (htasks : s.tasks = [])
    (hworker : ∀ w, s.worker w = .waiting ∨ s.worker w = .exited) :
    (tr.flatMap Event.starts).Perm (tr.flatMap Event.pushes) ∧
      (tr.flatMap Event.finishes).Perm (tr.flatMap Event.pushes) := by
  obtain ⟨horder, htaken, hbegun⟩ := accounts h
  have hhand : total WorkerPc.inHand s.worker = 0 := by
    apply total_eq_zero
    intro w
    rcases hworker w with hw | hw <;> rw [hw] <;> rfl
  have hrun : total WorkerPc.runs s.worker = 0 := by
    apply total_eq_zero
    intro w
    rcases hworker w with hw | hw <;> rw [hw] <;> rfl
  rw [htasks, List.append_nil] at horder
  rw [hhand, add_zero, ← horder, Multiset.coe_eq_coe] at htaken
  rw [hrun, add_zero, Multiset.coe_eq_coe] at hbegun
  exact ⟨htaken.symm, hbegun.symm.trans htaken.symm⟩

/-- The pool runs every accepted task exactly once. -/
theorem runsEveryTask [Fintype P] [Nonempty W] (h : (system W P T).Trace tr s) :
    RunsEveryTask tr s := by
  have hx := exclusive_reachable h.reachable
  have hcov := covered_reachable h.reachable
  have hleave := leavesEmpty_reachable h.reachable
  obtain ⟨horder, htaken, hbegun⟩ := accounts h
  refine ⟨horder, htaken, hbegun, called h, pushes_eq h, ?_, ?_, ?_, ?_, ?_⟩
  · intro t s' hstep
    cases hstep
    rfl
  · intro hnodup
    have hcall := called h
    have hsub : (tr.flatMap Event.starts : Multiset T) ≤ tr.flatMap Event.pushes := by
      rw [horder, ← Multiset.coe_add, htaken, add_assoc]
      exact Multiset.le_add_right _ _
    have hall : ((tr.flatMap Event.pushes : Multiset T) + tr.flatMap Event.rejects).Nodup := by
      apply Multiset.nodup_of_le _ (Multiset.coe_nodup.mpr hnodup)
      rw [hcall]
      exact Multiset.le_add_right _ _
    rw [Multiset.nodup_add] at hall
    obtain ⟨hpush, -, hdisj⟩ := hall
    refine ⟨Multiset.coe_nodup.mp (Multiset.nodup_of_le hsub hpush), ?_⟩
    intro t ht
    have hnot : t ∉ tr.flatMap Event.pushes := by
      intro hp
      exact Multiset.disjoint_left.mp hdisj (Multiset.mem_coe.mpr hp) (Multiset.mem_coe.mpr ht)
    refine ⟨hnot, ?_⟩
    intro hst
    exact hnot (Multiset.mem_coe.mp (Multiset.mem_of_le hsub (Multiset.mem_coe.mpr hst)))
  · intro more s' hrun
    have hlower : ∀ s e (s' : ThreadPool W P T), True → (atWork W P T).step s e s' →
        s'.work + 1 ≤ s.work := by
      intro s e s' _ hstep
      exact work_step hstep.1 hstep.2
    have hbound := (hrun.length_add_le (fun _ _ _ _ _ => trivial) hlower trivial).2
    omega
  · intro hrest
    have htasks := hrest.tasks hx hcov hleave
    obtain ⟨hstart, hfinish⟩ := all_ended h htasks (hrest.worker hx)
    have hreturn := pushes_eq h
    have howed : total ProducerPc.owed s.producer = 0 := by
      apply total_eq_zero
      intro p
      rw [hrest.producer hx p]
      rfl
    rw [howed, add_zero, Multiset.coe_eq_coe] at hreturn
    exact ⟨htasks, hstart, hfinish, hreturn.symm⟩
  · intro hd
    have hexit := hleave.2 hd
    obtain ⟨w⟩ := ‹Nonempty W›
    have htasks := (hleave.1 w (by rw [hexit w]; rfl)).2
    obtain ⟨hstart, hfinish⟩ := all_ended h htasks fun w => .inr (hexit w)
    exact ⟨htasks, hstart, hfinish⟩

/-- A call, and a destructor that stops the pool while the one worker runs the task. -/
theorem exists_joined : ∃ (tr : List (Event ℕ)) (s : ThreadPool Unit Unit ℕ),
    (system Unit Unit ℕ).Trace tr s ∧ tr.flatMap Event.calls = [7] ∧
      tr.flatMap Event.finishes = [7] ∧ s.destructor = .done := by
  have hstart : (system Unit Unit ℕ).Trace [] initial := .nil rfl
  have hcall := hstart.snoc (.call () 7 rfl)
  have hacquire := hcall.snoc (.acquire () (t := 7) rfl rfl)
  have hpush := hacquire.snoc (.push () (t := 7) rfl rfl)
  have hrelease := hpush.snoc (.release () (t := 7) rfl)
  have hreturn := hrelease.snoc (.notifyNone () (t := 7) rfl (by simp [initial]))
  have hlock := hreturn.snoc (.lock () (.inl rfl) rfl)
  have htake := hlock.snoc (.take () (t := 7) rfl rfl)
  have hunlock := htake.snoc (.unlock () (t := 7) rfl)
  have hbegin := hunlock.snoc (.start () (t := 7) rfl)
  have hdestroy := hbegin.snoc (.destroy rfl)
  have hseize := hdestroy.snoc (.seize rfl rfl)
  have hstop := hseize.snoc (.setStop rfl)
  have hletGo := hstop.snoc (.letGo rfl)
  have hnotify := hletGo.snoc (.notifyAll rfl)
  have hfinish := hnotify.snoc (.finish () (t := 7) .returned rfl)
  have hagain := hfinish.snoc (.lock () (.inl rfl) rfl)
  have hleave := hagain.snoc (.leave () rfl rfl rfl)
  have hexit := hleave.snoc (.exit () rfl)
  have hjoin := hexit.snoc (.join rfl fun _ => rfl)
  exact ⟨_, _, hjoin, rfl, rfl, rfl⟩

theorem runsEveryTask_joined : ∃ (tr : List (Event ℕ)) (s : ThreadPool Unit Unit ℕ),
    tr.flatMap Event.calls = [7] ∧ tr.flatMap Event.finishes = [7] ∧ s.destructor = .done ∧
      RunsEveryTask tr s := by
  obtain ⟨tr, s, htrace, hcalls, hfinishes, hdone⟩ := exists_joined
  exact ⟨tr, s, hcalls, hfinishes, hdone, runsEveryTask htrace⟩

end

end ThreadPool
end Calabash
