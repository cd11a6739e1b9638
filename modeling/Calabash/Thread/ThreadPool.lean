import Calabash.Thread.Executor

/-!
# `ThreadPool`

The worker loop, `Enqueue` and the destructor, with the mutex and the condition variable
explicit. A step is what one thread does between two points where another can come in: a
lock taken or released, a wait entered or left, a notification, a task begun or ended, and,
inside a critical section, the part that reads and writes the queue and `stop_`.

`condition_.wait(lock, pred)` evaluates its predicate under the lock and blocks, in one
step, when it is false; a woken worker has to take the lock and evaluate it again. A task
that throws ends like one that returns, since `packaged_task` keeps the exception.
-/

namespace Calabash

/-- How a task ends. -/
inductive Outcome
  | returned
  | threw
  deriving DecidableEq, Repr

namespace ThreadPool

/-- Where a worker is in its loop. -/
inductive WorkerPc (T : Type)
  /-- In front of `unique_lock`. -/
  | locking
  /-- With the lock, about to evaluate the predicate. -/
  | testing
  /-- Blocked in `wait`, without the lock. -/
  | waiting
  /-- Woken, and about to take the lock again. -/
  | waking
  /-- With the lock and a task. -/
  | unlocking (t : T)
  /-- About to call `task()`. -/
  | ready (t : T)
  | running (t : T)
  /-- With the lock, about to return. -/
  | leaving
  | exited

/-- What `notify_all` makes of a worker. -/
def WorkerPc.woken {T : Type} : WorkerPc T → WorkerPc T
  | .waiting => .waking
  | pc => pc

theorem WorkerPc.woken_ne_waiting {T : Type} (pc : WorkerPc T) : pc.woken ≠ .waiting := by
  cases pc <;> simp [woken]

/-- Where a producer is in `Enqueue`. -/
inductive ProducerPc (T : Type)
  /-- Not in `Enqueue`. -/
  | idle
  /-- In front of `unique_lock`. -/
  | locking (t : T)
  /-- With the lock, about to look at `stop_`. -/
  | holding (t : T)
  /-- With the lock, the task queued. -/
  | pushed (t : T)
  /-- With the lock, an exception under way. -/
  | throwing
  /-- In front of `notify_one`, without the lock. -/
  | notifying (t : T)

/-- Where the destructor is. -/
inductive DestructorPc
  | notStarted
  | locking
  | holding
  /-- With the lock, `stop_` set. -/
  | stopped
  /-- In front of `notify_all`, without the lock. -/
  | notifying
  | joining
  | done
  deriving DecidableEq, Repr

/-- The threads that take the mutex. -/
inductive Thread (W P : Type)
  | worker (w : W)
  | producer (p : P)
  | destructor

end ThreadPool

/-- The pool, and where each of its threads is. -/
structure ThreadPool (W P T : Type) where
  stop : Bool
  tasks : List T
  owner : Option (ThreadPool.Thread W P)
  worker : W → ThreadPool.WorkerPc T
  producer : P → ThreadPool.ProducerPc T
  destructor : ThreadPool.DestructorPc

namespace ThreadPool

/-- What a step does that matters to the tasks, or who decides on it. -/
inductive Event (T : Type)
  /-- `Enqueue` is called. -/
  | call (t : T)
  | push (t : T)
  /-- `Enqueue` throws. -/
  | reject (t : T)
  /-- `Enqueue` notifies and returns. -/
  | returned (t : T)
  | dequeue (t : T)
  | start (t : T)
  | finish (t : T) (how : Outcome)
  /-- A blocked worker wakes without a notification. -/
  | spurious
  /-- The destructor is called. -/
  | destroy
  | silent

/-- An event that no thread already at work brings about. -/
def Event.external {T : Type} : Event T → Bool
  | .call _ | .spurious | .destroy => true
  | _ => false

/-- What the event does to the tasks. -/
def Event.visible {T : Type} : Event T → List (Executor.Action T)
  | .push t => [.accept t]
  | .dequeue t => [.dequeue t]
  | .start t => [.start t]
  | .finish t _ => [.finish t]
  | _ => []

variable {W P T : Type} [DecidableEq W] [DecidableEq P]

open Function (update)

/-- One step of one thread. -/
inductive Step (s : ThreadPool W P T) : Event T → ThreadPool W P T → Prop
  -- the worker loop
  | lock (w : W) : s.worker w = .locking ∨ s.worker w = .waking →
      s.owner = none →
      Step s .silent { s with owner := some (.worker w), worker := update s.worker w .testing }
  | block (w : W) : s.worker w = .testing → s.stop = false → s.tasks = [] →
      Step s .silent { s with owner := none, worker := update s.worker w .waiting }
  | take (w : W) {t : T} {rest : List T} : s.worker w = .testing →
      s.tasks = t :: rest →
      Step s (.dequeue t) { s with tasks := rest, worker := update s.worker w (.unlocking t) }
  | leave (w : W) : s.worker w = .testing → s.stop = true → s.tasks = [] →
      Step s .silent { s with worker := update s.worker w .leaving }
  | unlock (w : W) {t : T} : s.worker w = .unlocking t →
      Step s .silent { s with owner := none, worker := update s.worker w (.ready t) }
  | start (w : W) {t : T} : s.worker w = .ready t →
      Step s (.start t) { s with worker := update s.worker w (.running t) }
  | finish (w : W) {t : T} (how : Outcome) : s.worker w = .running t →
      Step s (.finish t how) { s with worker := update s.worker w .locking }
  | exit (w : W) : s.worker w = .leaving →
      Step s .silent { s with owner := none, worker := update s.worker w .exited }
  | spurious (w : W) : s.worker w = .waiting →
      Step s .spurious { s with worker := update s.worker w .waking }
  -- `Enqueue`
  | call (p : P) (t : T) : s.producer p = .idle →
      Step s (.call t) { s with producer := update s.producer p (.locking t) }
  | acquire (p : P) {t : T} : s.producer p = .locking t → s.owner = none →
      Step s .silent
        { s with owner := some (.producer p), producer := update s.producer p (.holding t) }
  | push (p : P) {t : T} : s.producer p = .holding t → s.stop = false →
      Step s (.push t)
        { s with tasks := s.tasks ++ [t], producer := update s.producer p (.pushed t) }
  | reject (p : P) {t : T} : s.producer p = .holding t → s.stop = true →
      Step s (.reject t) { s with producer := update s.producer p .throwing }
  | release (p : P) {t : T} : s.producer p = .pushed t →
      Step s .silent
        { s with owner := none, producer := update s.producer p (.notifying t) }
  | unwind (p : P) : s.producer p = .throwing →
      Step s .silent { s with owner := none, producer := update s.producer p .idle }
  | notifyOne (p : P) {t : T} (w : W) : s.producer p = .notifying t →
      s.worker w = .waiting →
      Step s (.returned t)
        { s with producer := update s.producer p .idle, worker := update s.worker w .waking }
  | notifyNone (p : P) {t : T} : s.producer p = .notifying t →
      (∀ w, s.worker w ≠ .waiting) →
      Step s (.returned t) { s with producer := update s.producer p .idle }
  -- the destructor
  | destroy : s.destructor = .notStarted →
      Step s .destroy { s with destructor := .locking }
  | seize : s.destructor = .locking → s.owner = none →
      Step s .silent { s with owner := some .destructor, destructor := .holding }
  | setStop : s.destructor = .holding →
      Step s .silent { s with stop := true, destructor := .stopped }
  | letGo : s.destructor = .stopped →
      Step s .silent { s with owner := none, destructor := .notifying }
  | notifyAll : s.destructor = .notifying →
      Step s .silent
        { s with worker := fun w => (s.worker w).woken, destructor := .joining }
  | join : s.destructor = .joining → (∀ w, s.worker w = .exited) →
      Step s .silent { s with destructor := .done }

/-- The pool when its workers have been launched. -/
def initial : ThreadPool W P T where
  stop := false
  tasks := []
  owner := none
  worker _ := .locking
  producer _ := .idle
  destructor := .notStarted

/-- The thread pool as a transition system. -/
def system (W P T : Type) [DecidableEq W] [DecidableEq P] :
    System (ThreadPool W P T) (Event T) where
  init s := s = initial
  step := Step

/-! ## The mutex -/

/-- Inside a critical section. -/
def WorkerPc.inside : WorkerPc T → Bool
  | .testing | .unlocking _ | .leaving => true
  | _ => false

def ProducerPc.inside : ProducerPc T → Bool
  | .holding _ | .pushed _ | .throwing => true
  | _ => false

def DestructorPc.inside : DestructorPc → Bool
  | .holding | .stopped => true
  | _ => false

@[simp] theorem WorkerPc.inside_woken (pc : WorkerPc T) : pc.woken.inside = pc.inside := by
  cases pc <;> rfl

/-- The thread is inside a critical section. -/
def Holds (s : ThreadPool W P T) : Thread W P → Bool
  | .worker w => (s.worker w).inside
  | .producer p => (s.producer p).inside
  | .destructor => s.destructor.inside

/-- Exactly the owner of the mutex is inside a critical section. -/
def Exclusive (s : ThreadPool W P T) : Prop := ∀ x, s.Holds x = true ↔ s.owner = some x

theorem exclusive_step {s s' : ThreadPool W P T} {e : Event T} (hs : Exclusive s)
    (h : Step s e s') : Exclusive s' := by
  intro x
  have hx := hs x
  cases h with
  | lock w | block w | take w | leave w | unlock w | start w | finish w | exit w | spurious w =>
    have hw := hs (.worker w)
    cases x <;> grind [Holds, WorkerPc.inside, ProducerPc.inside, DestructorPc.inside]
  | call p | acquire p | push p | reject p | release p | unwind p | notifyOne p | notifyNone p =>
    have hp := hs (.producer p)
    cases x <;> grind [Holds, WorkerPc.inside, ProducerPc.inside, DestructorPc.inside]
  | destroy | seize | setStop | letGo | notifyAll | join =>
    have hd := hs .destructor
    cases x <;> grind [Holds, WorkerPc.inside_woken, ProducerPc.inside, DestructorPc.inside]

theorem exclusive_reachable {s : ThreadPool W P T} (h : (system W P T).Reachable s) :
    Exclusive s := by
  refine h.invariant (P := Exclusive) ?_ ?_
  · rintro s rfl x
    cases x <;> simp [Holds, initial, WorkerPc.inside, ProducerPc.inside, DestructorPc.inside]
  · intro s e s' hs hstep
    exact exclusive_step hs hstep

end ThreadPool
end Calabash
