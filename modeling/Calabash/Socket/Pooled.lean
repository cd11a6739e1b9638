import Calabash.Socket.Benign
import Calabash.Thread.Tasks

/-!
# The event loop on its thread pool

`EventLoop` has a queue and workers that take tasks out of it in one step. Here the queue is the
`ThreadPool` that the handler was given, with its mutex and its condition variable: the thread of
the event loop is the one that calls `Enqueue`, and a task runs on a worker between the two points
where the pool starts it and has it finished. `Stop` is not part of it.

## Main results

* `view_step`, `pool_step` — a step is one of the event loop with its queue, or of the pool, or of
  both.
* `refines` — what this makes of a run.
-/

namespace Calabash

/-- The handler, where the event loop is, the pool, and where each worker is in the task that it
runs. -/
structure Pooled (W S : Type) where
  handler : SocketHandler S
  loop : EventLoop.LoopPc S
  pool : ThreadPool W Unit S
  task : W → EventLoop.WorkerPc S

namespace Pooled
variable {W S : Type}

/-- Who takes a step: the loop or a task, or what happens in the pool. -/
inductive Label (S : Type)
  | loop
  | task
  | pool (e : ThreadPool.Event S)

/-- An event of the pool that is no step of the loop or of a task. -/
def within : ThreadPool.Event S → Bool
  | .push _ | .reject _ | .dequeue _ | .spurious | .silent => true
  | _ => false

/-- The loop and the tasks, as the event loop has them. -/
def bare (σ : Pooled W S) : EventLoop W S := ⟨σ.handler, σ.loop, σ.pool.tasks, σ.task⟩

section
variable [DecidableEq W] [DecidableEq S]

open Function (update)

inductive Step (σ : Pooled W S) : Label S → Pooled W S → Prop
  /-- The loop outside of `Enqueue`. -/
  | loop (handler : SocketHandler S) (loop : EventLoop.LoopPc S) : σ.pool.producer () = .idle →
      EventLoop.Step σ.bare ⟨handler, loop, σ.pool.tasks, σ.task⟩ →
      Step σ .loop { σ with handler := handler, loop := loop }
  /-- The loop calls `Enqueue`. -/
  | call (s : S) (es : List (Event S)) (pool : ThreadPool W Unit S) : σ.loop = .queueing s es →
      ThreadPool.Step σ.pool (.call s) pool → Step σ (.pool (.call s)) { σ with pool := pool }
  /-- `Enqueue` returns to the loop. -/
  | returned (s : S) (es : List (Event S)) (pool : ThreadPool W Unit S) :
      σ.loop = .queueing s es → ThreadPool.Step σ.pool (.returned s) pool →
      Step σ (.pool (.returned s)) { σ with pool := pool, loop := .batch es }
  | pool (e : ThreadPool.Event S) (pool : ThreadPool W Unit S) : within e = true →
      ThreadPool.Step σ.pool e pool → Step σ (.pool e) { σ with pool := pool }
  /-- `task()` is called. -/
  | start (w : W) (s : S) : σ.pool.worker w = .ready s →
      Step σ (.pool (.start s)) { σ with
        pool := { σ.pool with worker := update σ.pool.worker w (.running s) }
        task := update σ.task w (.running s) }
  | task (w : W) (s : S) (handler : SocketHandler S) (pc : EventLoop.WorkerPc S) :
      σ.pool.worker w = .running s → pc ≠ σ.task w →
      EventLoop.Step σ.bare ⟨handler, σ.loop, σ.pool.tasks, update σ.task w pc⟩ →
      Step σ .task { σ with handler := handler, task := update σ.task w pc }
  /-- `task()` returns. -/
  | finish (w : W) (s : S) (how : Outcome) : σ.pool.worker w = .running s → σ.task w = .idle →
      Step σ (.pool (.finish s how)) { σ with
        pool := { σ.pool with worker := update σ.pool.worker w .locking } }

/-- The pool has launched its workers, and `handle` starts. -/
structure Start (σ : Pooled W S) : Prop where
  pool : σ.pool = ThreadPool.initial
  bare : EventLoop.Start σ.bare

def system (W S : Type) [DecidableEq W] [DecidableEq S] : System (Pooled W S) (Label S) where
  init := Start
  step := Step

end

/-! ## The event loop behind it -/

/-- The loop has handed over the socket as soon as the pool has the task. -/
def loopView (pushed : Bool) : EventLoop.LoopPc S → EventLoop.LoopPc S
  | .queueing s es => if pushed then .batch es else .queueing s es
  | pc => pc

/-- A worker has the socket as soon as it has taken the task. -/
def workerView (task : EventLoop.WorkerPc S) : ThreadPool.WorkerPc S → EventLoop.WorkerPc S
  | .unlocking s | .ready s => .running s
  | _ => task

def view (σ : Pooled W S) : EventLoop W S where
  handler := σ.handler
  loop := loopView (σ.pool.producer ()).owes σ.loop
  queue := σ.pool.tasks
  worker w := workerView (σ.task w) (σ.pool.worker w)

/-- The task of a call of `Enqueue`. -/
def asked : ThreadPool.ProducerPc S → Option S
  | .idle | .throwing => none
  | .locking s | .holding s | .pushed s | .notifying s => some s

/-- The loop is in the `Enqueue` that the pool knows of, a worker is in a task only while the pool
runs one on it, and nobody has called the destructor. -/
structure Coherent (σ : Pooled W S) : Prop where
  enqueue : ∀ s, asked (σ.pool.producer ()) = some s → ∃ es, σ.loop = .queueing s es
  task : ∀ w, (∀ s, σ.pool.worker w ≠ .running s) → σ.task w = .idle
  destructor : σ.pool.destructor = .notStarted

end Pooled

namespace EventLoop
variable {W S : Type} [DecidableEq W] [DecidableEq S]

open Function (update)

/-- What the loop does outside of `Enqueue` is the same beside any queue and any workers. -/
theorem Step.of_loop {h h' : SocketHandler S} {l l' : LoopPc S} {q : List S} {f : W → WorkerPc S}
    (hstep : Step ⟨h, l, q, f⟩ ⟨h', l', q, f⟩) (q' : List S) (f' : W → WorkerPc S) :
    Step ⟨h, l, q', f'⟩ ⟨h', l', q', f'⟩ := by
  have hother : ∀ w pc, f = update f w pc → f w = pc := by
    intro w pc heq
    have hw := congrFun heq w
    rwa [Function.update_self] at hw
  generalize hτ : (⟨h', l', q, f⟩ : EventLoop W S) = τ at hstep
  cases hstep with
  | wait rs es hloop hrs hnodup hes =>
    obtain ⟨rfl, rfl, -, -⟩ := EventLoop.mk.inj hτ
    exact .wait rs es hloop hrs hnodup hes
  | accept answer es hloop hfresh =>
    obtain ⟨rfl, rfl, -, -⟩ := EventLoop.mk.inj hτ
    exact .accept answer es hloop hfresh
  | null fd es hloop halloc =>
    obtain ⟨rfl, rfl, -, -⟩ := EventLoop.mk.inj hτ
    exact .null fd es hloop halloc
  | stuck fd es hloop halloc =>
    obtain ⟨rfl, rfl, -, -⟩ := EventLoop.mk.inj hτ
    exact .stuck fd es hloop halloc
  | slot fd es s pool hloop halloc =>
    obtain ⟨rfl, rfl, -, -⟩ := EventLoop.mk.inj hτ
    exact .slot fd es s pool hloop halloc
  | attach s es admits hloop =>
    obtain ⟨rfl, rfl, -, -⟩ := EventLoop.mk.inj hτ
    exact .attach s es admits hloop
  | detach s ready es hloop =>
    obtain ⟨rfl, rfl, -, -⟩ := EventLoop.mk.inj hτ
    exact .detach s ready es hloop
  | close s es hloop =>
    obtain ⟨rfl, rfl, -, -⟩ := EventLoop.mk.inj hτ
    exact .close s es hloop
  | delete s es hloop =>
    obtain ⟨rfl, rfl, -, -⟩ := EventLoop.mk.inj hτ
    exact .delete s es hloop
  | finish hloop =>
    obtain ⟨rfl, rfl, -, -⟩ := EventLoop.mk.inj hτ
    exact .finish hloop
  | enqueue s es hloop =>
    obtain ⟨-, -, hqueue, -⟩ := EventLoop.mk.inj hτ
    simp at hqueue
  | dequeue w s queue hw | reattach w s admits hw | remove w s hw | closeTask w s hw
  | deleteTask w s hw | escape w s hw =>
    obtain ⟨-, -, -, hworker⟩ := EventLoop.mk.inj hτ
    have hsame := hother w _ hworker
    rw [show f w = _ from hw] at hsame
    cases hsame

/-- What a step does that moves one worker and nothing of the loop or the queue. -/
theorem Step.task_cases {h h' : SocketHandler S} {l : LoopPc S} {q : List S} {f : W → WorkerPc S}
    {w : W} {pc : WorkerPc S} (hstep : Step ⟨h, l, q, f⟩ ⟨h', l, q, update f w pc⟩)
    (hpc : pc ≠ f w) : ∃ s,
      f w = .running s ∧ pc = .idle ∧ (h' = h ∨ ∃ admits, h' = h.attach s admits) ∨
      f w = .running s ∧ pc = .closing s ∧ h' = h ∨
      f w = .closing s ∧ pc = .deleting s ∧ h' = h.close s ∨
      f w = .deleting s ∧ pc = .idle ∧ h' = h.delete s ∧ l ≠ .stuck := by
  have hmoves : update f w pc ≠ f := by
    intro heq
    have hsame := congrFun heq w
    rw [Function.update_self] at hsame
    exact hpc hsame
  -- The worker that moves is `w`, and where it goes is `pc`.
  have hself : ∀ v u, update f w pc = update f v u → u ≠ f v → v = w ∧ u = pc := by
    intro v u heq hu
    have hv := congrFun heq v
    rw [Function.update_self] at hv
    by_cases hvw : v = w
    · subst hvw
      rw [Function.update_self] at hv
      exact ⟨rfl, hv.symm⟩
    · rw [Function.update_of_ne hvw] at hv
      exact absurd hv.symm hu
  generalize hτ : (⟨h', l, q, update f w pc⟩ : EventLoop W S) = τ at hstep
  cases hstep with
  | wait rs es hloop | accept answer es hloop | null fd es hloop | stuck fd es hloop
  | slot fd es s pool hloop | attach s es admits hloop | detach s ready es hloop
  | close s es hloop | delete s es hloop | finish hloop | enqueue s es hloop =>
    obtain ⟨-, -, -, hworker⟩ := EventLoop.mk.inj hτ
    exact absurd hworker hmoves
  | dequeue v s queue hv hqueue =>
    obtain ⟨-, -, hsame, -⟩ := EventLoop.mk.inj hτ
    have hlength := congrArg List.length (hsame.symm.trans hqueue)
    simp at hlength
  | reattach v s admits hv =>
    obtain ⟨rfl, -, -, hworker⟩ := EventLoop.mk.inj hτ
    obtain ⟨rfl, rfl⟩ := hself v _ hworker (by rw [show f v = _ from hv]; nofun)
    exact ⟨s, .inl ⟨hv, rfl, .inr ⟨admits, rfl⟩⟩⟩
  | remove v s hv =>
    obtain ⟨rfl, -, -, hworker⟩ := EventLoop.mk.inj hτ
    obtain ⟨rfl, rfl⟩ := hself v _ hworker (by rw [show f v = _ from hv]; nofun)
    exact ⟨s, .inr (.inl ⟨hv, rfl, rfl⟩)⟩
  | closeTask v s hv =>
    obtain ⟨rfl, -, -, hworker⟩ := EventLoop.mk.inj hτ
    obtain ⟨rfl, rfl⟩ := hself v _ hworker (by rw [show f v = _ from hv]; nofun)
    exact ⟨s, .inr (.inr (.inl ⟨hv, rfl, rfl⟩))⟩
  | deleteTask v s hv hloop =>
    obtain ⟨rfl, -, -, hworker⟩ := EventLoop.mk.inj hτ
    obtain ⟨rfl, rfl⟩ := hself v _ hworker (by rw [show f v = _ from hv]; nofun)
    exact ⟨s, .inr (.inr (.inr ⟨hv, rfl, rfl, hloop⟩))⟩
  | escape v s hv =>
    obtain ⟨rfl, -, -, hworker⟩ := EventLoop.mk.inj hτ
    obtain ⟨rfl, rfl⟩ := hself v _ hworker (by rw [show f v = _ from hv]; nofun)
    exact ⟨s, .inl ⟨hv, rfl, .inl rfl⟩⟩

/-- What a task does is the same beside any queue and any other workers; only a loop that holds the
mutex of the object pool for good keeps it from `Delete`. -/
theorem Step.of_task {h h' : SocketHandler S} {l l' : LoopPc S} {q q' : List S}
    {f f' : W → WorkerPc S} {w : W} {pc : WorkerPc S}
    (hstep : Step ⟨h, l, q, f⟩ ⟨h', l, q, update f w pc⟩) (hpc : pc ≠ f w) (hw : f' w = f w)
    (hstuck : l' = .stuck → l = .stuck) :
    Step ⟨h, l', q', f'⟩ ⟨h', l', q', update f' w pc⟩ := by
  obtain ⟨s, hcase⟩ := hstep.task_cases hpc
  rcases hcase with ⟨hfw, rfl, rfl | ⟨admits, rfl⟩⟩ | ⟨hfw, rfl, rfl⟩ | ⟨hfw, rfl, rfl⟩ |
    ⟨hfw, rfl, rfl, hl⟩
  · exact .escape w s (hw.trans hfw)
  · exact .reattach w s admits (hw.trans hfw)
  · exact .remove w s (hw.trans hfw)
  · exact .closeTask w s (hw.trans hfw)
  · exact .deleteTask w s (hw.trans hfw) fun heq => hl (hstuck heq)

end EventLoop
namespace Pooled
variable {W S : Type} [DecidableEq W] [DecidableEq S]

open Function (update)

/-- What a step does to the pool. -/
theorem pool_step {σ σ' : Pooled W S} {a : Label S} (hstep : Step σ a σ') :
    σ'.pool = σ.pool ∨ ∃ e, a = .pool e ∧ ThreadPool.Step σ.pool e σ'.pool := by
  cases hstep with
  | loop | task => exact .inl rfl
  | call s es pool hloop hpool => exact .inr ⟨_, rfl, hpool⟩
  | returned s es pool hloop hpool => exact .inr ⟨_, rfl, hpool⟩
  | pool e pool he hpool => exact .inr ⟨_, rfl, hpool⟩
  | start w s hw => exact .inr ⟨_, rfl, .start w hw⟩
  | finish w s how hw htask => exact .inr ⟨_, rfl, .finish w how hw⟩

omit [DecidableEq S] in
/-- Inside the pool, a worker comes to `task()` and leaves it by the events that say so. -/
theorem running_within {pool pool' : ThreadPool W Unit S} {e : ThreadPool.Event S}
    (hstep : ThreadPool.Step pool e pool') (he : within e = true) (w : W) (s : S) :
    pool'.worker w = .running s ↔ pool.worker w = .running s := by
  cases hstep with
  | lock v hv =>
    by_cases hvw : w = v
    · subst hvw
      rcases hv with hv | hv <;> simp [hv]
    · simp [hvw]
  | block v hv | take v hv | leave v hv | unlock v hv | exit v hv | spurious v hv =>
    by_cases hvw : w = v
    · subst hvw
      simp [hv]
    · simp [hvw]
  | notifyAll hd => cases hw : pool.worker w <;> simp [ThreadPool.WorkerPc.woken, hw]
  | start | finish | call | notifyOne | notifyNone | destroy => cases he
  | acquire | push | reject | release | unwind | seize | setStop | letGo | join => exact Iff.rfl

omit [DecidableEq S] in
theorem asked_within {pool pool' : ThreadPool W Unit S} {e : ThreadPool.Event S}
    (hstep : ThreadPool.Step pool e pool') (he : within e = true) {s : S}
    (h : asked (pool'.producer ()) = some s) : asked (pool.producer ()) = some s := by
  cases hstep with
  | acquire p hp | push p hp | release p hp => simpa [asked, hp] using h
  | reject p hp | unwind p hp => simp [asked] at h
  | start | finish | call | notifyOne | notifyNone | destroy => cases he
  | lock | block | take | leave | unlock | exit | spurious | seize | setStop | letGo | notifyAll
  | join => exact h

omit [DecidableEq W] [DecidableEq S] in
theorem coherent_start {σ : Pooled W S} (h : Start σ) : σ.Coherent := by
  constructor
  · rw [h.pool]
    exact nofun
  · exact fun w _ => h.bare.worker w
  · rw [h.pool]
    rfl

theorem coherent_step {σ σ' : Pooled W S} {a : Label S} (hstep : Step σ a σ') (h : σ.Coherent) :
    σ'.Coherent := by
  cases hstep with
  | loop handler loop hidle _ =>
    refine ⟨fun s hs => ?_, h.task, h.destructor⟩
    rw [show σ.pool.producer () = _ from hidle] at hs
    cases hs
  | call s es pool hloop hpool =>
    cases hpool with
    | call p _ hp =>
      refine ⟨fun t ht => ?_, h.task, h.destructor⟩
      have hts : s = t := by simpa [asked] using ht
      exact ⟨es, hts ▸ hloop⟩
  | returned s es pool hloop hpool =>
    cases hpool with
    | notifyOne p w hp hw =>
      refine ⟨fun t ht => by simp [asked] at ht, fun v hv => h.task v fun t ht => ?_, h.destructor⟩
      refine hv t ?_
      have hvw : v ≠ w := by
        rintro rfl
        rw [hw] at ht
        cases ht
      simpa [hvw] using ht
    | notifyNone p hp hw =>
      exact ⟨fun t ht => by simp [asked] at ht, h.task, h.destructor⟩
  | pool e pool he hpool =>
    refine ⟨fun s hs => h.enqueue s (asked_within hpool he hs), fun w hw => ?_, ?_⟩
    · exact h.task w fun s hs => hw s ((running_within hpool he w s).mpr hs)
    · have hd := h.destructor
      cases hpool with
      | destroy => cases he
      | seize hd' | setStop hd' | letGo hd' | notifyAll hd' | join hd' =>
        rw [hd'] at hd
        cases hd
      | _ => exact hd
  | start w s hw =>
    refine ⟨h.enqueue, fun v hv => ?_, h.destructor⟩
    by_cases hvw : v = w
    · subst hvw
      exact absurd (Function.update_self ..) (hv s)
    · have hv' : ∀ t, σ.pool.worker v ≠ .running t := by simpa [hvw] using hv
      simpa [hvw] using h.task v hv'
  | task w s handler pc hw hpc _ =>
    refine ⟨h.enqueue, fun v hv => ?_, h.destructor⟩
    have hvw : v ≠ w := by
      rintro rfl
      exact hv s hw
    simpa [hvw] using h.task v hv
  | finish w s how hw htask =>
    refine ⟨h.enqueue, fun v hv => ?_, h.destructor⟩
    by_cases hvw : v = w
    · subst hvw
      exact htask
    · have hv' : ∀ t, σ.pool.worker v ≠ .running t := by simpa [hvw] using hv
      exact h.task v hv'

omit [DecidableEq W] [DecidableEq S] in
theorem loopView_false (pc : EventLoop.LoopPc S) : loopView false pc = pc := by
  cases pc <;> rfl

omit [DecidableEq W] [DecidableEq S] in
theorem loopView_stuck {pushed : Bool} {pc : EventLoop.LoopPc S}
    (h : loopView pushed pc = .stuck) : pc = .stuck := by
  cases pc with
  | queueing s es =>
    rw [loopView] at h
    split at h <;> cases h
  | _ => exact h

omit [DecidableEq W] [DecidableEq S] in
/-- The view of a loop that is not in `Enqueue`. -/
theorem view_loop {σ : Pooled W S} (hproducer : σ.pool.producer () = .idle)
    (handler : SocketHandler S) (loop : EventLoop.LoopPc S) :
    ({ σ with handler := handler, loop := loop } : Pooled W S).view =
      { σ.view with handler := handler, loop := loop } := by
  simp [view, hproducer, ThreadPool.ProducerPc.owes, loopView_false]

omit [DecidableEq W] [DecidableEq S] in
theorem loop_of_producer {σ : Pooled W S} (hproducer : σ.pool.producer () = .idle) :
    σ.view.loop = σ.loop := by
  rw [view_loop hproducer σ.handler σ.loop]

omit [DecidableEq S] in
/-- A worker that moves on inside the pool, without a task before or after it, shows nothing. -/
theorem view_update {σ : Pooled W S} {w : W} {pc : ThreadPool.WorkerPc S}
    (h : workerView (σ.task w) pc = workerView (σ.task w) (σ.pool.worker w)) :
    (fun v => workerView (σ.task v) (update σ.pool.worker w pc v)) = σ.view.worker := by
  funext v
  by_cases hvw : v = w
  · subst hvw
    rw [Function.update_self]
    exact h
  · rw [Function.update_of_ne hvw]
    rfl

omit [DecidableEq S] in
/-- An idle worker has the socket from the moment it takes the task. -/
theorem view_take {σ : Pooled W S} (h : σ.Coherent) {w : W} (s : S) (rest : List S)
    (hw : σ.pool.worker w = .testing) : σ.view.worker w = .idle ∧
      ({ σ with pool := { σ.pool with
        tasks := rest, worker := update σ.pool.worker w (.unlocking s) } } : Pooled W S).view =
      { σ.view with queue := rest, worker := update σ.view.worker w (.running s) } := by
  have hidle : σ.view.worker w = .idle := by
    simp only [view, hw, workerView]
    exact h.task w (by simp [hw])
  have hworker : (fun v => workerView (σ.task v) (update σ.pool.worker w (.unlocking s) v)) =
      update σ.view.worker w (.running s) := by
    funext v
    by_cases hvw : v = w
    · subst hvw
      simp [workerView]
    · simp [hvw, view]
  exact ⟨hidle, by rw [← hworker]; rfl⟩

omit [DecidableEq S] in
/-- `task()` is called in a worker that has had the socket already. -/
theorem view_start_task {σ : Pooled W S} {w : W} {s : S} (hw : σ.pool.worker w = .ready s) :
    ({ σ with
      pool := { σ.pool with worker := update σ.pool.worker w (.running s) }
      task := update σ.task w (.running s) } : Pooled W S).view = σ.view := by
  have hworker : (fun v => workerView (update σ.task w (.running s) v)
      (update σ.pool.worker w (.running s) v)) = σ.view.worker := by
    funext v
    by_cases hvw : v = w
    · subst hvw
      simp [workerView, view, hw]
    · simp [hvw, view]
  simp only [view]
  rw [hworker]
  rfl

omit [DecidableEq W] [DecidableEq S] in
theorem view_worker {σ : Pooled W S} {w : W} {s : S} (hw : σ.pool.worker w = .running s) :
    σ.view.worker w = σ.task w := by
  simp [view, hw, workerView]

omit [DecidableEq S] in
/-- A task goes on in a worker that the pool has in it. -/
theorem view_task {σ : Pooled W S} {w : W} {s : S} (hw : σ.pool.worker w = .running s)
    (handler : SocketHandler S) (pc : EventLoop.WorkerPc S) :
    ({ σ with handler := handler, task := update σ.task w pc } : Pooled W S).view =
      { σ.view with handler := handler, worker := update σ.view.worker w pc } := by
  have hworker : (fun v => workerView (update σ.task w pc v) (σ.pool.worker v)) =
      update σ.view.worker w pc := by
    funext v
    by_cases hvw : v = w
    · subst hvw
      simp [workerView, hw]
    · simp [hvw, view]
  rw [← hworker]
  rfl

/-- A step inside the pool is a push, a task taken out, or nothing that the event loop knows. -/
theorem view_within {σ : Pooled W S} {e : ThreadPool.Event S} {pool : ThreadPool W Unit S}
    (h : σ.Coherent) (he : within e = true) (hpool : ThreadPool.Step σ.pool e pool) :
    ({ σ with pool := pool } : Pooled W S).view = σ.view ∨
      EventLoop.Step σ.view ({ σ with pool := pool } : Pooled W S).view := by
  cases hpool with
  | lock w hw =>
    left
    simp only [view]
    rw [view_update (by rcases hw with hw | hw <;> simp [workerView, hw])]
    rfl
  | block w hw | leave w hw | unlock w hw | exit w hw | spurious w hw =>
    left
    simp only [view]
    rw [view_update (by simp [workerView, hw])]
    rfl
  | @take w s rest hw htasks =>
    right
    obtain ⟨hidle, hview⟩ := view_take h s rest hw
    rw [hview]
    exact .dequeue w s rest hidle htasks
  | acquire p hp =>
    left
    simp [view, hp, ThreadPool.ProducerPc.owes]
  | @push p s hp hstop =>
    right
    obtain ⟨es, hloop⟩ := h.enqueue s (by simp [asked, hp])
    have hview : σ.view.loop = .queueing s es := by
      simp [view, hloop, loopView, hp, ThreadPool.ProducerPc.owes]
    have hstep := EventLoop.Step.enqueue s es hview
    simpa [view, hloop, loopView, ThreadPool.ProducerPc.owes] using hstep
  | reject p hp | release p hp | unwind p hp =>
    left
    simp [view, hp, ThreadPool.ProducerPc.owes]
  | notifyAll hd =>
    left
    have hworker : ∀ w, workerView (σ.task w) (σ.pool.worker w).woken =
        workerView (σ.task w) (σ.pool.worker w) := by
      intro w
      cases σ.pool.worker w <;> rfl
    simp [view, hworker]
  | seize | setStop | letGo | join => exact .inl rfl
  | start | finish | call | notifyOne | notifyNone | destroy => cases he

/-- What the loop can do behind it outside of `Enqueue`, it can do. -/
theorem Step.of_view {σ : Pooled W S} (hproducer : σ.pool.producer () = .idle)
    {handler : SocketHandler S} {loop : EventLoop.LoopPc S}
    (hstep : EventLoop.Step σ.view ⟨handler, loop, σ.view.queue, σ.view.worker⟩) :
    Step σ .loop { σ with handler := handler, loop := loop } := by
  rw [view_loop hproducer σ.handler σ.loop] at hstep
  exact .loop handler loop hproducer (hstep.of_loop _ _)

/-- A step is one of the event loop behind it, or nothing that the event loop knows. -/
theorem view_step {σ σ' : Pooled W S} {a : Label S} (hstep : Step σ a σ') (h : σ.Coherent) :
    σ'.view = σ.view ∨ EventLoop.Step σ.view σ'.view := by
  cases hstep with
  | loop handler loop hidle hloop =>
    right
    simp only [view, hidle, ThreadPool.ProducerPc.owes, loopView_false]
    exact hloop.of_loop _ _
  | call s es pool hloop hpool =>
    left
    cases hpool with
    | call p _ hp => simp [view, hp, ThreadPool.ProducerPc.owes]
  | returned s es pool hloop hpool =>
    left
    cases hpool with
    | notifyOne p w hp hw =>
      simp only [view]
      rw [view_update (by simp [workerView, hw])]
      simp [view, hloop, loopView, hp, ThreadPool.ProducerPc.owes]
    | notifyNone p hp hw => simp [view, hloop, loopView, hp, ThreadPool.ProducerPc.owes]
  | pool e pool he hpool => exact view_within h he hpool
  | start w s hw => exact .inl (view_start_task hw)
  | task w s handler pc hw hpc htask =>
    right
    rw [view_task hw handler pc]
    exact htask.of_task hpc (view_worker hw) loopView_stuck
  | finish w s how hw htask =>
    left
    simp only [view]
    rw [view_update (by simp [workerView, hw])]
    rfl

/-! ## What holds of a run -/

/-- The events of the pool. -/
def Label.events : Label S → List (ThreadPool.Event S)
  | .pool e => [e]
  | .loop | .task => []

theorem coherent_trace {tr : List (Label S)} {σ : Pooled W S} (h : (system W S).Trace tr σ) :
    σ.Coherent :=
  h.invariant (P := fun _ σ => σ.Coherent) (fun _ => coherent_start)
    fun _ _ _ _ hc hstep => coherent_step hstep hc

omit [DecidableEq W] [DecidableEq S] in
theorem view_start {σ : Pooled W S} (h : Start σ) : EventLoop.Start σ.view := by
  have hloop : σ.loop = .waiting := h.bare.loop
  exact {
    idle := h.bare.idle
    idle_once := h.bare.idle_once
    interest := h.bare.interest
    loop := by simp [view, hloop, loopView]
    queue := h.bare.queue
    worker := by
      intro w
      simp only [view, h.pool, ThreadPool.initial, workerView]
      exact h.bare.worker w }

theorem trace_view {tr : List (Label S)} {σ : Pooled W S} (h : (system W S).Trace tr σ) :
    (EventLoop.system W S).Reachable σ.view := by
  obtain ⟨σ₀, h₀, hrun⟩ := h
  induction hrun with
  | nil => exact (System.Trace.nil (view_start h₀)).reachable
  | @snoc σ σ' tr a hrun hstep ih =>
    rcases view_step hstep (coherent_trace ⟨σ₀, h₀, hrun⟩) with hsame | hview
    · rw [hsame]
      exact ih
    · obtain ⟨labels, hlabels⟩ := ih
      exact (hlabels.snoc (a := ()) hview).reachable

theorem trace_pool {tr : List (Label S)} {σ : Pooled W S} (h : (system W S).Trace tr σ) :
    (ThreadPool.system W Unit S).Trace (tr.flatMap Label.events) σ.pool := by
  refine h.invariant (P := fun tr σ => (ThreadPool.system W Unit S).Trace
    (tr.flatMap Label.events) σ.pool) (fun σ hstart => ?_) ?_
  · have hpool : σ.pool = ThreadPool.initial := Start.pool hstart
    exact .nil hpool
  intro tr σ a σ' hσ hstep
  rw [List.flatMap_append, List.flatMap_singleton]
  cases hstep with
  | loop | task => simpa [Label.events] using hσ
  | call s es pool hloop hpool => exact hσ.snoc hpool
  | returned s es pool hloop hpool => exact hσ.snoc hpool
  | pool e pool he hpool => exact hσ.snoc hpool
  | start w s hw => exact hσ.snoc (.start w hw)
  | finish w s how hw htask => exact hσ.snoc (.finish w how hw)

/-- Nobody stops the pool. -/
theorem stop_eq_false [Fintype W] {σ : Pooled W S} (h : (system W S).Reachable σ) :
    σ.pool.stop = false := by
  obtain ⟨tr, htrace⟩ := h
  rw [(ThreadPool.covered_reachable (trace_pool htrace).reachable).stop_eq,
    (coherent_trace htrace).destructor]
  rfl

open scoped Classical in
/-- What shows of the run to the event loop, each state once as long as it does not change, is a run
of the event loop with its queue; the run is one of the thread pool; and no socket has two tasks. -/
structure Refines [Fintype W] (tr : List (Label S)) (states : List (Pooled W S))
    (σ : Pooled W S) : Prop where
  loop : (EventLoop.system W S).Path ((states.map view).destutter (· ≠ ·))
  pool : (ThreadPool.system W Unit S).Trace (tr.flatMap Label.events) σ.pool
  once : σ.view.tasks.Nodup

/-- The handler on its thread pool refines the event loop with a queue, whatever the threads do
inside the pool. -/
theorem refines [Fintype W] {tr : List (Label S)} {states : List (Pooled W S)} {σ : Pooled W S}
    (h : (system W S).Visits tr states σ) : Refines tr states σ := by
  classical
  have hown := EventLoop.owned_reachable (trace_view h.trace)
  refine ⟨h.path (fun _ => view_start) fun tr σ a σ' htrace hstep => ?_, trace_pool h.trace,
    (Multiset.nodup_add.mp (Multiset.nodup_add.mp hown.once).2.1).2.1⟩
  exact (view_step hstep (coherent_trace htrace)).imp_right fun hview => ⟨(), hview⟩

/-! ## One request -/

/-- The handler on its pool, with steps of the event loop that get what they ask for. -/
def granted (W S : Type) [DecidableEq W] [DecidableEq S] : System (Pooled W S) (Label S) where
  init := Start
  step σ a σ' := Step σ a σ' ∧ (σ'.view ≠ σ.view → EventLoop.Granted σ.view σ'.view)

theorem trace_of_granted {σ : Pooled W S} {tr : List (Label S)} (h : (granted W S).Trace tr σ) :
    (system W S).Trace tr σ := by
  obtain ⟨σ₀, h₀, hrun⟩ := h
  exact ⟨σ₀, h₀, hrun.mono fun _ _ _ => And.left⟩

/-- A connection is accepted, its request reported, and a worker has run the task. -/
theorem granted_served : ∃ (tr : List (Label Unit)) (σ : Pooled Unit Unit),
    (granted Unit Unit).Trace tr σ ∧ .pool (.finish () .returned) ∈ tr ∧ σ.loop = .waiting ∧
      () ∉ σ.handler.pool.idle := by
  let start : Pooled Unit Unit :=
    ⟨⟨⟨[()], 0, 1⟩, fun _ => 0, ⟨[]⟩, []⟩, .waiting, ThreadPool.initial, fun _ => .idle⟩
  have hstart : (granted Unit Unit).Trace [] start :=
    .nil ⟨rfl, ⟨by decide, by decide, rfl, rfl, rfl, fun _ => rfl⟩⟩
  have hwait := hstart.snoc
    ⟨.loop _ _ rfl (.wait [] [.listening] rfl (by simp) (by simp) rfl),
      fun _ => .of_plain rfl rfl fun _ => .inr rfl⟩
  have haccept := hwait.snoc
    ⟨.loop _ _ rfl (.accept 4 [] rfl (by simp [start, bare])),
      fun _ => .of_accept rfl rfl (by decide) rfl⟩
  have hslot := haccept.snoc
    ⟨.loop _ _ rfl (.slot 4 [] () ⟨[], 1, 1⟩ rfl rfl),
      fun _ => .of_slot rfl rfl rfl⟩
  have hattach := hslot.snoc
    ⟨.loop _ _ rfl (.attach () [] true rfl),
      fun _ => .of_attach rfl rfl rfl rfl⟩
  have hover := hattach.snoc
    ⟨.loop _ _ rfl (.finish rfl), fun _ => .of_plain rfl rfl fun _ => .inr rfl⟩
  have hreport := hover.snoc
    ⟨.loop _ _ rfl (.wait [⟨4, (), true⟩] [.client () ⟨false, false, true, rfl⟩] rfl (by decide)
      (by decide) rfl), fun _ => .of_plain rfl rfl fun _ => .inr rfl⟩
  have hdetach := hreport.snoc
    ⟨.loop _ _ rfl (.detach () ⟨false, false, true, rfl⟩ [] rfl),
      fun _ => .of_plain rfl rfl fun _ => .inr rfl⟩
  have hcall := hdetach.snoc
    ⟨.call () [] _ rfl (.call () () rfl), fun _ => .of_plain rfl rfl fun _ => .inr rfl⟩
  have hacquire := hcall.snoc
    ⟨.pool _ _ rfl (.acquire () (t := ()) rfl rfl), fun _ => .of_plain rfl rfl fun _ => .inr rfl⟩
  have hpush := hacquire.snoc
    ⟨.pool _ _ rfl (.push () (t := ()) rfl rfl), fun _ => .of_plain rfl rfl fun _ => .inr rfl⟩
  have hrelease := hpush.snoc
    ⟨.pool _ _ rfl (.release () (t := ()) rfl), fun _ => .of_plain rfl rfl fun _ => .inr rfl⟩
  have hreturned := hrelease.snoc
    ⟨.returned () [] _ rfl (.notifyNone () (t := ()) rfl (by simp [start, ThreadPool.initial])),
      fun _ => .of_plain rfl rfl fun _ => .inr rfl⟩
  have hback := hreturned.snoc
    ⟨.loop _ _ rfl (.finish rfl), fun _ => .of_plain rfl rfl fun _ => .inr rfl⟩
  have hlock := hback.snoc
    ⟨.pool _ _ rfl (.lock () (.inl rfl) rfl), fun _ => .of_plain rfl rfl fun _ => .inr rfl⟩
  have htake := hlock.snoc
    ⟨.pool _ _ rfl (.take () (t := ()) rfl rfl), fun _ => .of_plain rfl rfl fun _ => .inl rfl⟩
  have hunlock := htake.snoc
    ⟨.pool _ _ rfl (.unlock () (t := ()) rfl), fun _ => .of_plain rfl rfl fun _ => .inr rfl⟩
  have hbegin := hunlock.snoc
    ⟨.start () () rfl, fun _ => .of_plain rfl rfl fun _ => .inr rfl⟩
  have hserved := hbegin.snoc
    ⟨.task () () _ .idle rfl (by simp) (.reattach () () true rfl),
      fun _ => .of_reattach (w := ()) (s := ()) rfl
        (by simp [view, loopView, EventLoop.LoopPc.arriving]) rfl (funext fun _ => rfl) rfl⟩
  have hfinish := hserved.snoc
    ⟨.finish () () .returned rfl rfl, fun _ => .of_plain rfl rfl fun _ => .inl rfl⟩
  exact ⟨_, _, hfinish, by simp, rfl, List.not_mem_nil⟩

theorem refines_served : ∃ (tr : List (Label Unit)) (states : List (Pooled Unit Unit))
    (σ : Pooled Unit Unit), .pool (.finish () .returned) ∈ tr ∧ Refines tr states σ := by
  obtain ⟨tr, σ, htrace, hfinish, -⟩ := granted_served
  obtain ⟨states, hvisits⟩ := (trace_of_granted htrace).visits
  exact ⟨tr, states, σ, hfinish, refines hvisits⟩

end Pooled
end Calabash
