import Calabash.Socket.Pooled
import Calabash.Web.Conversation

/-!
# The server on its thread pool

The tasks of `Serving` on the workers of the real `ThreadPool`. A task reads from its socket and
writes to it while other threads lock, wait, notify and take tasks out of the queue. What this
makes of a run is a run of `Serving`, so that the clients see no difference.

## Main results

* `view_step` — a step is one of `Serving`, or nothing that it knows.
* `heard_on_pool` — what a client reads of a conversation.
* `all_answered` — what it has read when the server is idle.
-/

namespace Calabash

open HttpMessage (receive)

/-- The handler on its thread pool, where each worker is in its task, the connection of each slot,
and how the connection was when it was accepted. -/
structure Deployed (W S : Type) where
  core : Pooled W S
  task : W → TaskPc
  link : S → Link
  accepted : S → Link

namespace Deployed
variable {W S : Type}

open Function (update)

section
variable [DecidableEq W] [DecidableEq S]

inductive Step (server : Site) (σ : Deployed W S) : Deployed W S → Prop
  /-- The loop outside of `Enqueue`, but for the construction of a `Socket`. -/
  | loop (core : Pooled W S) : Pooled.Step σ.core .loop core →
      (∀ s ∈ σ.core.handler.pool.idle, s ∈ core.handler.pool.idle) →
      Step server σ { σ with core := core }
  /-- A `Socket` is constructed for a new connection. -/
  | connect (fd : ℤ) (es : List (Event S)) (s : S) (pool : ObjectPool S) (l : Link) :
      σ.core.pool.producer () = .idle → σ.core.loop = .accepted fd es →
      σ.core.handler.pool.allocate = .slot s pool → l.wire.sent = [] →
      Step server σ
        { core := { σ.core with
            handler := σ.core.handler.construct s pool fd, loop := .attaching s es }
          task := σ.task, link := update σ.link s l, accepted := update σ.accepted s l }
  /-- `Enqueue`, and what the workers do outside of a task. -/
  | pool (e : ThreadPool.Event S) (core : Pooled W S) : (∀ s, e ≠ .start s) →
      Pooled.Step σ.core (.pool e) core → Step server σ { σ with core := core }
  /-- `task()` is called. -/
  | start (w : W) (s : S) : σ.core.pool.worker w = .ready s →
      Step server σ { σ with
        core := { σ.core with
          pool := { σ.core.pool with worker := update σ.core.pool.worker w (.running s) }
          task := update σ.core.task w (.running s) }
        task := update σ.task w .reading }
  /-- A task makes a call on its connection, or goes on inside. -/
  | call (w : W) (s : S) (pc : TaskPc) (l : Link) : σ.core.pool.worker w = .running s →
      σ.core.task w = .running s → TaskStep server (σ.task w) (σ.link s) pc l →
      Step server σ { σ with task := update σ.task w pc, link := update σ.link s l }
  | attach (w : W) (s : S) (admits : Bool) : σ.core.pool.worker w = .running s →
      σ.core.task w = .running s → σ.task w = .released .attach →
      Step server σ { σ with core := { σ.core with
        handler := σ.core.handler.attach s admits, task := update σ.core.task w .idle } }
  | remove (w : W) (s : S) : σ.core.pool.worker w = .running s → σ.core.task w = .running s →
      σ.task w = .released .remove →
      Step server σ { σ with core := { σ.core with task := update σ.core.task w (.closing s) } }
  | escape (w : W) (s : S) (e : Exception) : σ.core.pool.worker w = .running s →
      σ.core.task w = .running s → σ.task w = .threw e →
      Step server σ { σ with core := { σ.core with task := update σ.core.task w .idle } }
  | close (w : W) (s : S) : σ.core.pool.worker w = .running s → σ.core.task w = .closing s →
      Step server σ { σ with core := { σ.core with
        handler := σ.core.handler.close s, task := update σ.core.task w (.deleting s) } }
  | delete (w : W) (s : S) : σ.core.pool.worker w = .running s → σ.core.task w = .deleting s →
      σ.core.loop ≠ .stuck →
      Step server σ { σ with core := { σ.core with
        handler := σ.core.handler.delete s, task := update σ.core.task w .idle } }

/-- The pool has launched its workers, and `handle` starts. -/
def system (server : Site) (W S : Type) [DecidableEq W] [DecidableEq S] :
    System (Deployed W S) Unit where
  init σ := σ.core.Start
  step σ _ σ' := Step server σ σ'

end

/-! ## The tasks behind it -/

/-- A worker that has taken a task is in front of its first call. -/
def taskView (task : TaskPc) : ThreadPool.WorkerPc S → TaskPc
  | .unlocking _ | .ready _ => .reading
  | _ => task

def view (σ : Deployed W S) : Serving W S where
  core := σ.core.view
  task w := taskView (σ.task w) (σ.core.pool.worker w)
  link := σ.link
  accepted := σ.accepted

section
variable [DecidableEq W] [DecidableEq S]

/-- What each step is to the handler on its pool. -/
theorem core_step {server : Site} {σ σ' : Deployed W S} (hstep : Step server σ σ') :
    σ'.core = σ.core ∨ ∃ a, Pooled.Step σ.core a σ'.core := by
  cases hstep with
  | loop core hcore => exact .inr ⟨_, hcore⟩
  | connect fd es s pool l hidle hloop halloc =>
    exact .inr ⟨_, .loop _ _ hidle (.slot fd es s pool hloop halloc)⟩
  | pool e core _ hcore => exact .inr ⟨_, hcore⟩
  | start w s hw => exact .inr ⟨_, .start w s hw⟩
  | call => exact .inl rfl
  | attach w s admits hw htask =>
    exact .inr ⟨_, .task w s _ _ hw (by rw [htask]; nofun) (.reattach w s admits htask)⟩
  | remove w s hw htask =>
    exact .inr ⟨_, .task w s _ _ hw (by rw [htask]; nofun) (.remove w s htask)⟩
  | escape w s e hw htask =>
    exact .inr ⟨_, .task w s _ _ hw (by rw [htask]; nofun) (.escape w s htask)⟩
  | close w s hw htask =>
    exact .inr ⟨_, .task w s _ _ hw (by rw [htask]; nofun) (.closeTask w s htask)⟩
  | delete w s hw htask hloop =>
    exact .inr ⟨_, .task w s _ _ hw (by rw [htask]; nofun) (.deleteTask w s htask hloop)⟩

omit [DecidableEq S] in
/-- Where no worker takes a task or calls one, nothing shows of what the workers do. -/
theorem worker_step {pool pool' : ThreadPool W Unit S} {e : ThreadPool.Event S}
    (hstep : ThreadPool.Step pool e pool') (hstart : ∀ s, e ≠ .start s)
    (hdequeue : ∀ s, e ≠ .dequeue s) (w : W) :
    (∀ task, Pooled.workerView task (pool'.worker w) = Pooled.workerView task (pool.worker w)) ∧
      ∀ task, taskView task (pool'.worker w) = taskView task (pool.worker w) := by
  cases hstep with
  | lock v hv =>
    by_cases hvw : w = v
    · subst hvw
      rcases hv with hv | hv <;> simp [Pooled.workerView, taskView, hv]
    · simp [hvw]
  | block v hv | leave v hv | unlock v hv | finish v _ hv | exit v hv | spurious v hv
  | notifyOne _ v _ hv =>
    by_cases hvw : w = v
    · subst hvw
      simp [Pooled.workerView, taskView, hv]
    · simp [hvw]
  | notifyAll hd =>
    cases hw : pool.worker w <;>
      simp [Pooled.workerView, taskView, ThreadPool.WorkerPc.woken, hw]
  | take v hv => exact absurd rfl (hdequeue _)
  | start v hv => exact absurd rfl (hstart _)
  | _ => exact ⟨fun _ => rfl, fun _ => rfl⟩

omit [DecidableEq W] [DecidableEq S] in
theorem view_pc {σ : Deployed W S} {w : W} {s : S} (hw : σ.core.pool.worker w = .running s) :
    σ.view.task w = σ.task w := by
  simp [view, taskView, hw]

omit [DecidableEq S] in
/-- The worker of a task shows the calls of the task. -/
theorem view_running {σ : Deployed W S} {w : W} {s : S} (hw : σ.core.pool.worker w = .running s)
    (pc : TaskPc) (link : S → Link) :
    ({ σ with task := update σ.task w pc, link := link } : Deployed W S).view =
      { σ.view with task := update σ.view.task w pc, link := link } := by
  have htask : (fun v => taskView (update σ.task w pc v) (σ.core.pool.worker v)) =
      update σ.view.task w pc := by
    funext v
    by_cases hvw : v = w
    · subst hvw
      simp [taskView, hw]
    · simp [hvw, view]
  rw [← htask]
  rfl

omit [DecidableEq S] in
/-- A task that closes its connection, or gives it back, does so for the event loop as well. -/
theorem view_closing {σ : Deployed W S} {w : W} {s : S} (hw : σ.core.pool.worker w = .running s)
    (handler : SocketHandler S) (pc : EventLoop.WorkerPc S) :
    ({ σ with core := { σ.core with
      handler := handler, task := update σ.core.task w pc } } : Deployed W S).view =
      { σ.view with core := { σ.view.core with
        handler := handler, worker := update σ.view.core.worker w pc } } := by
  rw [view, Pooled.view_task hw handler pc]
  rfl

omit [DecidableEq S] in
/-- A worker that takes a task is in front of its first call. -/
theorem view_take {σ : Deployed W S} (h : σ.core.Coherent) {w : W} (s : S) (rest : List S)
    (hw : σ.core.pool.worker w = .testing) :
    ({ σ with core := { σ.core with pool := { σ.core.pool with
      tasks := rest, worker := update σ.core.pool.worker w (.unlocking s) } } } :
        Deployed W S).view =
      { σ.view with
        core := { σ.view.core with
          queue := rest, worker := update σ.view.core.worker w (.running s) }
        task := update σ.view.task w .reading } := by
  have htask : (fun v => taskView (σ.task v) (update σ.core.pool.worker w (.unlocking s) v)) =
      update σ.view.task w .reading := by
    funext v
    by_cases hvw : v = w
    · subst hvw
      simp [taskView]
    · simp [hvw, view]
  rw [view, (Pooled.view_take h s rest hw).2, htask]
  rfl

/-- A step outside of the tasks is one of the event loop, or nothing that it knows. -/
theorem view_core {server : Site} {σ : Deployed W S} {core : Pooled W S}
    (htask : ∀ w, taskView (σ.task w) (core.pool.worker w) =
      taskView (σ.task w) (σ.core.pool.worker w))
    (hcore : core.view = σ.core.view ∨ EventLoop.Step σ.core.view core.view)
    (hworker : core.view.worker = σ.core.view.worker)
    (hidle : ∀ s ∈ σ.core.handler.pool.idle, s ∈ core.handler.pool.idle) :
    ({ σ with core := core } : Deployed W S).view = σ.view ∨
      Serving.Step server σ.view ({ σ with core := core } : Deployed W S).view := by
  have hview : ({ σ with core := core } : Deployed W S).view =
      { σ.view with core := core.view } := by
    simp only [view, htask]
  rw [hview]
  rcases hcore with hsame | hstep
  · exact .inl (by rw [hsame]; rfl)
  · exact .inr (.loop core.view hstep hworker hidle)

theorem view_pool {server : Site} {σ : Deployed W S} {e : ThreadPool.Event S} {core : Pooled W S}
    (h : σ.core.Coherent) (hstart : ∀ s, e ≠ .start s) (hcore : Pooled.Step σ.core (.pool e) core) :
    ({ σ with core := core } : Deployed W S).view = σ.view ∨
      Serving.Step server σ.view ({ σ with core := core } : Deployed W S).view := by
  have hview := Pooled.view_step hcore h
  have hquiet : ∀ pool', ThreadPool.Step σ.core.pool e pool' → (∀ s, e ≠ .dequeue s) →
      ∀ w, (∀ task, Pooled.workerView task (pool'.worker w) =
        Pooled.workerView task (σ.core.pool.worker w)) ∧
      ∀ task, taskView task (pool'.worker w) = taskView task (σ.core.pool.worker w) :=
    fun _ hpool hdequeue w => worker_step hpool hstart hdequeue w
  cases hcore with
  | call s es pool hloop hpool | returned s es pool hloop hpool =>
    have hsame := hquiet pool hpool nofun
    exact view_core (fun w => (hsame w).2 _) hview (funext fun w => (hsame w).1 _) (fun _ hs => hs)
  | finish w s how hw htask =>
    have hsame := hquiet _ (.finish w how hw) nofun
    exact view_core (fun w => (hsame w).2 _) hview (funext fun w => (hsame w).1 _) (fun _ hs => hs)
  | start w s hw => exact absurd rfl (hstart s)
  | pool e pool he hpool =>
    by_cases hdequeue : ∃ s, e = .dequeue s
    · obtain ⟨s, rfl⟩ := hdequeue
      cases hpool with
      | @take w _ rest hw htasks =>
        right
        rw [view_take h s rest hw]
        exact .dequeue w s rest (Pooled.view_take h s rest hw).1 htasks
    · have hsame := hquiet pool hpool fun s hs => hdequeue ⟨s, hs⟩
      exact view_core (fun w => (hsame w).2 _) hview (funext fun w => (hsame w).1 _)
        (fun _ hs => hs)

/-- A step is one of `Serving`, or nothing that it knows. -/
theorem view_step {server : Site} {σ σ' : Deployed W S} (hstep : Step server σ σ')
    (h : σ.core.Coherent) : σ'.view = σ.view ∨ Serving.Step server σ.view σ'.view := by
  cases hstep with
  | loop core hcore hidle =>
    have hview := Pooled.view_step hcore h
    cases hcore with
    | loop handler loop => exact view_core (fun _ => rfl) hview rfl hidle
  | connect fd es s pool l hidle hloop halloc hl =>
    right
    have hview : σ.view.core.loop = .accepted fd es := by
      simp [view, Pooled.view, hloop, Pooled.loopView]
    exact .connect fd es s pool l hview halloc hl
  | pool e core hstart hcore => exact view_pool h hstart hcore
  | start w s hw =>
    left
    have htask : (fun v => taskView (update σ.task w .reading v)
        (update σ.core.pool.worker w (.running s) v)) = σ.view.task := by
      funext v
      by_cases hvw : v = w
      · subst hvw
        simp [taskView, view, hw]
      · simp [hvw, view]
    simp only [view]
    rw [htask, Pooled.view_start_task hw]
    rfl
  | call w s pc l hw htask hcall =>
    right
    have hworker : σ.view.core.worker w = .running s := (Pooled.view_worker hw).trans htask
    rw [view_running hw pc (update σ.link s l)]
    exact .call w s pc l hworker (by rw [view_pc hw]; exact hcall)
  | attach w s admits hw htask hover =>
    right
    rw [view_closing hw (σ.core.handler.attach s admits) .idle]
    exact .attach w s admits ((Pooled.view_worker hw).trans htask) ((view_pc hw).trans hover)
  | remove w s hw htask hover =>
    right
    rw [view_closing hw σ.core.handler (.closing s)]
    exact .remove w s ((Pooled.view_worker hw).trans htask) ((view_pc hw).trans hover)
  | escape w s e hw htask hover =>
    right
    rw [view_closing hw σ.core.handler .idle]
    exact .escape w s e ((Pooled.view_worker hw).trans htask) ((view_pc hw).trans hover)
  | close w s hw htask =>
    right
    rw [view_closing hw (σ.core.handler.close s) (.deleting s)]
    exact .close w s ((Pooled.view_worker hw).trans htask)
  | delete w s hw htask hloop =>
    right
    rw [view_closing hw (σ.core.handler.delete s) .idle]
    exact .delete w s ((Pooled.view_worker hw).trans htask) fun hstuck =>
      hloop (Pooled.loopView_stuck hstuck)

theorem coherent_reachable {server : Site} {σ : Deployed W S}
    (h : (system server W S).Reachable σ) : σ.core.Coherent :=
  h.invariant (P := fun σ => σ.core.Coherent) (fun _ => Pooled.coherent_start)
    fun _ _ _ hc hstep => (core_step hstep).elim (fun hsame => hsame ▸ hc)
      fun ⟨_, hcore⟩ => Pooled.coherent_step hcore hc

/-- Behind a run of the deployed server there is a run of `Serving`. -/
theorem reachable_view {server : Site} {σ : Deployed W S} (h : (system server W S).Reachable σ) :
    (Serving.system server W S).Reachable σ.view := by
  have hboth := h.invariant
    (P := fun σ => σ.core.Coherent ∧ (Serving.system server W S).Reachable σ.view)
    (fun _ hstart => ⟨Pooled.coherent_start hstart,
      (System.Trace.nil (Pooled.view_start hstart)).reachable⟩)
    (fun σ _ σ' hpair hstep => ⟨(core_step hstep).elim (fun hsame => hsame ▸ hpair.1)
      fun ⟨_, hcore⟩ => Pooled.coherent_step hcore hpair.1, ?_⟩)
  · exact hboth.2
  rcases view_step hstep hpair.1 with hsame | hview
  · rw [hsame]
    exact hpair.2
  · obtain ⟨tr, htr⟩ := hpair.2
    exact (htr.snoc (a := ()) hview).reachable

/-- What a client reads of a conversation, with the tasks on the thread pool. -/
theorem heard_on_pool [Fintype W] {server : Site} (hsite : server.Composes) {σ : Deployed W S}
    (h : (system server W S).Reachable σ) {s : S} (hs : s ∉ σ.core.handler.pool.idle)
    {ms : List Message} (haligned : Message.Aligned ms (σ.accepted s).socket.deliveries)
    (hne : ∀ c ∈ (σ.accepted s).socket.deliveries, c ≠ []) :
    ∃ first rest reads part, ms = first ++ rest ∧ List.Forall₂ server.Hears first reads ∧
      receive first.length (σ.link s).wire.sent = some (reads, part) ∧
      Serving.Begins server rest part ∧ (s ∈ σ.core.handler.watched → part = []) := by
  obtain ⟨first, rest, reads, part, hsplit, hhears, hreceive, hbegins, hwaits⟩ :=
    (Serving.serial_reachable (reachable_view h)).hears hsite hs haligned hne
  exact ⟨first, rest, reads, part, hsplit, hhears, hreceive, hbegins,
    fun hwatched => hwaits (.inl hwatched)⟩

/-! ## When the server is idle -/

/-- Steps of the event loop and the tasks that get what they ask for. -/
def granted (server : Site) (W S : Type) [DecidableEq W] [DecidableEq S] :
    System (Deployed W S) Unit where
  init σ := σ.core.Start
  step σ _ σ' := Step server σ σ' ∧
    (σ'.core.view ≠ σ.core.view → EventLoop.Granted σ.core.view σ'.core.view)

/-- The loop waits, no worker has a task, and the kernel has nothing to report. -/
structure Idle (σ : Deployed W S) : Prop where
  loop : σ.core.loop = .waiting
  queue : σ.core.pool.tasks = []
  worker : ∀ w, σ.core.view.worker w = .idle
  heard : ∀ r ∈ σ.core.handler.epoll.interest, r.armed = true →
    (σ.link r.ptr).socket.deliveries = []

theorem kept_reachable [Fintype W] {server : Site} {σ : Deployed W S}
    (h : (granted server W S).Reachable σ) : (system server W S).Reachable σ ∧
      σ.core.view.Owned ∧ σ.core.view.Open ∧
      σ.core.view.handler.Complete σ.core.view.inHand σ.core.view.loop.pending := by
  refine h.invariant (P := fun σ => (system server W S).Reachable σ ∧ σ.core.view.Owned ∧
    σ.core.view.Open ∧ σ.core.view.handler.Complete σ.core.view.inHand σ.core.view.loop.pending)
    (fun σ hstart => ?_) ?_
  · have hinit : (system server W S).Trace [] σ := .nil hstart
    exact ⟨hinit.reachable, EventLoop.kept_start (Pooled.view_start hstart)⟩
  · rintro σ - σ' ⟨⟨tr, htr⟩, hkept⟩ ⟨hstep, hgranted⟩
    refine ⟨(htr.snoc (a := ()) hstep).reachable, ?_⟩
    by_cases hsame : σ'.core.view = σ.core.view
    · rwa [hsame]
    · rcases core_step hstep with hcore | ⟨a, hcore⟩
      · exact absurd (congrArg Pooled.view hcore) hsame
      · have hview := (Pooled.view_step hcore (coherent_reachable ⟨tr, htr⟩)).resolve_left hsame
        exact EventLoop.kept_step hview (hgranted hsame) hkept

/-- The connections of an idle server are all registered, to be heard again. -/
theorem Idle.registered [Fintype W] {server : Site} {σ : Deployed W S} (hidle : σ.Idle)
    (h : (granted server W S).Reachable σ) {s : S} (hs : s ∉ σ.core.handler.pool.idle) :
    ⟨σ.core.handler.sockfd s, s, true⟩ ∈ σ.core.handler.epoll.interest := by
  obtain ⟨-, hown, hopen, H⟩ := kept_reachable h
  have hloop : σ.core.view.loop = .waiting := by simp [Pooled.view, hidle.loop, Pooled.loopView]
  have htasks : σ.core.view.tasks = 0 := by
    have hqueue : σ.core.view.queue = [] := hidle.queue
    rw [EventLoop.tasks, hqueue, total_eq_zero fun w => by rw [hidle.worker w]; rfl]
    rfl
  exact (EventLoop.nothingLost_of_kept hown hopen H).at_rest hloop s hs
    (by rw [htasks]; exact Multiset.notMem_zero s)

/-- When the server is idle, every client has got the answers to all of its requests. -/
theorem all_answered [Fintype W] {server : Site} (hsite : server.Composes) {σ : Deployed W S}
    (h : (granted server W S).Reachable σ) (hidle : σ.Idle) {s : S}
    (hs : s ∉ σ.core.handler.pool.idle) {ms : List Message}
    (haligned : Message.Aligned ms (σ.accepted s).socket.deliveries)
    (hne : ∀ c ∈ (σ.accepted s).socket.deliveries, c ≠ []) :
    ∃ reads, List.Forall₂ server.Hears ms reads ∧
      receive ms.length (σ.link s).wire.sent = some (reads, []) := by
  have hregistered := hidle.registered h hs
  exact (Serving.serial_reachable (reachable_view (kept_reachable h).1)).answered hsite hs
    (.inl (SocketHandler.Owns.mem_watched hregistered)) (hidle.heard _ hregistered rfl) haligned hne

/-! ## One request on one connection -/

/-- A worker that has the calls of a task to itself makes them. -/
theorem granted_under {server : Site} {σ : Deployed W S} (h : (granted server W S).Reachable σ)
    {w : W} {s : S} (hw : σ.core.pool.worker w = .running s) (htask : σ.core.task w = .running s)
    (hreading : σ.task w = .reading) {pc : TaskPc} {l : Link}
    (hunder : Under server (σ.link s) pc l) : (granted server W S).Reachable
      { σ with task := update σ.task w pc, link := update σ.link s l } := by
  induction hunder with
  | start => simpa [← hreading] using h
  | step _ hstep ih =>
    obtain ⟨tr, htr⟩ := ih
    have hcall := htr.snoc (a := ())
      ⟨.call w s _ _ hw htask (by simpa using hstep), fun hne => absurd rfl hne⟩
    simpa using hcall.reachable

/-- One connection, one request, one worker. -/
theorem granted_hello : ∃ σ : Deployed Unit Unit,
    (granted Serving.greeter Unit Unit).Reachable σ ∧ σ.Idle ∧
      () ∈ σ.core.handler.watched ∧ () ∉ σ.core.handler.pool.idle ∧
      σ.accepted () = Serving.helloLink := by
  obtain ⟨l, hunder, hheard⟩ := Serving.under_helloLink
  let start : Deployed Unit Unit :=
    ⟨⟨⟨⟨[()], 0, 1⟩, fun _ => 0, ⟨[]⟩, []⟩, .waiting, ThreadPool.initial, fun _ => .idle⟩,
      fun _ => .reading, fun _ => Serving.helloLink, fun _ => Serving.helloLink⟩
  have hstart : (granted Serving.greeter Unit Unit).Trace [] start :=
    .nil ⟨rfl, ⟨by decide, by decide, rfl, rfl, rfl, fun _ => rfl⟩⟩
  have hwait := hstart.snoc (a := ())
    ⟨.loop _ (.loop _ _ rfl (.wait [] [.listening] rfl (by simp) (by simp) rfl)) (fun _ hs => hs),
      fun _ => .of_plain rfl rfl fun _ => .inr rfl⟩
  have haccept := hwait.snoc (a := ())
    ⟨.loop _ (.loop _ _ rfl (.accept 4 [] rfl (by simp [start, Pooled.bare]))) (fun _ hs => hs),
      fun _ => .of_accept rfl rfl (by decide) rfl⟩
  have hslot := haccept.snoc (a := ())
    ⟨.connect 4 [] () ⟨[], 1, 1⟩ Serving.helloLink rfl rfl rfl rfl,
      fun _ => .of_slot rfl rfl rfl⟩
  have hattach := hslot.snoc (a := ())
    ⟨.loop _ (.loop _ _ rfl (.attach () [] true rfl)) (fun _ hs => hs),
      fun _ => .of_attach rfl rfl rfl rfl⟩
  have hover := hattach.snoc (a := ())
    ⟨.loop _ (.loop _ _ rfl (.finish rfl)) (fun _ hs => hs),
      fun _ => .of_plain rfl rfl fun _ => .inr rfl⟩
  have hreport := hover.snoc (a := ())
    ⟨.loop _ (.loop _ _ rfl (.wait [⟨4, (), true⟩] [.client () ⟨false, false, true, rfl⟩] rfl
      (by decide) (by decide) rfl)) (fun _ hs => hs),
      fun _ => .of_plain rfl rfl fun _ => .inr rfl⟩
  have hdetach := hreport.snoc (a := ())
    ⟨.loop _ (.loop _ _ rfl (.detach () ⟨false, false, true, rfl⟩ [] rfl)) (fun _ hs => hs),
      fun _ => .of_plain rfl rfl fun _ => .inr rfl⟩
  have hcall := hdetach.snoc (a := ())
    ⟨.pool (.call ()) _ (by simp) (.call () [] _ rfl (.call () () rfl)),
      fun _ => .of_plain rfl rfl fun _ => .inr rfl⟩
  have hacquire := hcall.snoc (a := ())
    ⟨.pool .silent _ (by simp) (.pool _ _ rfl (.acquire () (t := ()) rfl rfl)),
      fun _ => .of_plain rfl rfl fun _ => .inr rfl⟩
  have hpush := hacquire.snoc (a := ())
    ⟨.pool (.push ()) _ (by simp) (.pool _ _ rfl (.push () rfl rfl)),
      fun _ => .of_plain rfl rfl fun _ => .inr rfl⟩
  have hrelease := hpush.snoc (a := ())
    ⟨.pool .silent _ (by simp) (.pool _ _ rfl (.release () (t := ()) rfl)),
      fun _ => .of_plain rfl rfl fun _ => .inr rfl⟩
  have hreturned := hrelease.snoc (a := ())
    ⟨.pool (.returned ()) _ (by simp) (.returned () [] _ rfl
      (.notifyNone () rfl (by simp [start, ThreadPool.initial]))),
      fun _ => .of_plain rfl rfl fun _ => .inr rfl⟩
  have hfinish := hreturned.snoc (a := ())
    ⟨.loop _ (.loop _ _ rfl (.finish rfl)) (fun _ hs => hs),
      fun _ => .of_plain rfl rfl fun _ => .inr rfl⟩
  have hlock := hfinish.snoc (a := ())
    ⟨.pool .silent _ (by simp) (.pool _ _ rfl (.lock () (.inl rfl) rfl)),
      fun _ => .of_plain rfl rfl fun _ => .inr rfl⟩
  have htake := hlock.snoc (a := ())
    ⟨.pool (.dequeue ()) _ (by simp) (.pool _ _ rfl (.take () rfl rfl)),
      fun _ => .of_plain rfl rfl fun _ => .inl rfl⟩
  have hunlock := htake.snoc (a := ())
    ⟨.pool .silent _ (by simp) (.pool _ _ rfl (.unlock () (t := ()) rfl)),
      fun _ => .of_plain rfl rfl fun _ => .inr rfl⟩
  have hbegin := hunlock.snoc (a := ())
    ⟨.start () () rfl, fun _ => .of_plain rfl rfl fun _ => .inr rfl⟩
  obtain ⟨tr, hserved⟩ := granted_under hbegin.reachable (w := ()) (s := ()) rfl rfl rfl hunder
  have hback := hserved.snoc (a := ())
    ⟨.attach () () true rfl rfl rfl, fun _ => .of_reattach (w := ()) (s := ()) rfl
      (by simp [Pooled.view, Pooled.loopView, EventLoop.LoopPc.arriving]) rfl
      (funext fun _ => rfl) rfl⟩
  refine ⟨_, hback.reachable, ⟨rfl, rfl, fun _ => rfl, fun _ _ _ => hheard⟩, ?_,
    List.not_mem_nil, rfl⟩
  exact SocketHandler.mem_watched_iff.mpr ⟨⟨4, (), true⟩, List.mem_singleton.mpr rfl, rfl⟩

theorem heard_on_pool_hello : ∃ σ : Deployed Unit Unit, () ∈ σ.core.handler.watched ∧
    ∃ first rest reads part, [Message.hello] = first ++ rest ∧
      List.Forall₂ Serving.greeter.Hears first reads ∧
      receive first.length (σ.link ()).wire.sent = some (reads, part) ∧
      Serving.Begins Serving.greeter rest part ∧ (() ∈ σ.core.handler.watched → part = []) := by
  obtain ⟨σ, hgranted, -, hwatched, hidle, haccepted⟩ := granted_hello
  exact ⟨σ, hwatched, heard_on_pool Serving.composes_greeter (kept_reachable hgranted).1 hidle
    (by rw [haccepted]; exact Serving.aligned_helloLink)
    (by rw [haccepted]; exact Serving.nonempty_helloLink)⟩

theorem all_answered_hello : ∃ σ : Deployed Unit Unit, σ.Idle ∧
    ∃ reads, List.Forall₂ Serving.greeter.Hears [Message.hello] reads ∧
      receive 1 (σ.link ()).wire.sent = some (reads, []) := by
  obtain ⟨σ, hgranted, hidle, -, hs, haccepted⟩ := granted_hello
  exact ⟨σ, hidle, all_answered Serving.composes_greeter hgranted hidle hs
    (by rw [haccepted]; exact Serving.aligned_helloLink)
    (by rw [haccepted]; exact Serving.nonempty_helloLink)⟩

end

end Deployed
end Calabash
