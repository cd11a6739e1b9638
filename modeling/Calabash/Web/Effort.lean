import Calabash.Socket.Effort
import Calabash.Web.Attended

/-!
# Runs that end

How much a server still has to do that nothing new comes to. A report costs more than it takes to
hand over its socket, a registration more than its next report, a response more than its
registration; but a response is only written to a request, and the requests get fewer.

## Main results

* `effort_step` — what the loop does to its events and registrations.
* `work_lowers` — what a step of any thread does to the whole.
-/

namespace Calabash

open Function (update)

/-! ## The loop -/

/-- The loop comes to the end of its events, and only clients set it going again. -/
theorem EventLoop.effort_step {W S : Type} [DecidableEq W] [DecidableEq S] {σ σ' : EventLoop W S}
    (hstep : Step σ σ') (hworker : σ'.worker = σ.worker) (hqueue : σ'.queue = σ.queue)
    (hlistening : σ.loop = .waiting → .listening ∉ σ'.loop.events)
    (hempty : σ.loop = .waiting → σ'.loop ≠ .batch []) :
    σ'.loop.arrivals < σ.loop.arrivals ∨ σ'.loop.arrivals ≤ σ.loop.arrivals ∧
      σ'.loop.effort + 67 * σ'.handler.epoll.armed <
        σ.loop.effort + 67 * σ.handler.epoll.armed := by
  rcases effort_cases hstep hworker hqueue with ⟨hloop, es, hbatch, harmed⟩ | hless | hless
  · right
    have hsome : ∀ e ∈ es, e.socket?.isSome = true := by
      rintro (_ | ⟨s, ready⟩) hmem
      · exact absurd (hbatch ▸ hmem) (hlistening hloop)
      · rfl
    have hclients : es.countP (·.socket?.isNone) = 0 := by
      rw [List.countP_eq_zero]
      intro e hmem
      simp [Option.ne_none_iff_isSome.mpr (hsome e hmem)]
    have hpos : es ≠ [] := fun hnil => hempty hloop (by rw [hbatch, hnil])
    have hlong := List.length_pos_iff.mpr hpos
    rw [List.filterMap_length_eq_length.mpr hsome] at harmed
    simp only [hloop, hbatch, LoopPc.arrivals, LoopPc.events, LoopPc.effort, hclients,
      List.countP_nil]
    omega
  · exact .inl hless.1
  · exact .inr ⟨hless.1, hless.2.2⟩

/-! ## The tasks -/

/-- Whether a task has a request that it has not answered yet. -/
def TaskPc.asked : TaskPc → ℕ
  | .body _ _ _ | .handling _ => 1
  | _ => 0

/-- A bound on the steps of a task that reads and answers nothing more, and on what follows from
the registration at its end. -/
def TaskPc.effort : TaskPc → ℕ
  | .threw _ | .handling _ => 1
  | .body _ _ _ => 2
  | .released .remove => 3
  | .reading => 4
  | .released .attach => 68
  | .sending _ _ reads _ => reads.length + 69

/-- What the client has yet to say. -/
def Link.unread (l : Link) : ℕ := l.socket.deliveries.length

theorem TaskPc.asked_le (pc : TaskPc) : pc.asked ≤ 1 := by
  cases pc <;> simp [asked]

/-- `recv` takes one delivery, if there is any. -/
theorem unread_recv {l : Link} {next : Socket} {chunk : Bytes} (h : l.socket.recv = (chunk, next)) :
    Link.unread { l with socket := next } ≤ l.unread ∧
      (chunk ≠ [] → Link.unread { l with socket := next } < l.unread) := by
  obtain ⟨⟨ip, deliveries, fits⟩, wire⟩ := l
  cases deliveries with
  | nil =>
    cases h
    exact ⟨le_rfl, fun hne => absurd rfl hne⟩
  | cons c rest =>
    cases h
    exact ⟨Nat.le_succ _, fun _ => Nat.lt_succ_self _⟩

/-- A step reads, or comes to an answer, or only goes on. -/
theorem TaskStep.effort {server : Site} {pc pc' : TaskPc} {l l' : Link}
    (h : TaskStep server pc l pc' l') :
    2 * l'.unread + pc'.asked < 2 * l.unread + pc.asked ∨
      2 * l'.unread + pc'.asked ≤ 2 * l.unread + pc.asked ∧
        pc'.effort + l'.wire.answers.length < pc.effort + l.wire.answers.length := by
  cases h with
  | closed hrecv =>
    have hread := (unread_recv hrecv).1
    right
    simp only [TaskPc.asked, TaskPc.effort]
    omega
  | opened stale _ hrecv hne =>
    have hread := (unread_recv hrecv).2 hne
    have hasked := pc'.asked_le
    left
    omega
  | garbled stale _ hrecv hne =>
    have hread := (unread_recv hrecv).2 hne
    left
    simp only [TaskPc.asked]
    omega
  | full =>
    right
    simp [TaskPc.asked, TaskPc.effort]
  | more _ hrecv hne =>
    have hread := (unread_recv hrecv).2 hne
    left
    simp only [TaskPc.asked]
    omega
  | broken _ hrecv =>
    have hread := (unread_recv hrecv).1
    left
    simp only [TaskPc.asked]
    omega
  | answer | raise =>
    left
    simp [TaskPc.asked]
  | send | again | read =>
    right
    simp [TaskPc.asked, TaskPc.effort, Link.unread]
  | @log _ reads logged =>
    right
    cases logged <;> simp [TaskPc.asked, TaskPc.effort]

/-- A bound on the steps of a worker in its task. -/
def workerEffort {S : Type} : EventLoop.WorkerPc S × TaskPc → ℕ
  | (.idle, _) => 0
  | (.deleting _, _) => 1
  | (.closing _, _) => 2
  | (.running _, pc) => pc.effort

/-! ## The whole -/

namespace Deployed
variable {W S : Type} [DecidableEq W] [DecidableEq S] {server : Site}

/-- A step that nothing new has brought about: neither a connection, nor an `epoll_wait` that
returns for nothing, nor a worker that wakes up for nothing. -/
structure Busy (server : Site) (σ σ' : Deployed W S) : Prop where
  step : Step server σ σ'
  attends : Attends σ σ'
  connections : σ.core.loop = .waiting → .listening ∉ σ'.core.loop.events
  reports : σ.core.loop = .waiting → σ'.core.loop ≠ .batch []
  wakeups : ∀ w, σ.core.pool.worker w = .waiting → σ'.core.pool.worker w = .waking →
    σ'.core.pool.producer () ≠ σ.core.pool.producer ()

variable [Fintype W] [Fintype S]

/-- What is left to do: connections to take in, requests to read and to answer, and what follows
from the answers. -/
def work (σ : Deployed W S) : ℕ × ℕ × ℕ :=
  (σ.core.loop.arrivals,
    2 * total Link.unread σ.link + total TaskPc.asked σ.task,
    σ.core.pool.effort + (σ.core.loop.effort + 67 * σ.core.handler.epoll.armed) +
      total workerEffort (fun w => (σ.core.task w, σ.task w)) +
      total (fun l : Link => l.wire.answers.length) σ.link)

omit [DecidableEq S] [Fintype S] in
/-- What a worker in its task adds to the sum over all of them. -/
theorem total_workerEffort (f : W → EventLoop.WorkerPc S) (g : W → TaskPc) (w : W)
    (pc : EventLoop.WorkerPc S) (pc' : TaskPc) :
    total workerEffort (fun v => (update f w pc v, update g w pc' v)) + workerEffort (f w, g w) =
      total workerEffort (fun v => (f v, g v)) + workerEffort (pc, pc') := by
  have hpair : (fun v => (update f w pc v, update g w pc' v)) =
      update (fun v => (f v, g v)) w (pc, pc') := by
    funext v
    by_cases hvw : v = w
    · subst hvw
      simp
    · simp [hvw]
  rw [hpair]
  exact total_update workerEffort _ w _

omit [DecidableEq S] in
/-- A worker that goes on in the end of its task. -/
theorem lowers_of_worker {σ : Deployed W S} {w : W} {handler : SocketHandler S}
    {pc : EventLoop.WorkerPc S}
    (h : workerEffort (pc, σ.task w) + 67 * handler.epoll.armed <
      workerEffort (σ.core.task w, σ.task w) + 67 * σ.core.handler.epoll.armed) :
    Lowers (work { σ with core := { σ.core with
      handler := handler, task := update σ.core.task w pc } }) σ.work := by
  have hworker := total_workerEffort σ.core.task σ.task w pc (σ.task w)
  rw [Function.update_eq_self] at hworker
  refine .inr ⟨le_rfl, .inr ⟨le_rfl, ?_⟩⟩
  simp only [work]
  omega

/-- Every step has less to be done after it. -/
theorem work_lowers {σ σ' : Deployed W S} (h : Busy server σ σ')
    (hstop : σ.core.pool.stop = false) : Lowers σ'.work σ.work := by
  have hstep := h.step
  cases hstep with
  | loop core hcore hidle =>
    cases hcore with
    | loop handler loop hproducer hloop =>
      rcases EventLoop.effort_step hloop rfl rfl h.connections h.reports with hless | ⟨hle, hless⟩
      · exact .inl hless
      · refine .inr ⟨hle, .inr ⟨le_rfl, ?_⟩⟩
        have hmore : loop.effort + 67 * handler.epoll.armed <
          σ.core.loop.effort + 67 * σ.core.handler.epoll.armed := hless
        simp only [work]
        omega
  | connect fd es s pool l hproducer hloop halloc =>
    left
    simp [work, hloop, EventLoop.LoopPc.arrivals, EventLoop.LoopPc.events]
  | pool e core hstart hcore =>
    cases hcore with
    | call s es pool hloop hpool =>
      have hless := ThreadPool.effort_call hpool
      refine .inr ⟨le_rfl, .inr ⟨le_rfl, ?_⟩⟩
      simp only [work]
      omega
    | returned s es pool hloop hpool =>
      have hless := ThreadPool.effort_returned hpool
      refine .inr ⟨?_, .inr ⟨le_rfl, ?_⟩⟩
      · simp [work, hloop, EventLoop.LoopPc.arrivals, EventLoop.LoopPc.events]
      · simp only [work, hloop, EventLoop.LoopPc.effort]
        omega
    | pool e pool he hpool =>
      have hspurious : e ≠ .spurious := by
        rintro rfl
        cases hpool with
        | spurious w hw => exact h.wakeups w hw (Function.update_self ..) rfl
      have hless := ThreadPool.effort_within hpool he hspurious hstop
      refine .inr ⟨le_rfl, .inr ⟨le_rfl, ?_⟩⟩
      simp only [work]
      omega
    | start w s hw => exact absurd rfl (hstart s)
    | finish w s how hw htask =>
      have hless := ThreadPool.work_step (.finish w how hw) rfl
      refine .inr ⟨le_rfl, .inr ⟨le_rfl, ?_⟩⟩
      simp only [work, ThreadPool.effort]
      omega
  | start w s hw =>
    have hless := ThreadPool.work_step (.start w hw) rfl
    have hasked := total_update TaskPc.asked σ.task w .reading
    have htask := total_workerEffort σ.core.task σ.task w (.running s) .reading
    simp only [TaskPc.asked, workerEffort, TaskPc.effort] at hasked htask
    refine .inr ⟨le_rfl, .inr ⟨?_, ?_⟩⟩
    · simp only [work]
      omega
    · simp only [work, ThreadPool.effort] at hless ⊢
      omega
  | call w s pc l hw htask hcall =>
    have hunread := total_update Link.unread σ.link s l
    have hanswers := total_update (fun l : Link => l.wire.answers.length) σ.link s l
    have hasked := total_update TaskPc.asked σ.task w pc
    have hworker := total_workerEffort σ.core.task σ.task w (σ.core.task w) pc
    rw [Function.update_eq_self] at hworker
    simp only [htask, workerEffort] at hworker hanswers
    rcases hcall.effort with hless | ⟨hle, hless⟩
    · refine .inr ⟨le_rfl, .inl ?_⟩
      simp only [work]
      omega
    · refine .inr ⟨le_rfl, .inr ⟨?_, ?_⟩⟩
      · simp only [work]
        omega
      · simp only [work]
        omega
  | attach w s admits hw htask hover =>
    have harmed := EventPoller.armed_add σ.core.handler.epoll (σ.core.handler.sockfd s) s admits
    refine lowers_of_worker ?_
    simp only [htask, hover, workerEffort, TaskPc.effort, SocketHandler.attach_epoll]
    omega
  | remove w s hw htask hover | escape w s e hw htask hover =>
    refine lowers_of_worker ?_
    simp [htask, hover, workerEffort, TaskPc.effort]
  | close w s hw htask | delete w s hw htask hloop =>
    have harmed := σ.core.handler.armed_close s
    refine lowers_of_worker ?_
    simp only [htask, workerEffort, SocketHandler.delete_epoll]
    omega

end Deployed

end Calabash
