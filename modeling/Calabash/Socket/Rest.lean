import Calabash.Socket.Effort

/-!
# Coming to rest

A wakeup that is lost in the pool, or a registration that is not armed again, would leave a
connection with nobody to serve it. As long as the kernel, the object pool and the tasks do their
part there is none: `Benign` says so of the event loop with its queue, and the pool starts every
task that it was given.

## Main results

* `load_step` — what the threads have to do up to the next event from outside.
* `comes_to_rest` — when they have done it, every connection can be heard.
-/

namespace Calabash
namespace Pooled
variable {W S : Type} [DecidableEq W] [DecidableEq S]

open Function (update)

/-- What the threads do by themselves: no return of `epoll_wait`, and no spurious wakeup. -/
def own (σ : Pooled W S) (a : Label S) : Prop :=
  (a = .loop → σ.loop ≠ .waiting) ∧ a ≠ .pool .spurious

/-- The handler on its pool, up to the next event from outside. -/
def inside (W S : Type) [DecidableEq W] [DecidableEq S] : System (Pooled W S) (Label S) :=
  (system W S).guarded own

/-- No thread can take a step by itself. -/
def AtRest (σ : Pooled W S) : Prop := ∀ a σ', ¬ (inside W S).step σ a σ'

/-- A bound on the steps in which a task ends. -/
def taskWork : EventLoop.WorkerPc S → ℕ
  | .idle => 0
  | .deleting _ => 1
  | .closing _ => 2
  | .running _ => 3

/-- A bound on the steps up to the next event from outside: of the pool, of the loop with the
connections that it takes in, and of the tasks. -/
def load [Fintype W] (σ : Pooled W S) : ℕ :=
  σ.pool.effort + (68 * σ.loop.arrivals + σ.loop.effort) + total taskWork σ.task

omit [DecidableEq W] [DecidableEq S] in
theorem own_of_pool {σ : Pooled W S} {e : ThreadPool.Event S} (he : e ≠ .spurious) :
    own σ (.pool e) := ⟨by simp, by simpa using he⟩

theorem load_step [Fintype W] {σ σ' : Pooled W S} {a : Label S} (hstep : Step σ a σ')
    (ha : own σ a) (hstop : σ.pool.stop = false) : σ'.load + 1 ≤ σ.load := by
  cases hstep with
  | loop handler loop hproducer hloop =>
    have heffort : 68 * loop.arrivals + loop.effort < 68 * σ.loop.arrivals + σ.loop.effort := by
      rcases EventLoop.effort_cases hloop rfl rfl with ⟨hwaiting, -⟩ | hless | hless
      · exact absurd hwaiting (ha.1 rfl)
      · simp only [bare] at hless
        omega
      · simp only [bare] at hless
        omega
    simp only [load]
    omega
  | call s es pool hloop hpool =>
    have heffort := ThreadPool.effort_call hpool
    simp only [load]
    omega
  | returned s es pool hloop hpool =>
    have heffort := ThreadPool.effort_returned hpool
    simp only [load, hloop, EventLoop.LoopPc.arrivals, EventLoop.LoopPc.events,
      EventLoop.LoopPc.effort]
    omega
  | pool e pool he hpool =>
    have heffort := ThreadPool.effort_within hpool he (fun heq => ha.2 (by rw [heq])) hstop
    simp only [load]
    omega
  | start w s hw =>
    have hwork := ThreadPool.work_step (.start w hw) rfl
    have htask := total_update taskWork σ.task w (.running s)
    simp only [load, ThreadPool.effort] at hwork ⊢
    simp only [taskWork] at htask
    omega
  | task w s handler pc hw hpc htask =>
    have htotal := total_update taskWork σ.task w pc
    have hless : taskWork pc + 1 ≤ taskWork (σ.task w) := by
      obtain ⟨t, hcase⟩ := htask.task_cases hpc
      rcases hcase with ⟨hfrom, rfl, -⟩ | ⟨hfrom, rfl, -⟩ | ⟨hfrom, rfl, -⟩ | ⟨hfrom, rfl, -⟩
      all_goals
        rw [hfrom]
        simp [taskWork]
    simp only [load]
    omega
  | finish w s how hw htask =>
    have hwork := ThreadPool.work_step (.finish w how hw) rfl
    simp only [load, ThreadPool.effort] at hwork ⊢
    omega

/-! ## At rest -/

section
variable {σ : Pooled W S}

theorem AtRest.no_step (h : AtRest σ) {a : Label S} {σ' : Pooled W S} (hstep : Step σ a σ')
    (ha : own σ a) : False := h a σ' ⟨hstep, ha⟩

/-- A task can always go on. -/
theorem AtRest.not_running (h : AtRest σ) (hstuck : σ.loop ≠ .stuck) (w : W) (s : S) :
    σ.pool.worker w ≠ .running s := by
  intro hw
  have htask : own σ .task := ⟨by simp, by simp⟩
  cases hpc : σ.task w with
  | idle => exact h.no_step (.finish w s .returned hw hpc) (own_of_pool (by simp))
  | running t =>
    exact h.no_step (.task w s σ.handler .idle hw (by simp [hpc]) (.escape w t hpc)) htask
  | closing t =>
    exact h.no_step (.task w s (σ.handler.close t) (.deleting t) hw (by simp [hpc])
      (.closeTask w t hpc)) htask
  | deleting t =>
    exact h.no_step (.task w s (σ.handler.delete t) .idle hw (by simp [hpc])
      (.deleteTask w t hpc hstuck)) htask

/-- The pool is at rest with them. -/
theorem AtRest.pool (h : AtRest σ) (hc : σ.Coherent) (hstuck : σ.loop ≠ .stuck) :
    ThreadPool.AtRest σ.pool := by
  intro e pool hpool
  by_contra hext
  have he : e ≠ .spurious := by
    rintro rfl
    exact hext rfl
  have hinside : within e = true → False := fun hwithin =>
    h.no_step (.pool e pool hwithin hpool) (own_of_pool he)
  cases hpool with
  | finish w how hw => exact h.not_running hstuck w _ hw
  | start w hw => exact h.no_step (.start w _ hw) (own_of_pool he)
  | call | destroy => exact hext rfl
  | @notifyOne p s w hp hw =>
    obtain ⟨es, hloop⟩ := hc.enqueue s (by simp [asked, hp])
    exact h.no_step (.returned s es _ hloop (.notifyOne p w hp hw)) (own_of_pool he)
  | @notifyNone p s hp hw =>
    obtain ⟨es, hloop⟩ := hc.enqueue s (by simp [asked, hp])
    exact h.no_step (.returned s es _ hloop (.notifyNone p hp hw)) (own_of_pool he)
  | _ => exact hinside rfl

/-- The loop has come to its next `epoll_wait`. -/
theorem AtRest.loop (h : AtRest σ) (hproducer : σ.pool.producer () = .idle)
    (hstuck : σ.loop ≠ .stuck) : σ.loop = .waiting := by
  have hview := loop_of_producer hproducer
  by_contra hwaiting
  have hown : own σ .loop := ⟨fun _ => hwaiting, by simp⟩
  have hgo : ∀ handler loop,
      EventLoop.Step σ.bare ⟨handler, loop, σ.pool.tasks, σ.task⟩ → False :=
    fun handler loop hstep => h.no_step (.loop handler loop hproducer hstep) hown
  cases hloop : σ.loop with
  | waiting => exact hwaiting hloop
  | stuck => exact hstuck hloop
  | batch es =>
    obtain ⟨handler, loop, hstep, -⟩ := EventLoop.exists_granted (.inl ⟨es, hview.trans hloop⟩)
    exact h.no_step (.of_view hproducer hstep) hown
  | attaching s es =>
    obtain ⟨handler, loop, hstep, -⟩ := EventLoop.exists_granted (.inr ⟨s, es, hview.trans hloop⟩)
    exact h.no_step (.of_view hproducer hstep) hown
  | accepted fd es =>
    cases halloc : σ.handler.pool.allocate with
    | null => exact hgo _ _ (.null fd es hloop halloc)
    | stuck => exact hgo _ _ (.stuck fd es hloop halloc)
    | slot s pool => exact hgo _ _ (.slot fd es s pool hloop halloc)
  | closing s es => exact hgo _ _ (.close s es hloop)
  | deleting s es => exact hgo _ _ (.delete s es hloop)
  | queueing s es =>
    exact h.no_step (.call s es _ hloop (.call () s hproducer)) (own_of_pool (by simp))

/-- The loop waits, nobody is in a task, and none is queued. -/
theorem AtRest.idle [Fintype W] [Nonempty W] {tr : List (Label S)} (h : AtRest σ)
    (htrace : (system W S).Trace tr σ) (hstuck : σ.loop ≠ .stuck) :
    σ.loop = .waiting ∧ σ.view.tasks = 0 := by
  have hc := coherent_trace htrace
  have hpool := h.pool hc hstuck
  have hreach := (trace_pool htrace).reachable
  have hx := ThreadPool.exclusive_reachable hreach
  refine ⟨h.loop (hpool.producer hx ()) hstuck, ?_⟩
  have hqueue : σ.view.queue = [] :=
    hpool.tasks hx (ThreadPool.covered_reachable hreach) (ThreadPool.leavesEmpty_reachable hreach)
  have hworker : ∀ w, (σ.view.worker w).holds = 0 := by
    intro w
    have hidle : σ.task w = .idle := hc.task w (h.not_running hstuck w)
    rcases hpool.worker hx w with hw | hw <;> simp [view, hw, workerView, hidle,
      EventLoop.WorkerPc.holds]
  rw [EventLoop.tasks, hqueue, total_eq_zero hworker]
  rfl

/-! ## Runs in which nothing is lost -/

/-- A loop that gets its slots keeps every connection. -/
theorem kept_granted [Fintype W] {tr : List (Label S)} (h : (granted W S).Trace tr σ) :
    σ.view.loop ≠ .stuck ∧ σ.view.Owned ∧ σ.view.Open ∧
      σ.view.handler.Complete σ.view.inHand σ.view.loop.pending := by
  obtain ⟨σ₀, h₀, hrun⟩ := h
  induction hrun with
  | nil =>
    have hstart := view_start h₀
    exact ⟨by simp [hstart.loop], EventLoop.kept_start hstart⟩
  | @snoc σ σ' tr a hrun hstep ih =>
    by_cases hsame : σ'.view = σ.view
    · rwa [hsame]
    · have hc := coherent_trace (trace_of_granted ⟨σ₀, h₀, hrun⟩)
      have hview := (view_step hstep.1 hc).resolve_left hsame
      have hgranted := hstep.2 hsame
      exact ⟨hgranted.not_stuck hview ih.1, EventLoop.kept_step hview hgranted ih.2⟩

end

/-- The threads take a bounded number of steps up to the next event from outside. When they can take
no more of them, the loop waits for events, and every socket in use is registered with its own
descriptor and can be heard. -/
structure ComesToRest [Fintype W] (σ : Pooled W S) : Prop where
  bounded : ∀ more τ, (inside W S).Run σ more τ → more.length ≤ σ.load
  heard : ∀ more τ, ((granted W S).guarded own).Run σ more τ → AtRest τ →
    τ.loop = .waiting ∧ ∀ s, s ∉ τ.handler.pool.idle →
      ⟨τ.handler.sockfd s, s, true⟩ ∈ τ.handler.epoll.interest

variable {σ : Pooled W S}

theorem run_bounded [Fintype W] {more : List (Label S)} {τ : Pooled W S}
    (h : (system W S).Reachable σ) (hrun : (inside W S).Run σ more τ) :
    more.length ≤ σ.load := by
  have hbound := (hrun.length_add_le (P := (system W S).Reachable)
    (fun _ _ _ hreach hstep => hreach.snoc (And.left hstep))
    (fun _ _ _ hreach hstep => load_step (And.left hstep) (And.right hstep) (stop_eq_false hreach))
    h).2
  omega

/-- In a run in which the kernel, the object pool and the tasks do their part, no connection is
left with a thread: once the threads have come to rest, all of them are waiting to be heard. -/
theorem comes_to_rest [Fintype W] [Nonempty W] {tr : List (Label S)}
    (h : (granted W S).Trace tr σ) : σ.ComesToRest := by
  refine ⟨fun more τ => run_bounded (trace_of_granted h).reachable, fun more τ hrun hrest => ?_⟩
  have hlast : (granted W S).Trace (tr ++ more) τ := h.run (hrun.mono fun _ _ _ => And.left)
  obtain ⟨hview, hown, hopen, H⟩ := kept_granted hlast
  have hstuck : τ.loop ≠ .stuck := by
    intro hto
    exact hview (by simp [view, hto, loopView])
  obtain ⟨hloop, htasks⟩ := hrest.idle (trace_of_granted hlast) hstuck
  refine ⟨hloop, fun s hs => ?_⟩
  have hwaits : τ.view.loop = .waiting := by simp [view, hloop, loopView]
  refine (EventLoop.nothingLost_of_kept hown hopen H).at_rest hwaits s hs ?_
  rw [htasks]
  exact Multiset.notMem_zero s

/-- A connection is accepted, its request reported, and a worker has run its task. -/
theorem comes_to_rest_served : ∃ (tr : List (Label Unit)) (σ : Pooled Unit Unit),
    .pool (.finish () .returned) ∈ tr ∧ () ∉ σ.handler.pool.idle ∧ σ.ComesToRest := by
  obtain ⟨tr, σ, htrace, hfinish, -, hin⟩ := granted_served
  exact ⟨tr, σ, hfinish, hin, comes_to_rest htrace⟩

end Pooled
end Calabash
