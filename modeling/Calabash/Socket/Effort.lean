import Calabash.Socket.Pooled

/-!
# What the loop and the pool have still to do

Numbers that a step of the loop or of the pool lowers. An event costs more than it takes to hand
over its socket, a connection that is accepted more than its registration, a registration more than
its next report.

## Main results

* `effort_cases` — what a step of the loop does to its events and to the registrations.
* `ThreadPool.effort_within` — what a step of the pool does to its work.
-/

namespace Calabash

open Function (update)

namespace EventPoller
variable {S : Type}

/-- How many registrations can report. -/
def armed (e : EventPoller S) : ℕ := e.interest.countP (·.armed)

theorem armed_add (e : EventPoller S) (fd : ℤ) (ptr : S) (admits : Bool) :
    (e.add fd ptr admits).armed ≤ e.armed + 1 := by
  rw [add]
  split
  · rw [armed, List.countP_cons_of_pos (by rfl)]
    rfl
  · exact Nat.le_succ _

theorem armed_del (e : EventPoller S) (fd : ℤ) : (e.del fd).armed ≤ e.armed :=
  List.filter_sublist.countP_le

/-- What is reported cannot report again. -/
theorem armed_report [DecidableEq S] (e : EventPoller S) {rs : List (Registration S)}
    (hrs : ∀ r ∈ rs, r ∈ e.interest ∧ r.armed = true) (hnodup : rs.Nodup) :
    (e.report rs).armed + rs.length ≤ e.armed := by
  have hleft : (e.report rs).armed =
      ((e.interest.filter (·.armed)).filter fun r => r ∉ rs).length := by
    rw [armed, report, List.countP_map, List.countP_eq_length_filter, List.filter_filter]
    congr 1
    apply List.filter_congr
    intro r _
    by_cases hr : r ∈ rs <;> simp [hr, Registration.disarm]
  have hreported : rs.length ≤ ((e.interest.filter (·.armed)).filter fun r => r ∈ rs).length := by
    refine (List.subperm_of_subset hnodup fun r hr => ?_).length_le
    obtain ⟨hmem, harmed⟩ := hrs r hr
    simp [hmem, harmed, hr]
  have hsplit := List.length_eq_length_filter_add (l := e.interest.filter (·.armed)) (· ∈ rs)
  simp only [decide_not] at hleft
  rw [hleft, armed, List.countP_eq_length_filter, hsplit]
  omega

end EventPoller

theorem SocketHandler.armed_close {S : Type} [DecidableEq S] (h : SocketHandler S) (s : S) :
    (h.close s).epoll.armed ≤ h.epoll.armed := by
  rw [close]
  split
  · exact EventPoller.armed_del _ _
  · exact le_rfl

namespace EventLoop
variable {W S : Type}

/-- The connections that the loop has yet to take in. -/
def LoopPc.arrivals : LoopPc S → ℕ
  | .accepted _ es => es.countP (·.socket?.isNone) + 1
  | pc => pc.events.countP (·.socket?.isNone)

/-- A bound on what the loop does with its events, and others with what it hands them. -/
def LoopPc.effort : LoopPc S → ℕ
  | .waiting | .stuck => 0
  | .batch es => 65 * es.length + 1
  | .accepted _ es | .deleting _ es => 65 * es.length + 2
  | .closing _ es => 65 * es.length + 3
  | .queueing _ es => 65 * es.length + 62
  | .attaching _ es => 65 * es.length + 69

variable [DecidableEq W] [DecidableEq S]

/-- The loop is told of registrations that can report, or takes in a connection, or gets on with its
events; only `attach` lets more registrations report. -/
theorem effort_cases {σ σ' : EventLoop W S} (hstep : Step σ σ') (hworker : σ'.worker = σ.worker)
    (hqueue : σ'.queue = σ.queue) :
    (σ.loop = .waiting ∧ ∃ es, σ'.loop = .batch es ∧
        σ'.handler.epoll.armed + (es.filterMap Event.socket?).length ≤ σ.handler.epoll.armed) ∨
      (σ'.loop.arrivals < σ.loop.arrivals ∧ σ'.loop.effort ≤ σ.loop.effort + 67) ∨
      (σ'.loop.arrivals ≤ σ.loop.arrivals ∧ σ'.loop.effort < σ.loop.effort ∧
        σ'.loop.effort + 67 * σ'.handler.epoll.armed <
          σ.loop.effort + 67 * σ.handler.epoll.armed) := by
  have hmoves : ∀ w pc, update σ.worker w pc = σ.worker → σ.worker w = pc := by
    intro w pc heq
    have hw := congrFun heq w
    rw [Function.update_self] at hw
    exact hw.symm
  cases hstep with
  | wait rs es hloop hrs hnodup hes =>
    refine .inl ⟨hloop, es, rfl, ?_⟩
    rw [hes, List.length_map]
    exact EventPoller.armed_report σ.handler.epoll hrs hnodup
  | accept answer es hloop =>
    right; right
    simp [hloop, LoopPc.arrivals, LoopPc.events, LoopPc.effort, List.countP_cons]
    omega
  | null fd es hloop | stuck fd es hloop | slot fd es s pool hloop =>
    right; left
    simp [hloop, LoopPc.arrivals, LoopPc.events, LoopPc.effort]
  | attach s es admits hloop =>
    have harmed := EventPoller.armed_add σ.handler.epoll (σ.handler.sockfd s) s admits
    right; right
    simp only [hloop, LoopPc.arrivals, LoopPc.events, LoopPc.effort, SocketHandler.attach_epoll]
    omega
  | detach s ready es hloop =>
    have harmed := EventPoller.armed_del σ.handler.epoll (σ.handler.sockfd s)
    right; right
    simp only [hloop, SocketHandler.detach_epoll]
    split
    all_goals
      simp [LoopPc.arrivals, LoopPc.events, LoopPc.effort]
      omega
  | close s es hloop | delete s es hloop =>
    have harmed := σ.handler.armed_close s
    right; right
    simp only [hloop, LoopPc.arrivals, LoopPc.events, LoopPc.effort, SocketHandler.delete_epoll]
    omega
  | enqueue s es hloop => simp at hqueue
  | finish hloop =>
    right; right
    simp [hloop, LoopPc.arrivals, LoopPc.events, LoopPc.effort]
  | dequeue w s queue hw | reattach w s admits hw | remove w s hw | closeTask w s hw
  | deleteTask w s hw | escape w s hw =>
    have hsame := hmoves w _ hworker
    rw [hw] at hsame
    cases hsame

end EventLoop

/-! ## The pool -/

namespace ThreadPool
variable {W T : Type}

/-- What the next call of `Enqueue` adds to the work of the pool. -/
def ProducerPc.toCall : ProducerPc T → ℕ
  | .idle | .throwing => 61
  | _ => 0

/-- The work of the pool, in steps of its tasks. -/
def effort [Fintype W] (pool : ThreadPool W Unit T) : ℕ :=
  5 * pool.work + (pool.producer ()).toCall

variable [DecidableEq W] [Fintype W] {pool pool' : ThreadPool W Unit T}

/-- A pool that takes tasks gets on with its work. -/
theorem effort_within {e : Event T} (hstep : Step pool e pool') (he : Pooled.within e = true)
    (hspurious : e ≠ .spurious) (hstop : pool.stop = false) : pool'.effort < pool.effort := by
  have hext : e.external = false := by
    cases e with
    | spurious => exact absurd rfl hspurious
    | call | destroy => cases he
    | _ => rfl
  have hwork := work_step hstep hext
  have hcall : (pool'.producer ()).toCall ≤ (pool.producer ()).toCall := by
    cases hstep with
    | acquire p hp | push p hp | release p hp | unwind p hp => simp [ProducerPc.toCall, hp]
    | reject p hp hset =>
      rw [hstop] at hset
      cases hset
    | start | finish | call | notifyOne | notifyNone | destroy => cases he
    | _ => exact le_rfl
  simp only [effort]
  omega

/-- A call of `Enqueue`, from its beginning to its end. -/
theorem effort_call {t : T} (hstep : Step pool (.call t) pool') :
    pool'.effort < pool.effort := by
  cases hstep with
  | call p _ hp =>
    have htotal := total_update ProducerPc.work pool.producer p (.locking t)
    rw [show pool.producer p = _ from hp] at htotal
    simp only [ProducerPc.work] at htotal
    simp only [effort, work, hp, ProducerPc.toCall, Function.update_self]
    omega

theorem effort_returned {t : T} (hstep : Step pool (.returned t) pool') :
    pool'.effort < pool.effort + 61 := by
  have hwork := work_step hstep rfl
  have hcall : (pool'.producer ()).toCall ≤ 61 := by
    cases pool'.producer () <;> simp [ProducerPc.toCall]
  simp only [effort]
  omega

end ThreadPool

end Calabash
