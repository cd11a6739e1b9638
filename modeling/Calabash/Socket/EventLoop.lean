import Mathlib.Algebra.Order.BigOperators.Group.Finset
import Calabash.Lib.Transition
import Calabash.Socket.Ownership

/-!
# The event loop and the workers

`SocketHandler::handle` and any number of workers that run `HttpTask`, interleaved: a step
is one call that another thread can see the effect of. Descriptors and slots are taken
again as soon as they are given back. `exclusive` says that a socket is never in two
places: with the loop, in a registration, in the queue or with a task.

`attach` and `detach` lock the mutex of the handler for one call of `epoll_ctl`, and are
one step. A loop that waits for the mutex it holds itself keeps every `Delete` out.
-/

namespace Calabash

namespace EventLoop

/-- Where the event loop is, with the events of the batch that it has not come to. -/
inductive LoopPc (S : Type)
  /-- In `epoll_wait`. -/
  | waiting
  | batch (es : List (Event S))
  /-- `accept` has returned. -/
  | accepted (fd : ℤ) (es : List (Event S))
  /-- With a new `Socket`, in front of `attach`. -/
  | attaching (s : S) (es : List (Event S))
  /-- In `remove`, in front of `close`. -/
  | closing (s : S) (es : List (Event S))
  /-- In `remove`, in front of `Delete`. -/
  | deleting (s : S) (es : List (Event S))
  /-- In front of `Enqueue`. -/
  | queueing (s : S) (es : List (Event S))
  /-- In `AllocNewBlock`. -/
  | stuck

/-- Where a worker is in an `HttpTask`. -/
inductive WorkerPc (S : Type)
  | idle
  | running (s : S)
  | closing (s : S)
  | deleting (s : S)

namespace LoopPc
variable {S : Type}

/-- The socket that the loop has in hand, if any. -/
def holds : LoopPc S → Multiset S
  | attaching s _ | closing s _ | deleting s _ | queueing s _ => {s}
  | _ => 0

def events : LoopPc S → List (Event S)
  | batch es | accepted _ es | attaching _ es | closing _ es | deleting _ es
  | queueing _ es => es
  | _ => []

/-- The clients of the batch whose events are still to be processed. -/
def pending (pc : LoopPc S) : List S := pc.events.filterMap Event.socket?

/-- A descriptor that is in no `Socket` yet. -/
def arriving : LoopPc S → Option ℤ
  | accepted fd _ => some fd
  | _ => none

end LoopPc

namespace WorkerPc

/-- The socket of the task that the worker runs, if any. -/
def holds {S : Type} : WorkerPc S → Multiset S
  | .idle => 0
  | .running s | .closing s | .deleting s => {s}

end WorkerPc

end EventLoop

/-- The handler, the event loop, the queued tasks and the workers. `S` are the slots of the
pool. -/
structure EventLoop (W S : Type) where
  handler : SocketHandler S
  loop : EventLoop.LoopPc S
  queue : List S
  worker : W → EventLoop.WorkerPc S

namespace EventLoop
variable {W S : Type}

open Function (update)

section
variable [DecidableEq W] [DecidableEq S]

inductive Step (σ : EventLoop W S) : EventLoop W S → Prop
  -- the event loop
  /-- `epoll_wait` reports armed registrations, each once, and the listening socket. -/
  | wait (rs : List (Registration S)) (es : List (Event S)) : σ.loop = .waiting →
      (∀ r ∈ rs, r ∈ σ.handler.epoll.interest ∧ r.armed = true) → rs.Nodup →
      es.filterMap Event.socket? = rs.map (·.ptr) →
      Step σ { σ with
        handler := { σ.handler with epoll := σ.handler.epoll.report rs }, loop := .batch es }
  /-- The kernel never returns a descriptor that is open. -/
  | accept (answer : ℤ) (es : List (Event S)) : σ.loop = .batch (.listening :: es) →
      answer ∉ σ.handler.opened →
      Step σ { σ with
        handler := σ.handler.accepted answer, loop := .accepted (Socket.accept answer) es }
  | null (fd : ℤ) (es : List (Event S)) : σ.loop = .accepted fd es →
      σ.handler.pool.allocate = .null → Step σ { σ with loop := .waiting }
  | stuck (fd : ℤ) (es : List (Event S)) : σ.loop = .accepted fd es →
      σ.handler.pool.allocate = .stuck → Step σ { σ with loop := .stuck }
  | slot (fd : ℤ) (es : List (Event S)) (s : S) (pool : ObjectPool S) :
      σ.loop = .accepted fd es → σ.handler.pool.allocate = .slot s pool →
      Step σ { σ with handler := σ.handler.construct s pool fd, loop := .attaching s es }
  | attach (s : S) (es : List (Event S)) (admits : Bool) : σ.loop = .attaching s es →
      Step σ { σ with handler := σ.handler.attach s admits, loop := .batch es }
  | detach (s : S) (ready : Ready) (es : List (Event S)) :
      σ.loop = .batch (.client s ready :: es) →
      Step σ { σ with
        handler := σ.handler.detach s
        loop := if ready.hup || ready.err then .closing s es else .queueing s es }
  | close (s : S) (es : List (Event S)) : σ.loop = .closing s es →
      Step σ { σ with handler := σ.handler.close s, loop := .deleting s es }
  | delete (s : S) (es : List (Event S)) : σ.loop = .deleting s es →
      Step σ { σ with handler := σ.handler.delete s, loop := .batch es }
  | enqueue (s : S) (es : List (Event S)) : σ.loop = .queueing s es →
      Step σ { σ with loop := .batch es, queue := σ.queue ++ [s] }
  | finish : σ.loop = .batch [] → Step σ { σ with loop := .waiting }
  -- a worker
  | dequeue (w : W) (s : S) (queue : List S) : σ.worker w = .idle → σ.queue = s :: queue →
      Step σ { σ with queue := queue, worker := update σ.worker w (.running s) }
  | reattach (w : W) (s : S) (admits : Bool) : σ.worker w = .running s →
      Step σ { σ with handler := σ.handler.attach s admits, worker := update σ.worker w .idle }
  | remove (w : W) (s : S) : σ.worker w = .running s →
      Step σ { σ with worker := update σ.worker w (.closing s) }
  | closeTask (w : W) (s : S) : σ.worker w = .closing s →
      Step σ { σ with handler := σ.handler.close s, worker := update σ.worker w (.deleting s) }
  | deleteTask (w : W) (s : S) : σ.worker w = .deleting s → σ.loop ≠ .stuck →
      Step σ { σ with handler := σ.handler.delete s, worker := update σ.worker w .idle }
  /-- The task throws, and its exception stays in its future. -/
  | escape (w : W) (s : S) : σ.worker w = .running s →
      Step σ { σ with worker := update σ.worker w .idle }

/-- `handle` starts with every slot of the pool idle and nothing registered, queued or
running. -/
structure Start (σ : EventLoop W S) : Prop where
  idle : ∀ s, s ∈ σ.handler.pool.idle
  idle_once : σ.handler.pool.idle.Nodup
  interest : σ.handler.epoll.interest = []
  loop : σ.loop = .waiting
  queue : σ.queue = []
  worker : ∀ w, σ.worker w = .idle

def system (W S : Type) [DecidableEq W] [DecidableEq S] : System (EventLoop W S) Unit where
  init := Start
  step σ _ σ' := Step σ σ'

end

variable [Fintype W]

/-- The sockets of queued and of running tasks. -/
def tasks (σ : EventLoop W S) : Multiset S := σ.queue + total WorkerPc.holds σ.worker

/-- The sockets in hand: with the loop or with a task. -/
def inHand (σ : EventLoop W S) : Multiset S := σ.loop.holds + σ.tasks

section
variable [DecidableEq S]

/-- In how many places the socket is: with the loop, registered, queued and with tasks. -/
def holders (σ : EventLoop W S) (s : S) : ℕ :=
  σ.loop.holds.count s + σ.handler.watched.count s + σ.queue.count s +
    total (fun pc => (WorkerPc.holds pc).count s) σ.worker

/-- No socket is in two places; one that has been given back is in none, and no event of
the batch is about it; an event of the batch is about a registration, which reports
nothing else; and no two workers run tasks of one socket. -/
structure Exclusive (σ : EventLoop W S) : Prop where
  one_place : ∀ s, σ.holders s ≤ 1
  given_back : ∀ s ∈ σ.handler.pool.idle, σ.holders s = 0 ∧ s ∉ σ.loop.pending
  one_event : ∀ s, σ.loop.pending.count s ≤ 1
  reported : ∀ s ∈ σ.loop.pending, ∃ r ∈ σ.handler.epoll.interest, r.ptr = s ∧ r.armed = false
  one_worker : ∀ s w w', s ∈ (σ.worker w).holds → s ∈ (σ.worker w').holds → w = w'

theorem count_total (s : S) (f : W → WorkerPc S) :
    (total WorkerPc.holds f).count s = total (fun pc => (WorkerPc.holds pc).count s) f := by
  rw [total, total, Multiset.count_sum']

theorem holders_eq (σ : EventLoop W S) (s : S) :
    σ.holders s = (σ.handler.watched + σ.inHand).count s := by
  rw [holders, inHand, tasks, Multiset.count_add, Multiset.count_add, Multiset.count_add,
    count_total, Multiset.coe_count]
  omega

end

/-- The ownership invariant in a state of the whole system. -/
def Owned (σ : EventLoop W S) : Prop :=
  σ.handler.Owns σ.inHand σ.loop.pending σ.loop.arriving

theorem owned_start {σ : EventLoop W S} (h : Start σ) : σ.Owned := by
  have hhand : σ.inHand = 0 := by
    simp only [inHand, tasks, h.loop, h.queue, LoopPc.holds]
    rw [total_eq_zero fun w => by rw [h.worker w]; rfl]
    rfl
  have hnone : ∀ s, s ∉ σ.handler.pool.idle → False := fun s hs => hs (h.idle s)
  exact {
    once := by simp [hhand, SocketHandler.watched, h.interest]
    given := by simp [hhand, SocketHandler.watched, h.interest]
    idle_once := h.idle_once
    fds := by simp [h.interest]
    own := by simp [h.interest]
    pending_once := by simp [h.loop, LoopPc.pending, LoopPc.events]
    reported := by simp [h.loop, LoopPc.pending, LoopPc.events]
    opened := fun s hs => (hnone s hs).elim
    distinct := fun s _ hs => (hnone s hs).elim
    arrived := by simp [h.loop, LoopPc.arriving] }

variable [DecidableEq W]

theorem tasks_dequeue {σ : EventLoop W S} {w : W} {s : S} {queue : List S}
    (hw : σ.worker w = .idle) (hqueue : σ.queue = s :: queue) :
    (queue : Multiset S) + total WorkerPc.holds (update σ.worker w (.running s)) = σ.tasks := by
  rw [tasks, total_gain WorkerPc.holds hw rfl rfl, hqueue, ← Multiset.cons_coe, Multiset.cons_add,
    Multiset.add_cons]

/-- A task that ends gives its socket out of the hand. -/
theorem tasks_end {σ : EventLoop W S} {w : W} {s : S} {pc : WorkerPc S} (hw : σ.worker w = pc)
    (hpc : pc.holds = {s}) :
    σ.tasks = s ::ₘ (σ.queue + total WorkerPc.holds (update σ.worker w .idle)) := by
  have hidle : WorkerPc.holds (.idle : WorkerPc S) = 0 := rfl
  rw [tasks, total_lose WorkerPc.holds hw hpc hidle, Multiset.add_cons]

theorem tasks_same {σ : EventLoop W S} {w : W} {pc : WorkerPc S} (hw : σ.worker w = pc)
    (pc' : WorkerPc S) (hpc : pc'.holds = pc.holds) :
    σ.queue + total WorkerPc.holds (update σ.worker w pc') = σ.tasks := by
  rw [tasks, total_same WorkerPc.holds hw hpc]

variable [DecidableEq S]

theorem owned_step {σ σ' : EventLoop W S} (hstep : Step σ σ') (hown : σ.Owned) : σ'.Owned := by
  unfold Owned inHand at hown ⊢
  cases hstep with
  | wait rs es hloop hrs hnodup hes =>
    rw [hloop] at hown
    have H := SocketHandler.Owns.report hown (fun r hr => (hrs r hr).1) hnodup
    rw [← hes] at H
    exact H
  | accept answer es hloop hfresh =>
    rw [hloop] at hown
    exact SocketHandler.Owns.accepted hown hfresh
  | null fd es hloop halloc =>
    rw [hloop] at hown
    exact hown.mono le_rfl (List.nil_sublist _) nofun
  | stuck fd es hloop halloc =>
    rw [hloop] at hown
    exact hown.mono le_rfl (List.nil_sublist _) nofun
  | slot fd es s pool hloop halloc =>
    rw [hloop] at hown
    dsimp only [LoopPc.holds] at hown ⊢
    rw [zero_add] at hown
    rw [Multiset.singleton_add]
    exact SocketHandler.Owns.construct hown halloc
  | attach s es admits hloop =>
    rw [hloop, LoopPc.holds, Multiset.singleton_add] at hown
    dsimp only [LoopPc.holds]
    rw [zero_add]
    exact SocketHandler.Owns.attach hown admits
  | detach s ready es hloop =>
    rw [hloop] at hown
    dsimp only [LoopPc.holds] at hown ⊢
    rw [zero_add] at hown
    have H := SocketHandler.Owns.detach hown
    rw [← Multiset.singleton_add] at H
    cases hremove : ready.hup || ready.err
    · exact H
    · exact H
  | close s es hloop =>
    rw [hloop, LoopPc.holds, Multiset.singleton_add] at hown
    dsimp only [LoopPc.holds]
    rw [Multiset.singleton_add]
    exact SocketHandler.Owns.close hown
  | delete s es hloop =>
    rw [hloop, LoopPc.holds, Multiset.singleton_add] at hown
    dsimp only [LoopPc.holds]
    rw [zero_add]
    exact SocketHandler.Owns.delete hown
  | enqueue s es hloop =>
    rw [hloop] at hown
    have hmove : ({s} : Multiset S) + σ.tasks =
        0 + (((σ.queue ++ [s] : List S) : Multiset S) + total WorkerPc.holds σ.worker) := by
      rw [tasks, ← Multiset.coe_add, Multiset.coe_singleton, zero_add]
      abel
    rw [LoopPc.holds, hmove] at hown
    exact hown
  | finish hloop =>
    rw [hloop] at hown
    exact hown
  | dequeue w s queue hw hqueue =>
    rw [← tasks_dequeue hw hqueue] at hown
    exact hown
  | reattach w s admits hw =>
    rw [tasks_end hw rfl, Multiset.add_cons] at hown
    exact SocketHandler.Owns.attach hown admits
  | remove w s hw =>
    rw [← tasks_same hw (.closing s) rfl] at hown
    exact hown
  | closeTask w s hw =>
    have hend := tasks_end hw rfl
    rw [hend, Multiset.add_cons] at hown
    have H := SocketHandler.Owns.close hown
    rw [← Multiset.add_cons, ← hend, ← tasks_same hw (.deleting s) rfl] at H
    exact H
  | deleteTask w s hw hloop =>
    rw [tasks_end hw rfl, Multiset.add_cons] at hown
    exact SocketHandler.Owns.delete hown
  | escape w s hw =>
    rw [tasks_end hw rfl, Multiset.add_cons] at hown
    exact hown.mono (Multiset.le_cons_self _ _) (List.Sublist.refl _) fun _ => id

theorem owned_reachable {σ : EventLoop W S} (h : (system W S).Reachable σ) : σ.Owned :=
  h.invariant (P := Owned) (fun _ => owned_start) fun _ _ _ hown hstep => owned_step hstep hown

theorem exclusive {σ : EventLoop W S} (h : (system W S).Reachable σ) : σ.Exclusive := by
  have hown := owned_reachable h
  have hone : ∀ s, σ.holders s ≤ 1 := by
    intro s
    rw [holders_eq]
    exact Multiset.nodup_iff_count_le_one.mp hown.once s
  refine ⟨hone, ?_, ?_, hown.reported, ?_⟩
  · intro s hs
    constructor
    · rw [holders_eq, Multiset.count_eq_zero]
      exact fun hheld => hown.given s hheld hs
    · intro hpending
      obtain ⟨r, hr, rfl, -⟩ := hown.reported s hpending
      have hwatched := SocketHandler.Owns.mem_watched hr
      exact hown.given _ (Multiset.mem_add.mpr (.inl hwatched)) hs
  · exact fun s => List.nodup_iff_count_le_one.mp hown.pending_once s
  · intro s w w' hw hw'
    by_contra hne
    have hpair := Finset.add_le_sum (f := fun v => (σ.worker v).holds.count s)
      (fun _ _ => Nat.zero_le _) (Finset.mem_univ w) (Finset.mem_univ w') hne
    have hpos := Multiset.count_pos.mpr hw
    have hpos' := Multiset.count_pos.mpr hw'
    have hplaces := hone s
    simp only [holders, total] at hplaces
    omega

/-- A connection is accepted, its request reported and queued, and a worker takes it. -/
theorem exclusive_running :
    ∃ σ : EventLoop Unit Bool, σ.worker () = .running true ∧ σ.Exclusive := by
  let start : EventLoop Unit Bool :=
    ⟨⟨⟨[true, false], 0, 1⟩, fun _ => 0, ⟨[]⟩, []⟩, .waiting, [], fun _ => .idle⟩
  have hstart : (system Unit Bool).Trace [] start :=
    .nil ⟨by decide, by decide, rfl, rfl, rfl, fun _ => rfl⟩
  have hwait := hstart.snoc (a := ()) (.wait [] [.listening] rfl (by simp) (by simp) rfl)
  have haccept := hwait.snoc (a := ()) (.accept 4 [] rfl (by simp [start]))
  have hslot := haccept.snoc (a := ()) (.slot 4 [] true ⟨[false], 1, 1⟩ rfl rfl)
  have hattach := hslot.snoc (a := ()) (.attach true [] true rfl)
  have hover := hattach.snoc (a := ()) (.finish rfl)
  have hreport := hover.snoc (a := ()) (.wait [⟨4, true, true⟩]
    [.client true ⟨false, false, true, rfl⟩] rfl (by decide) (by decide) rfl)
  have hdetach := hreport.snoc (a := ()) (.detach true ⟨false, false, true, rfl⟩ [] rfl)
  have henqueue := hdetach.snoc (a := ()) (.enqueue true [] rfl)
  have hdequeue := henqueue.snoc (a := ()) (.dequeue () true [] rfl rfl)
  exact ⟨_, rfl, exclusive hdequeue.reachable⟩

end EventLoop

end Calabash
