import Calabash.Socket.Benign
import Calabash.Web.KeepAlive
import Calabash.Web.Middleware
import Calabash.Web.TaskSteps

/-!
# Connections that are served at the same time

The event loop and the workers, with tasks that read from their sockets and write to them call by
call. Nothing locks a connection; that its tasks do not get into each other's way is due to the
registration, which reports once and is added again by the task when it is done.

## Main results

* `serial_step` — what a step of any thread does to the history of a connection.
* `serial` — a connection sees tasks in one piece, one after the other.
* `answered_in_order` — what a client gets that sends complete requests.
-/

namespace Calabash

open RequestMaker

/-- The event loop, where each worker is in its task, the connection of each slot, and how the
connection was when it was accepted. -/
structure Serving (W S : Type) where
  core : EventLoop W S
  task : W → TaskPc
  link : S → Link
  accepted : S → Link

namespace Serving
variable {W S : Type}

open Function (update)

section
variable [DecidableEq W] [DecidableEq S]

inductive Step (server : Site) (σ : Serving W S) : Serving W S → Prop
  /-- The loop, but for the construction of a `Socket`. -/
  | loop (core : EventLoop W S) : EventLoop.Step σ.core core → core.worker = σ.core.worker →
      (∀ s ∈ σ.core.handler.pool.idle, s ∈ core.handler.pool.idle) →
      Step server σ { σ with core := core }
  /-- A `Socket` is constructed for a new connection. -/
  | connect (fd : ℤ) (es : List (Event S)) (s : S) (pool : ObjectPool S) (l : Link) :
      σ.core.loop = .accepted fd es → σ.core.handler.pool.allocate = .slot s pool →
      l.wire.sent = [] →
      Step server σ
        { core := { σ.core with
            handler := σ.core.handler.construct s pool fd, loop := .attaching s es }
          task := σ.task, link := update σ.link s l, accepted := update σ.accepted s l }
  | dequeue (w : W) (s : S) (queue : List S) : σ.core.worker w = .idle →
      σ.core.queue = s :: queue →
      Step server σ { σ with
        core := { σ.core with queue := queue, worker := update σ.core.worker w (.running s) }
        task := update σ.task w .reading }
  /-- A task makes a call on its connection, or goes on inside. -/
  | call (w : W) (s : S) (pc : TaskPc) (l : Link) : σ.core.worker w = .running s →
      TaskStep server (σ.task w) (σ.link s) pc l →
      Step server σ { σ with task := update σ.task w pc, link := update σ.link s l }
  | attach (w : W) (s : S) (admits : Bool) : σ.core.worker w = .running s →
      σ.task w = .released .attach →
      Step server σ { σ with core := { σ.core with
        handler := σ.core.handler.attach s admits, worker := update σ.core.worker w .idle } }
  | remove (w : W) (s : S) : σ.core.worker w = .running s → σ.task w = .released .remove →
      Step server σ { σ with core := { σ.core with
        worker := update σ.core.worker w (.closing s) } }
  | escape (w : W) (s : S) (e : Exception) : σ.core.worker w = .running s →
      σ.task w = .threw e →
      Step server σ { σ with core := { σ.core with worker := update σ.core.worker w .idle } }
  | close (w : W) (s : S) : σ.core.worker w = .closing s →
      Step server σ { σ with core := { σ.core with
        handler := σ.core.handler.close s, worker := update σ.core.worker w (.deleting s) } }
  | delete (w : W) (s : S) : σ.core.worker w = .deleting s → σ.core.loop ≠ .stuck →
      Step server σ { σ with core := { σ.core with
        handler := σ.core.handler.delete s, worker := update σ.core.worker w .idle } }

/-- `handle` starts, with anything on the connections to come. -/
def system (server : Site) (W S : Type) [DecidableEq W] [DecidableEq S] :
    System (Serving W S) Unit where
  init σ := σ.core.Start
  step σ _ σ' := Step server σ σ'

end

/-! ## One connection -/

/-- Tasks in one piece, one after the other, with the requests that they read and the responses
that they sent. -/
inductive Session (server : Site) (l : Link) : List (Request × Response) → Link → Prop
  | nil : Session server l [] l
  | snoc {xs : List (Request × Response)} {l₁ l₂ : Link} {req : Request} {res : Response} :
      Session server l xs l₁ → Answered server l₁ req res l₂ →
      Session server l (xs ++ [(req, res)]) l₂

end Serving

/-- Between two tasks: registered, queued, or with the loop on its way there. -/
def EventLoop.Waits {W S : Type} (σ : EventLoop W S) (s : S) : Prop :=
  s ∈ σ.handler.watched ∨ s ∈ σ.queue ∨
    (∃ es, σ.loop = .attaching s es) ∨ ∃ es, σ.loop = .queueing s es

namespace Serving
variable {W S : Type}

/-- What a connection has seen since it was accepted is the work of tasks in one piece, one after
the other; while it is with a task, of that task as well, so far. -/
structure Serial (server : Site) (σ : Serving W S) : Prop where
  fresh : ∀ s, s ∉ σ.core.handler.pool.idle → (σ.accepted s).wire.sent = []
  waits : ∀ s, σ.core.Waits s → ∃ xs, Session server (σ.accepted s) xs (σ.link s)
  runs : ∀ w s, σ.core.worker w = .running s → ∃ xs l, Session server (σ.accepted s) xs l ∧
    Under server l (σ.task w) (σ.link s)
  slots : ∀ s, s ∉ σ.core.handler.pool.idle → ∃ xs l pc, Session server (σ.accepted s) xs l ∧
    Under server l pc (σ.link s)

end Serving

/-! ## Which connections wait -/

namespace SocketHandler
variable {S : Type} {h : SocketHandler S} {s u : S}

theorem mem_watched_iff : s ∈ h.watched ↔ ∃ r ∈ h.epoll.interest, r.ptr = s := by
  rw [watched, Multiset.mem_coe, List.mem_map]

theorem mem_watched_attach {admits : Bool} (hs : s ∈ (h.attach u admits).watched) :
    s = u ∨ s ∈ h.watched := by
  obtain ⟨r, hr, rfl⟩ := mem_watched_iff.mp hs
  rcases EventPoller.mem_interest_add hr with hr | rfl
  · exact .inr (mem_watched_iff.mpr ⟨r, hr, rfl⟩)
  · exact .inl rfl

theorem mem_watched_detach (hs : s ∈ (h.detach u).watched) : s ∈ h.watched := by
  obtain ⟨r, hr, rfl⟩ := mem_watched_iff.mp hs
  exact mem_watched_iff.mpr ⟨r, (EventPoller.mem_interest_del.mp hr).1, rfl⟩

theorem mem_watched_close [DecidableEq S] (hs : s ∈ (h.close u).watched) : s ∈ h.watched := by
  obtain ⟨r, hr, rfl⟩ := mem_watched_iff.mp hs
  exact mem_watched_iff.mpr ⟨r, (mem_interest_close.mp hr).1, rfl⟩

end SocketHandler

namespace EventLoop
variable {W S : Type}

theorem Waits.of_gone {σ τ : EventLoop W S} {t : S} (h : τ.Waits t)
    (hwatched : t ∈ τ.handler.watched → σ.Waits t) (hqueue : t ∈ τ.queue → σ.Waits t)
    (hattaching : ∀ s es, τ.loop ≠ .attaching s es)
    (hqueueing : ∀ s es, τ.loop ≠ .queueing s es) : σ.Waits t := by
  rcases h with h | h | ⟨es, h⟩ | ⟨es, h⟩
  · exact hwatched h
  · exact hqueue h
  · exact absurd h (hattaching t es)
  · exact absurd h (hqueueing t es)

/-- A socket that waits is with no task. -/
theorem Waits.not_held [Fintype W] {σ : EventLoop W S} {s : S} (h : σ.Waits s) (hown : σ.Owned)
    (w : W) : s ∉ (σ.worker w).holds := by
  intro hw
  have hparts := Multiset.nodup_add.mp hown.once
  have htasks := Multiset.nodup_add.mp (Multiset.nodup_add.mp hparts.2.1).2.1
  rcases h with hwatched | hqueue | ⟨es, hloop⟩ | ⟨es, hloop⟩
  · exact Multiset.disjoint_left.mp hparts.2.2 hwatched (mem_inHand_of_worker hw)
  · exact Multiset.disjoint_left.mp htasks.2.2 (Multiset.mem_coe.mpr hqueue)
      (Multiset.mem_sum.mpr ⟨w, Finset.mem_univ w, hw⟩)
  · exact hown.loop_apart (by rw [hloop]; exact Multiset.mem_singleton_self s) w hw
  · exact hown.loop_apart (by rw [hloop]; exact Multiset.mem_singleton_self s) w hw

variable [DecidableEq W] [DecidableEq S]

open Function (update)

/-- The loop brings to no place a socket that did not wait, but for one that it takes from the
pool. -/
theorem waits_loop [Fintype W] {σ τ : EventLoop W S} (hstep : Step σ τ) (hown : σ.Owned)
    (hworker : τ.worker = σ.worker) (hidle : ∀ s ∈ σ.handler.pool.idle, s ∈ τ.handler.pool.idle)
    {t : S} (h : τ.Waits t) : σ.Waits t := by
  have hmoves : ∀ w pc, update σ.worker w pc = σ.worker → σ.worker w = pc := by
    intro w pc heq
    have hw := congrFun heq w
    rw [Function.update_self] at hw
    exact hw.symm
  cases hstep with
  | wait rs es hloop =>
    refine h.of_gone (fun hwatched => ?_) (fun hqueue => .inr (.inl hqueue)) (by simp) (by simp)
    rw [SocketHandler.watched_report] at hwatched
    exact .inl hwatched
  | accept answer es hloop =>
    refine h.of_gone (fun hwatched => ?_) (fun hqueue => .inr (.inl hqueue)) (by simp) (by simp)
    rw [SocketHandler.watched, SocketHandler.accepted_epoll] at hwatched
    exact .inl hwatched
  | null fd es hloop | stuck fd es hloop | finish hloop =>
    exact h.of_gone .inl (fun hqueue => .inr (.inl hqueue)) (by simp) (by simp)
  | slot fd es s pool hloop halloc =>
    have hslots := ObjectPool.allocate_slot halloc
    have hnew : s ∉ pool.idle := (List.nodup_cons.mp (hslots ▸ hown.idle_once)).1
    exact absurd (hidle s (by rw [hslots]; exact List.mem_cons_self)) hnew
  | attach s es admits hloop =>
    refine h.of_gone (fun hwatched => ?_) (fun hqueue => .inr (.inl hqueue)) (by simp) (by simp)
    rcases SocketHandler.mem_watched_attach hwatched with rfl | hwatched
    · exact .inr (.inr (.inl ⟨es, hloop⟩))
    · exact .inl hwatched
  | detach s ready es hloop =>
    -- The socket was registered, since the event is of a registration.
    have hreported : s ∈ σ.loop.pending := by
      rw [hloop]
      simp [LoopPc.pending, LoopPc.events]
    obtain ⟨r, hr, rfl, -⟩ := hown.reported s hreported
    rcases h with hwatched | hqueue | ⟨es', hto⟩ | ⟨es', hto⟩
    · exact .inl (SocketHandler.mem_watched_detach hwatched)
    · exact .inr (.inl hqueue)
    · dsimp only at hto
      split at hto <;> cases hto
    · dsimp only at hto
      split at hto
      · cases hto
      · cases hto
        exact .inl (SocketHandler.Owns.mem_watched hr)
  | close s es hloop | delete s es hloop =>
    exact h.of_gone (fun hwatched => .inl (SocketHandler.mem_watched_close hwatched))
      (fun hqueue => .inr (.inl hqueue)) (by simp) (by simp)
  | enqueue s es hloop =>
    refine h.of_gone .inl (fun hqueue => ?_) (by simp) (by simp)
    rcases List.mem_append.mp hqueue with hqueue | hlast
    · exact .inr (.inl hqueue)
    · obtain rfl := List.mem_singleton.mp hlast
      exact .inr (.inr (.inr ⟨es, hloop⟩))
  | dequeue w s queue hw | reattach w s admits hw | remove w s hw | closeTask w s hw
  | deleteTask w s hw | escape w s hw =>
    have hsame := hmoves w _ hworker
    rw [hw] at hsame
    cases hsame

end EventLoop

/-! ## Histories -/

namespace Serving
variable {W S : Type} {server : Site}

open Function (update)

/-- Slots may be given back, and sockets may go where they are neither served nor wait. -/
theorem Serial.of_core {σ : Serving W S} (h : Serial server σ) {core : EventLoop W S}
    (hidle : ∀ s ∈ σ.core.handler.pool.idle, s ∈ core.handler.pool.idle)
    (hwaits : ∀ s, core.Waits s → σ.core.Waits s)
    (hruns : ∀ w s, core.worker w = .running s → σ.core.worker w = .running s) :
    Serial server { σ with core := core } where
  fresh s hs := h.fresh s (fun hin => hs (hidle s hin))
  waits s hs := h.waits s (hwaits s hs)
  runs w s hw := h.runs w s (hruns w s hw)
  slots s hs := h.slots s (fun hin => hs (hidle s hin))

theorem serial_connect [Fintype W] [DecidableEq S] {σ : Serving W S} {fd : ℤ}
    {es : List (Event S)} {s : S} {pool : ObjectPool S} {l : Link} (hown : σ.core.Owned)
    (halloc : σ.core.handler.pool.allocate = .slot s pool) (hl : l.wire.sent = [])
    (h : Serial server σ) : Serial server
      { core := { σ.core with
          handler := σ.core.handler.construct s pool fd, loop := .attaching s es }
        task := σ.task, link := update σ.link s l, accepted := update σ.accepted s l } := by
  have hslots := ObjectPool.allocate_slot halloc
  have hidle : s ∈ σ.core.handler.pool.idle := by
    rw [hslots]
    exact List.mem_cons_self
  have hin : ∀ t, t ≠ s → t ∉ pool.idle → t ∉ σ.core.handler.pool.idle := by
    intro t hts ht
    rw [hslots]
    exact List.not_mem_cons_of_ne_of_not_mem hts ht
  constructor
  · intro t ht
    by_cases hts : t = s
    · subst hts
      simpa using hl
    · simpa [hts] using h.fresh t (hin t hts ht)
  · intro t ht
    by_cases hts : t = s
    · subst hts
      simp only [Function.update_self]
      exact ⟨[], .nil⟩
    · simp only [Function.update_of_ne hts]
      refine h.waits t ?_
      rcases ht with hwatched | hqueue | ⟨es', hto⟩ | ⟨es', hto⟩
      · exact .inl hwatched
      · exact .inr (.inl hqueue)
      · cases hto
        exact absurd rfl hts
      · cases hto
  · intro w t hw
    have hts : t ≠ s := by
      rintro rfl
      exact hown.in_use (EventLoop.mem_inHand_of_worker (w := w) (by
        rw [show σ.core.worker w = _ from hw]
        exact Multiset.mem_singleton_self t)) hidle
    simp only [Function.update_of_ne hts]
    exact h.runs w t hw
  · intro t ht
    by_cases hts : t = s
    · subst hts
      simp only [Function.update_self]
      exact ⟨[], l, .reading, .nil, .start⟩
    · simp only [Function.update_of_ne hts]
      exact h.slots t (hin t hts ht)

variable [DecidableEq W]

theorem running_of_update {σ : EventLoop W S} {w : W} {pc : EventLoop.WorkerPc S}
    (hpc : ∀ s, pc ≠ .running s) {v : W} {t : S}
    (hv : update σ.worker w pc v = .running t) : σ.worker v = .running t := by
  by_cases hvw : v = w
  · subst hvw
    rw [Function.update_self] at hv
    exact absurd hv (hpc t)
  · rwa [Function.update_of_ne hvw] at hv

/-- A socket gets back to the registrations when its task has answered the request. -/
theorem serial_attach {σ : Serving W S} {w : W} {s : S} {admits : Bool}
    (hw : σ.core.worker w = .running s) (htask : σ.task w = .released .attach)
    (h : Serial server σ) : Serial server { σ with core := { σ.core with
      handler := σ.core.handler.attach s admits, worker := update σ.core.worker w .idle } } where
  fresh := h.fresh
  waits t ht := by
    have hback : ∃ xs, Session server (σ.accepted s) xs (σ.link s) := by
      obtain ⟨xs, l, hsession, hunder⟩ := h.runs w s hw
      rw [htask] at hunder
      obtain ⟨req, res, hanswered⟩ := hunder.answered
      exact ⟨xs ++ [(req, res)], hsession.snoc hanswered⟩
    rcases ht with hwatched | hqueue | hloop | hloop
    · rcases SocketHandler.mem_watched_attach hwatched with rfl | hwatched
      · exact hback
      · exact h.waits t (.inl hwatched)
    · exact h.waits t (.inr (.inl hqueue))
    · exact h.waits t (.inr (.inr (.inl hloop)))
    · exact h.waits t (.inr (.inr (.inr hloop)))
  runs v t hv := h.runs v t (running_of_update nofun hv)
  slots := h.slots

/-- A task that starts finds its connection as the one before has left it. -/
theorem serial_dequeue {σ : Serving W S} {w : W} {s : S} {queue : List S}
    (hqueue : σ.core.queue = s :: queue) (h : Serial server σ) : Serial server { σ with
      core := { σ.core with queue := queue, worker := update σ.core.worker w (.running s) }
      task := update σ.task w .reading } where
  fresh := h.fresh
  waits t ht := by
    refine h.waits t ?_
    rcases ht with hwatched | hmem | hloop | hloop
    · exact .inl hwatched
    · exact .inr (.inl (by rw [hqueue]; exact List.mem_cons_of_mem s hmem))
    · exact .inr (.inr (.inl hloop))
    · exact .inr (.inr (.inr hloop))
  runs v t hv := by
    by_cases hvw : v = w
    · subst hvw
      simp only [Function.update_self] at hv ⊢
      cases hv
      obtain ⟨xs, hsession⟩ := h.waits s (.inr (.inl (by rw [hqueue]; exact List.mem_cons_self)))
      exact ⟨xs, _, hsession, .start⟩
    · simp only [Function.update_of_ne hvw] at hv ⊢
      exact h.runs v t hv
  slots := h.slots

variable [DecidableEq S]

/-- A step is one of the event loop, or a call of a task on its connection. -/
theorem core_step {σ σ' : Serving W S} (hstep : Step server σ σ') :
    σ'.core = σ.core ∨ EventLoop.Step σ.core σ'.core := by
  cases hstep with
  | loop core hcore => exact .inr hcore
  | connect fd es s pool l hloop halloc => exact .inr (.slot fd es s pool hloop halloc)
  | dequeue w s queue hw hqueue => exact .inr (.dequeue w s queue hw hqueue)
  | call => exact .inl rfl
  | attach w s admits hw => exact .inr (.reattach w s admits hw)
  | remove w s hw => exact .inr (.remove w s hw)
  | escape w s e hw => exact .inr (.escape w s hw)
  | close w s hw => exact .inr (.closeTask w s hw)
  | delete w s hw hloop => exact .inr (.deleteTask w s hw hloop)

/-- A call of a task is on a connection that no other task has and that does not wait. -/
theorem serial_call [Fintype W] {σ : Serving W S} {w : W} {s : S} {pc : TaskPc} {l : Link}
    (hown : σ.core.Owned) (hw : σ.core.worker w = .running s)
    (hstep : TaskStep server (σ.task w) (σ.link s) pc l) (h : Serial server σ) :
    Serial server { σ with task := update σ.task w pc, link := update σ.link s l } := by
  have hheld : s ∈ (σ.core.worker w).holds := by
    rw [hw]
    exact Multiset.mem_singleton_self s
  obtain ⟨xs, l₀, hsession, hunder⟩ := h.runs w s hw
  constructor
  · exact h.fresh
  · intro t ht
    have hts : t ≠ s := by
      rintro rfl
      exact ht.not_held hown w hheld
    simp only [Function.update_of_ne hts]
    exact h.waits t ht
  · intro v t hv
    by_cases hvw : v = w
    · subst hvw
      rw [show σ.core.worker v = _ from hv] at hw
      cases hw
      simp only [Function.update_self]
      exact ⟨xs, l₀, hsession, hunder.step hstep⟩
    · have hts : t ≠ s := by
        rintro rfl
        refine hvw (hown.one_worker ?_ hheld)
        rw [show σ.core.worker v = _ from hv]
        exact Multiset.mem_singleton_self t
      simp only [Function.update_of_ne hvw, Function.update_of_ne hts]
      exact h.runs v t hv
  · intro t ht
    by_cases hts : t = s
    · subst hts
      simp only [Function.update_self]
      exact ⟨xs, l₀, pc, hsession, hunder.step hstep⟩
    · simp only [Function.update_of_ne hts]
      exact h.slots t ht

theorem serial_step [Fintype W] {σ σ' : Serving W S} (hstep : Step server σ σ')
    (hown : σ.core.Owned) (h : Serial server σ) : Serial server σ' := by
  cases hstep with
  | loop core hcore hworker hidle =>
    exact h.of_core hidle (fun _ ht => EventLoop.waits_loop hcore hown hworker hidle ht)
      (fun w _ hw => by rwa [hworker] at hw)
  | connect fd es s pool l hloop halloc hl => exact serial_connect hown halloc hl h
  | dequeue w s queue hw hqueue => exact serial_dequeue hqueue h
  | call w s pc l hw htask => exact serial_call hown hw htask h
  | attach w s admits hw htask => exact serial_attach hw htask h
  | remove w s hw | escape w s e hw =>
    exact h.of_core (fun _ hin => hin) (fun _ ht => ht)
      (fun v t hv => running_of_update nofun hv)
  | close w s hw =>
    refine h.of_core (fun _ hin => ?_) (fun t ht => ?_) (fun v t hv => running_of_update nofun hv)
    · rwa [SocketHandler.close_pool]
    · exact ht.imp_left SocketHandler.mem_watched_close
  | delete w s hw =>
    refine h.of_core (fun _ hin => ?_) (fun t ht => ?_) (fun v t hv => running_of_update nofun hv)
    · exact List.mem_cons_of_mem s hin
    · exact ht.imp_left SocketHandler.mem_watched_close

theorem owned_reachable [Fintype W] {σ : Serving W S} (h : (system server W S).Reachable σ) :
    σ.core.Owned :=
  h.invariant (P := fun σ => σ.core.Owned) (fun _ => EventLoop.owned_start) fun _ _ _ hown hstep =>
    (core_step hstep).elim (fun hsame => hsame ▸ hown)
      (fun hcore => EventLoop.owned_step hcore hown)

omit [DecidableEq W] [DecidableEq S] in
theorem serial_start {σ : Serving W S} (hstart : σ.core.Start) : Serial server σ where
  fresh s hs := absurd (hstart.idle s) hs
  waits s hs := by
    rcases hs with hwatched | hqueue | ⟨es, hloop⟩ | ⟨es, hloop⟩
    · obtain ⟨r, hr, -⟩ := SocketHandler.mem_watched_iff.mp hwatched
      rw [hstart.interest] at hr
      cases hr
    · rw [hstart.queue] at hqueue
      cases hqueue
    · rw [hstart.loop] at hloop
      cases hloop
    · rw [hstart.loop] at hloop
      cases hloop
  runs w s hw := by
    rw [hstart.worker] at hw
    cases hw
  slots s hs := absurd (hstart.idle s) hs

theorem serial_reachable [Fintype W] {σ : Serving W S} (h : (system server W S).Reachable σ) :
    Serial server σ := by
  have hboth := h.invariant (P := fun σ => σ.core.Owned ∧ Serial server σ)
    (fun σ hstart => ⟨EventLoop.owned_start hstart, serial_start hstart⟩)
    (fun σ _ σ' hpair hstep => ⟨(core_step hstep).elim (fun hsame => hsame ▸ hpair.1)
      (fun hcore => EventLoop.owned_step hcore hpair.1), serial_step hstep hpair.1 hpair.2⟩)
  exact hboth.2

end Serving

/-! ## What a client gets -/

/-- What `BufferRead` delivers of a response when it returns. -/
inductive Response.Delivers (res : Response) : Bytes → Prop
  | intro {pieces : List Bytes} :
      DataReader.Reaches res.getDataReader.streamSize res.getDataReader.reads pieces →
      res.Delivers (res.getDataReader.beginData ++ pieces.flatten)

/-- A response that the server may return for the message, from outside or by handlers. -/
inductive Site.Gives (server : Site) (m : Message) (res : Response) : Prop
  | intro {req : Request} (out : Outside) (fuel : ℕ) : m.ReadAs req →
      (¬ m.Multipart → req.body = m.body) → server.meets out →
      (server.handle out fuel req).ending = .returned res → Gives server m res

namespace Serving
variable {W S : Type} {server : Site}

/-- Whole responses, one for each of the first messages in order, and the messages behind these. -/
inductive Replies (server : Site) (ms : List Message) : Bytes → List Message → Prop
  | nil : Replies server ms [] ms
  | snoc {whole text : Bytes} {m : Message} {rest : List Message} {res : Response} :
      Replies server ms whole (m :: rest) → server.Gives m res → res.Delivers text →
      Replies server ms (whole ++ text) rest

/-- The beginning of a response to the next message, if any of it was sent. -/
inductive Begins (server : Site) : List Message → Bytes → Prop
  | nothing (rest : List Message) : Begins server rest []
  | response {part : Bytes} {m : Message} {rest : List Message} {res : Response} :
      server.Gives m res →
      part <+: res.getDataReader.beginData ++ res.getDataReader.reads.flatten →
      Begins server (m :: rest) part

/-- `Parse` on deliveries that fall into groups, one for each message. -/
theorem parse_aligned {ms : List Message} {socket next : Socket} {stale : Bytes} {req : Request}
    (haligned : Message.Aligned ms socket.deliveries) (hne : ∀ c ∈ socket.deliveries, c ≠ [])
    (hstale : stale.length = kReqBufSize) (hparse : parse stale socket {} = .ok (true, req, next)) :
    ∃ m rest, ms = m :: rest ∧ m.ReadAs req ∧ (¬ m.Multipart → req.body = m.body) ∧
      Message.Aligned rest next.deliveries ∧ ∀ c ∈ next.deliveries, c ≠ [] := by
  obtain ⟨ip, deliveries, fits⟩ := socket
  cases haligned with
  | nil => cases hparse
  | @cons m rest b group others hr hbody hone hrest =>
    obtain ⟨req', next', hrun, hnext, hread, hsame⟩ :
        ∃ req' next', parse stale ⟨ip, (m.head ++ b) :: (group ++ others), fits⟩ {} =
          .ok (true, req', next') ∧ next'.deliveries = others ∧ m.ReadAs req' ∧
          (¬ m.Multipart → req'.body = m.body) :=
      Message.parse_group hr hbody
        (fun c hc => hne c (List.mem_cons_of_mem _ (List.mem_append_left _ hc))) hone hstale
    rw [hparse] at hrun
    cases hrun
    refine ⟨m, rest, rfl, hread, hsame, by rwa [hnext], fun c hc => ?_⟩
    rw [hnext] at hc
    exact hne c (List.mem_cons_of_mem _ (List.mem_append_right _ hc))

/-- Tasks in one piece answer the messages in order. -/
theorem Session.replies {l l' : Link} {xs : List (Request × Response)} {ms : List Message}
    (h : Session server l xs l') (haligned : Message.Aligned ms l.socket.deliveries)
    (hne : ∀ c ∈ l.socket.deliveries, c ≠ []) :
    ∃ whole rest, Replies server ms whole rest ∧ l'.wire.sent = l.wire.sent ++ whole ∧
      Message.Aligned rest l'.socket.deliveries ∧ ∀ c ∈ l'.socket.deliveries, c ≠ [] := by
  induction h with
  | nil => exact ⟨[], ms, .nil, (List.append_nil _).symm, haligned, hne⟩
  | snoc _ hanswered ih =>
    obtain ⟨whole, rest, hreplies, hsent, halignedrest, hnerest⟩ := ih
    cases hanswered with
    | intro hstale hparse hmeets hending hlog hrun =>
      obtain ⟨m, others, rfl, hread, hbody, hothers, hneothers⟩ :=
        parse_aligned halignedrest hnerest hstale hparse
      obtain ⟨pieces, hreaches, -, hmore⟩ := bufferRead_appends hrun
      refine ⟨whole ++ _, others,
        hreplies.snoc ⟨_, _, hread, hbody, hmeets, hending⟩ (.intro hreaches), ?_, hothers,
        hneothers⟩
      rw [hmore, hsent, List.append_assoc]

/-- A task under way has sent the beginning of a response to the next message. -/
theorem Under.begins {l l' : Link} {pc : TaskPc} {ms : List Message} (h : Under server l pc l')
    (haligned : Message.Aligned ms l.socket.deliveries) (hne : ∀ c ∈ l.socket.deliveries, c ≠ []) :
    ∃ part, Begins server ms part ∧ l'.wire.sent = l.wire.sent ++ part := by
  obtain ⟨part, hsent, hnil |
      ⟨stale, req, res, out, fuel, next, hstale, hparse, hmeets, hending, hpart⟩⟩ := h.partway.sent
  · exact ⟨[], .nothing ms, by rw [hsent, hnil]⟩
  · obtain ⟨m, rest, rfl, hread, hbody, -⟩ := parse_aligned haligned hne hstale hparse
    exact ⟨part, .response ⟨out, fuel, hread, hbody, hmeets, hending⟩ hpart, hsent⟩

/-- On a connection that has seen tasks one after the other, messages that are delivered one by one
were answered in order. -/
theorem Serial.replies {σ : Serving W S} (h : Serial server σ) {s : S}
    (hs : s ∉ σ.core.handler.pool.idle) {ms : List Message}
    (haligned : Message.Aligned ms (σ.accepted s).socket.deliveries)
    (hne : ∀ c ∈ (σ.accepted s).socket.deliveries, c ≠ []) :
    ∃ whole rest part, Replies server ms whole rest ∧ Begins server rest part ∧
      (σ.link s).wire.sent = whole ++ part ∧ (σ.core.Waits s → part = []) := by
  have hfresh := h.fresh s hs
  by_cases hwaits : σ.core.Waits s
  · obtain ⟨xs, hsession⟩ := h.waits s hwaits
    obtain ⟨whole, rest, hreplies, hsent, -⟩ := hsession.replies haligned hne
    rw [hfresh, List.nil_append] at hsent
    exact ⟨whole, rest, [], hreplies, .nothing rest, by rw [hsent, List.append_nil], fun _ => rfl⟩
  · obtain ⟨xs, l, pc, hsession, hunder⟩ := h.slots s hs
    obtain ⟨whole, rest, hreplies, hsent, halignedrest, hnerest⟩ := hsession.replies haligned hne
    obtain ⟨part, hbegins, hpart⟩ := Under.begins hunder halignedrest hnerest
    rw [hfresh, List.nil_append] at hsent
    exact ⟨whole, rest, part, hreplies, hbegins, by rw [hpart, hsent], fun hin => absurd hin hwaits⟩

open Function (update)

/-! ## One request on one connection -/

/-- A worker that has the calls of a task to itself makes them. -/
theorem reachable_under [DecidableEq W] [DecidableEq S] {σ : Serving W S}
    (h : (system server W S).Reachable σ) {w : W} {s : S} (hw : σ.core.worker w = .running s)
    (htask : σ.task w = .reading) {pc : TaskPc} {l : Link} (hunder : Under server (σ.link s) pc l) :
    (system server W S).Reachable
      { σ with task := update σ.task w pc, link := update σ.link s l } := by
  induction hunder with
  | start => simpa [← htask] using h
  | step _ hstep ih =>
    obtain ⟨tr, htr⟩ := ih
    have hcall := htr.snoc (a := ()) (.call w s _ _ hw (by simpa using hstep))
    simpa using hcall.reachable

/-- A handler that greets. -/
def greet : ServerFunc := fun entry _ =>
  .returns { entry with resp := (entry.resp.setCode 201).setBodyData (ascii "hi".toList) }

/-- `greet` for `/`, and nothing that fails outside. -/
def greeter : Site where
  toServer := Server.bind ⟨∅, [], []⟩ (ascii ['/']) greet
  meets out := out = Server.quiet

def greeting : Response := (({} : Response).setCode 201).setBodyData (ascii "hi".toList)

/-- A connection that delivers `hello` and takes one greeting. -/
def helloLink : Link where
  socket := ⟨[], [Message.hello.head ++ Message.hello.body],
    by simp only [List.mem_singleton, forall_eq]; exact Message.hello_fits⟩
  wire := ⟨[some greeting.getDataReader.beginData.length], []⟩

theorem aligned_helloLink : Message.Aligned [Message.hello] helloLink.socket.deliveries :=
  @Message.Aligned.cons _ [] _ [] [] ⟨by decide, by decide⟩ rfl (fun _ => rfl) .nil

theorem nonempty_helloLink : ∀ c ∈ helloLink.socket.deliveries, c ≠ [] := by
  simp only [helloLink, List.mem_singleton, forall_eq]
  decide

theorem answers_greeter {req : Request} (hpath : req.path = ascii ['/']) :
    Answers greeter.toServer Server.quiet req greeting 0 := by
  have hlookup : greeter.handlers.lookup req.path = some [greet] := by rw [hpath]; rfl
  have hcall : ∃ r, Chain.call (greeter.chain [greet]) Server.quiet.logs 2 (.next none)
      { state := ⟨req, {}⟩ } = (.returned, r) ∧ r.state.resp = greeting ∧ r.beyond = 0 :=
    ⟨_, rfl, rfl, rfl⟩
  obtain ⟨r, hcall, hresp, hbeyond⟩ := hcall
  rw [← hresp, ← hbeyond]
  exact .handlers hlookup hcall

/-- The target of `hello` is `/`. -/
theorem path_hello {req : Request} (h : Message.hello.ReadAs req) : req.path = ascii ['/'] := by
  have htarget := h.target
  have hroot : parseTarget Message.hello.target ∅ = .ok (ascii ['/'], ∅) := by rfl
  rw [hroot] at htarget
  exact congrArg Prod.fst (Except.ok.inj htarget).symm

theorem under_helloLink :
    ∃ l, Under greeter helloLink (.released .attach) l ∧ l.socket.deliveries = [] := by
  have hstale : (List.replicate kReqBufSize (0 : UInt8)).length = kReqBufSize :=
    List.length_replicate
  obtain ⟨req, next, hparse, hnext, hread⟩ : ∃ req next, parse (List.replicate kReqBufSize 0)
      helloLink.socket {} = .ok (true, req, next) ∧ next.deliveries = [] ∧
        Message.hello.ReadAs req := by
    have hgroup := @Message.parse_group Message.hello Message.hello.body
      (List.replicate kReqBufSize 0) [] [] [] helloLink.socket.fits ⟨by decide, by decide⟩
      (List.append_nil _) nofun (fun _ => rfl) hstale
    obtain ⟨req, next, hparse, hnext, hread, -⟩ := hgroup
    exact ⟨req, next, hparse, hnext, hread⟩
  obtain ⟨fuel, hending, -⟩ := answers_iff.mp (answers_greeter (path_hello hread))
  have hreaches : DataReader.Reaches greeting.getDataReader.streamSize
      greeting.getDataReader.reads [] := .done _
  have hcovers : DataReader.Covers [greeting.getDataReader.beginData]
      (helloLink.wire.answers ++ []) := .cons (by simp [helloLink]) (.nil [])
  rw [List.append_nil] at hcovers
  obtain ⟨wire, hwire⟩ := bufferRead_covers hreaches hcovers
  exact ⟨_, Under.bufferRead hstale hparse rfl hending hwire, hnext⟩

/-- It is accepted, reported, served and attached again. -/
theorem reachable_hello : ∃ σ : Serving Unit Unit,
    (system greeter Unit Unit).Reachable σ ∧ σ.core.Waits () ∧
      () ∉ σ.core.handler.pool.idle ∧ σ.accepted () = helloLink := by
  obtain ⟨l, hunder, -⟩ := under_helloLink
  let start : Serving Unit Unit :=
    ⟨⟨⟨⟨[()], 0, 1⟩, fun _ => 0, ⟨[]⟩, []⟩, .waiting, [], fun _ => .idle⟩, fun _ => .reading,
      fun _ => helloLink, fun _ => helloLink⟩
  have hstart : (system greeter Unit Unit).Trace [] start :=
    .nil ⟨by decide, by decide, rfl, rfl, rfl, fun _ => rfl⟩
  have hwait := hstart.snoc (a := ()) (.loop _ (.wait [] [.listening] rfl (by simp) (by simp) rfl)
    rfl (fun _ hs => hs))
  have haccept := hwait.snoc (a := ()) (.loop _ (.accept 4 [] rfl (by simp [start])) rfl
    (fun _ hs => hs))
  have hslot := haccept.snoc (a := ()) (.connect 4 [] () ⟨[], 1, 1⟩ helloLink rfl rfl rfl)
  have hattach := hslot.snoc (a := ()) (.loop _ (.attach () [] true rfl) rfl (fun _ hs => hs))
  have hover := hattach.snoc (a := ()) (.loop _ (.finish rfl) rfl (fun _ hs => hs))
  have hreport := hover.snoc (a := ()) (.loop _ (.wait [⟨4, (), true⟩]
    [.client () ⟨false, false, true, rfl⟩] rfl (by decide) (by decide) rfl) rfl (fun _ hs => hs))
  have hdetach := hreport.snoc (a := ()) (.loop _ (.detach () ⟨false, false, true, rfl⟩ [] rfl) rfl
    (fun _ hs => hs))
  have henqueue := hdetach.snoc (a := ()) (.loop _ (.enqueue () [] rfl) rfl (fun _ hs => hs))
  have hdequeue := henqueue.snoc (a := ()) (.dequeue () () [] rfl rfl)
  obtain ⟨tr, hserved⟩ := reachable_under hdequeue.reachable (w := ()) (s := ()) (by rfl) (by rfl)
    hunder
  have hback := hserved.snoc (a := ()) (.attach () () true rfl rfl)
  exact ⟨_, hback.reachable, .inl (SocketHandler.mem_watched_iff.mpr
    ⟨⟨4, (), true⟩, List.mem_singleton.mpr rfl, rfl⟩), List.not_mem_nil, rfl⟩

/-! ## What every connection sees -/

variable [DecidableEq W] [DecidableEq S] [Fintype W]

/-- Whatever the loop, the workers and the clients do, a connection sees tasks in one piece, and
then at most a part of the one task that has it. -/
theorem serial {σ : Serving W S} (h : (system server W S).Reachable σ) {s : S}
    (hs : s ∉ σ.core.handler.pool.idle) :
    ∃ xs l pc, Session server (σ.accepted s) xs l ∧ Partway server l pc (σ.link s) ∧
      (∀ w, σ.core.worker w = .running s → pc = σ.task w) ∧
      (σ.core.Waits s → l = σ.link s) := by
  have hserial := serial_reachable h
  by_cases hrunning : ∃ w, σ.core.worker w = .running s
  · obtain ⟨w, hw⟩ := hrunning
    have hheld : s ∈ (σ.core.worker w).holds := by
      rw [hw]
      exact Multiset.mem_singleton_self s
    obtain ⟨xs, l, hsession, hunder⟩ := hserial.runs w s hw
    refine ⟨xs, l, σ.task w, hsession, hunder.partway, fun v hv => ?_, fun hwaits => ?_⟩
    · rw [(owned_reachable h).one_worker hheld (by rw [hv]; exact Multiset.mem_singleton_self s)]
    · exact absurd hheld (hwaits.not_held (owned_reachable h) w)
  · have hnone : ∀ pc w, σ.core.worker w = .running s → pc = σ.task w :=
      fun _ w hw => absurd ⟨w, hw⟩ hrunning
    by_cases hwaits : σ.core.Waits s
    · obtain ⟨xs, hsession⟩ := hserial.waits s hwaits
      exact ⟨xs, _, .reading, hsession, .reading, hnone _, fun _ => rfl⟩
    · obtain ⟨xs, l, pc, hsession, hunder⟩ := hserial.slots s hs
      exact ⟨xs, l, pc, hsession, hunder.partway, hnone pc, fun hin => absurd hin hwaits⟩

theorem serial_hello : ∃ σ : Serving Unit Unit, σ.core.Waits () ∧
    ∃ xs l pc, Session greeter (σ.accepted ()) xs l ∧ Partway greeter l pc (σ.link ()) ∧
      (∀ w, σ.core.worker w = .running () → pc = σ.task w) ∧ (σ.core.Waits () → l = σ.link ()) := by
  obtain ⟨σ, hreachable, hwaits, hidle, -⟩ := reachable_hello
  exact ⟨σ, hwaits, serial hreachable hidle⟩

/-- A client whose messages are delivered one by one gets, whatever the loop, the workers and the
other clients do, whole responses to the first of them in order, and then at most the beginning
of the next. -/
theorem answered_in_order {σ : Serving W S} (h : (system server W S).Reachable σ) {s : S}
    (hs : s ∉ σ.core.handler.pool.idle) {ms : List Message}
    (haligned : Message.Aligned ms (σ.accepted s).socket.deliveries)
    (hne : ∀ c ∈ (σ.accepted s).socket.deliveries, c ≠ []) :
    ∃ whole rest part, Replies server ms whole rest ∧ Begins server rest part ∧
      (σ.link s).wire.sent = whole ++ part ∧ (σ.core.Waits s → part = []) :=
  (serial_reachable h).replies hs haligned hne

theorem answered_in_order_hello : ∃ σ : Serving Unit Unit, σ.core.Waits () ∧
    ∃ whole rest part, Replies greeter [Message.hello] whole rest ∧
      Begins greeter rest part ∧ (σ.link ()).wire.sent = whole ++ part ∧
      (σ.core.Waits () → part = []) := by
  obtain ⟨σ, hreachable, hwaits, hidle, haccepted⟩ := reachable_hello
  exact ⟨σ, hwaits, answered_in_order hreachable hidle (by rw [haccepted]; exact aligned_helloLink)
    (by rw [haccepted]; exact nonempty_helloLink)⟩

end Serving
end Calabash
