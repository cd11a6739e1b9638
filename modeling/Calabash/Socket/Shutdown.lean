import Calabash.Socket.EventLoop

/-!
# `Server::Start` and `Server::Stop`

One lifetime of a `SocketHandler` after the other, over the one object pool of the process.
`Start` makes a thread pool and a handler, and stays in `handle`; `Stop`, in another thread,
clears `is_open_`, deletes the poller, gives up the handler and then the thread pool, whose
destructor lets the workers run what is queued.

The steps are those of the event loop, with the test of `is_open_` in between, and those of
`Start` and `Stop`. The label of a step says who takes it and what it uses. A step that uses
what has been freed has no meaning; the model goes on as if nothing had happened, so that
the step shows.

## Main results

* `stop_safe` — what is used is still there, if `Stop` frees only what is out of use.
* `stop_gives_back` — every connection is given back, if `Stop` finds none open.
-/

namespace Calabash

namespace Lifetimes

/-- Where the thread is that calls `Start`. -/
inductive StartPc
  | away
  /-- With a new handler, in front of `handle`. -/
  | created
  /-- In front of the test of `is_open_`. -/
  | testing
  /-- In the body of the loop. -/
  | inside
  deriving DecidableEq, Repr

/-- Where the thread is that calls `Stop`. -/
inductive StopPc
  | away
  /-- In front of `is_open_ = false`. -/
  | called
  /-- In front of `delete m_epoll`. -/
  | shut
  /-- In front of `socket_handler_ = nullptr`. -/
  | freed
  /-- In front of `thread_pool_ = nullptr`. -/
  | released
  /-- In the destructor of the thread pool. -/
  | joining
  deriving DecidableEq, Repr

/-- What a step uses. -/
structure Use where
  poller : Bool
  handler : Bool
  deriving DecidableEq, Repr

/-- Nothing; the handler alone; the poller, by way of the handler. -/
def Use.none : Use := ⟨false, false⟩
def Use.ofHandler : Use := ⟨false, true⟩
def Use.ofPoller : Use := ⟨true, true⟩

/-- Who takes a step. -/
inductive Label
  | start
  /-- The event loop. -/
  | loop (use : Use)
  /-- A task, on a worker of the thread pool. -/
  | task (use : Use)
  /-- `Stop` is called. -/
  | call
  | shut
  /-- `stop()` deletes the poller. -/
  | free
  /-- `Stop` releases the handler. -/
  | release
  | drop
  /-- The workers are joined, and `Stop` returns. -/
  | join
  deriving DecidableEq, Repr

def Label.use : Label → Use
  | .loop use | .task use => use
  | _ => .none

end Lifetimes

/-- A `Server`: what the event loop and the workers work on, `is_open_`, whether the poller
and the handler exist, and where `Start` and `Stop` are. -/
structure Lifetimes (W S : Type) where
  core : EventLoop W S
  isOpen : Bool
  poller : Bool
  handler : Bool
  starter : Lifetimes.StartPc
  stopper : Lifetimes.StopPc

namespace Lifetimes
variable {W S : Type}

open Function (update)

/-- The registrations are gone with the poller, or not there yet. -/
def unwatched (σ : EventLoop W S) : EventLoop W S :=
  { σ with handler := { σ.handler with epoll := ⟨[]⟩ } }

/-- `handle` limits the pool to the connections it may have. -/
def limited (σ : EventLoop W S) (maxConnections : UInt64) : EventLoop W S :=
  { σ with handler := { σ.handler with pool := σ.handler.pool.setMaxSize maxConnections } }

@[simp, grind =] theorem unwatched_loop (σ : EventLoop W S) : (unwatched σ).loop = σ.loop := rfl
@[simp, grind =] theorem unwatched_queue (σ : EventLoop W S) : (unwatched σ).queue = σ.queue := rfl
@[simp, grind =] theorem unwatched_worker (σ : EventLoop W S) :
    (unwatched σ).worker = σ.worker := rfl
@[simp, grind =] theorem unwatched_pool (σ : EventLoop W S) :
    (unwatched σ).handler.pool = σ.handler.pool := rfl

@[simp, grind =] theorem limited_loop (σ : EventLoop W S) (n : UInt64) :
    (limited σ n).loop = σ.loop := rfl
@[simp, grind =] theorem limited_queue (σ : EventLoop W S) (n : UInt64) :
    (limited σ n).queue = σ.queue := rfl
@[simp, grind =] theorem limited_worker (σ : EventLoop W S) (n : UInt64) :
    (limited σ n).worker = σ.worker := rfl

section
variable [DecidableEq W] [DecidableEq S]

inductive Step (s : Lifetimes W S) : Label → Lifetimes W S → Prop
  -- `Start`
  | start : s.starter = .away → s.stopper = .away → s.handler = false →
      Step s .start { s with
        core := unwatched s.core, isOpen := true, handler := true, starter := .created }
  | enter (maxConnections : UInt64) : s.starter = .created →
      Step s (.loop .ofHandler) { s with
        core := limited (unwatched s.core) maxConnections
        isOpen := true
        poller := true
        starter := .testing }
  | goOn : s.starter = .testing → s.isOpen = true →
      Step s (.loop .ofHandler) { s with starter := .inside }
  | leave : s.starter = .testing → s.isOpen = false →
      Step s (.loop .ofHandler) { s with starter := .away }
  -- the event loop
  /-- Nothing comes within the waiting time. -/
  | timeout : s.starter = .inside → s.core.loop = .waiting →
      Step s (.loop .ofPoller) { s with starter := .testing }
  | wait (rs : List (Registration S)) (es : List (Event S)) : s.starter = .inside →
      s.core.loop = .waiting →
      (∀ r ∈ rs, r ∈ s.core.handler.epoll.interest ∧ r.armed = true) → rs.Nodup →
      es.filterMap Event.socket? = rs.map (·.ptr) →
      Step s (.loop .ofPoller) { s with
        core := { s.core with
          handler := { s.core.handler with epoll := s.core.handler.epoll.report rs }
          loop := .batch es } }
  | accept (answer : ℤ) (es : List (Event S)) : s.starter = .inside →
      s.core.loop = .batch (.listening :: es) → answer ∉ s.core.handler.opened →
      Step s (.loop .ofPoller) { s with
        core := { s.core with
          handler := s.core.handler.accepted answer, loop := .accepted (Socket.accept answer) es } }
  /-- `break`, and on to the test. -/
  | null (fd : ℤ) (es : List (Event S)) : s.starter = .inside → s.core.loop = .accepted fd es →
      s.core.handler.pool.allocate = .null →
      Step s (.loop .ofHandler) { s with
        core := { s.core with loop := .waiting }, starter := .testing }
  | stuck (fd : ℤ) (es : List (Event S)) : s.starter = .inside → s.core.loop = .accepted fd es →
      s.core.handler.pool.allocate = .stuck →
      Step s (.loop .ofHandler) { s with core := { s.core with loop := .stuck } }
  | slot (fd : ℤ) (es : List (Event S)) (x : S) (pool : ObjectPool S) : s.starter = .inside →
      s.core.loop = .accepted fd es → s.core.handler.pool.allocate = .slot x pool →
      Step s (.loop .ofHandler) { s with
        core := { s.core with
          handler := s.core.handler.construct x pool fd, loop := .attaching x es } }
  | attach (x : S) (es : List (Event S)) (admits : Bool) : s.starter = .inside →
      s.core.loop = .attaching x es →
      Step s (.loop .ofPoller) { s with
        core := { s.core with handler := s.core.handler.attach x admits, loop := .batch es } }
  | detach (x : S) (ready : Ready) (es : List (Event S)) : s.starter = .inside →
      s.core.loop = .batch (.client x ready :: es) →
      Step s (.loop .ofPoller) { s with
        core := { s.core with
          handler := s.core.handler.detach x
          loop := if ready.hup || ready.err then .closing x es else .queueing x es } }
  | close (x : S) (es : List (Event S)) : s.starter = .inside → s.core.loop = .closing x es →
      Step s (.loop .ofHandler) { s with
        core := { s.core with handler := s.core.handler.close x, loop := .deleting x es } }
  | delete (x : S) (es : List (Event S)) : s.starter = .inside → s.core.loop = .deleting x es →
      Step s (.loop .ofHandler) { s with
        core := { s.core with handler := s.core.handler.delete x, loop := .batch es } }
  | enqueue (x : S) (es : List (Event S)) : s.starter = .inside → s.core.loop = .queueing x es →
      Step s (.loop .ofHandler) { s with
        core := { s.core with loop := .batch es, queue := s.core.queue ++ [x] } }
  | finish : s.starter = .inside → s.core.loop = .batch [] →
      Step s (.loop .none) { s with
        core := { s.core with loop := .waiting }, starter := .testing }
  -- a worker
  | dequeue (w : W) (x : S) (queue : List S) : s.core.worker w = .idle →
      s.core.queue = x :: queue →
      Step s (.task .none) { s with
        core := { s.core with queue := queue, worker := update s.core.worker w (.running x) } }
  | reattach (w : W) (x : S) (admits : Bool) : s.core.worker w = .running x →
      Step s (.task .ofPoller) { s with
        core := { s.core with
          handler := s.core.handler.attach x admits, worker := update s.core.worker w .idle } }
  | remove (w : W) (x : S) : s.core.worker w = .running x →
      Step s (.task .ofHandler) { s with
        core := { s.core with worker := update s.core.worker w (.closing x) } }
  | closeTask (w : W) (x : S) : s.core.worker w = .closing x →
      Step s (.task .none) { s with
        core := { s.core with
          handler := s.core.handler.close x, worker := update s.core.worker w (.deleting x) } }
  | deleteTask (w : W) (x : S) : s.core.worker w = .deleting x → s.core.loop ≠ .stuck →
      Step s (.task .ofHandler) { s with
        core := { s.core with
          handler := s.core.handler.delete x, worker := update s.core.worker w .idle } }
  | escape (w : W) (x : S) : s.core.worker w = .running x →
      Step s (.task .none) { s with
        core := { s.core with worker := update s.core.worker w .idle } }
  -- `Stop`
  | call : s.stopper = .away → s.handler = true → Step s .call { s with stopper := .called }
  | shut : s.stopper = .called → Step s .shut { s with isOpen := false, stopper := .shut }
  | free : s.stopper = .shut →
      Step s .free { s with core := unwatched s.core, poller := false, stopper := .freed }
  /-- The destructor of the handler deletes the poller, if there is one. -/
  | release : s.stopper = .freed →
      Step s .release { s with
        core := unwatched s.core, poller := false, handler := false, stopper := .released }
  | drop : s.stopper = .released → Step s .drop { s with stopper := .joining }
  /-- The workers have run everything, and are joined. -/
  | join : s.stopper = .joining → s.core.queue = [] → (∀ w, s.core.worker w = .idle) →
      Step s .join { s with stopper := .away }

/-- Before the first `Start`: no handler, and every slot of the pool idle. -/
structure Init (s : Lifetimes W S) : Prop where
  core : EventLoop.Start s.core
  nowSize : s.core.handler.pool.nowSize = 0
  closed : ∀ x, ¬ 0 < s.core.handler.sockfd x
  isOpen : s.isOpen = false
  poller : s.poller = false
  handler : s.handler = false
  starter : s.starter = .away
  stopper : s.stopper = .away

def system (W S : Type) [DecidableEq W] [DecidableEq S] : System (Lifetimes W S) Label where
  init := Init
  step := Step

/-! ## What is used is there -/

/-- The loop comes to the end of its batch without the poller. -/
def Spent (σ : EventLoop W S) : Prop :=
  match σ.loop with
  | .batch es | .closing _ es | .deleting _ es => es = []
  | .accepted _ _ => (∀ x pool, σ.handler.pool.allocate ≠ .slot x pool) ∧ ∀ w, σ.worker w = .idle
  | _ => False

omit [DecidableEq W] [DecidableEq S] in
@[simp] theorem spent_unwatched (σ : EventLoop W S) : Spent (unwatched σ) ↔ Spent σ := Iff.rfl

/-- Nobody comes back to the poller: the event loop does not, and no task is queued or in
front of its `attach` or `remove`. -/
def Unpolled (s : Lifetimes W S) : Prop :=
  (s.starter = .away ∨ s.starter = .created ∨ s.starter = .testing ∧ s.isOpen = false ∨
    s.starter = .inside ∧ (s.core.loop = .stuck ∨ s.isOpen = false ∧ Spent s.core)) ∧
  s.core.queue = [] ∧ ∀ w x, s.core.worker w ≠ .running x

/-- Nobody comes back to the handler: the loop has left `handle`, or is stuck, and no task is
queued or running. -/
def Unhandled (s : Lifetimes W S) : Prop :=
  (s.starter = .away ∨ s.starter = .inside ∧ s.core.loop = .stuck) ∧
  s.core.queue = [] ∧ ∀ w, s.core.worker w = .idle

/-- `Stop` frees only what nobody comes back to. -/
def Quiet (s : Lifetimes W S) : Label → Prop
  | .free => s.Unpolled
  | .release => s.Unhandled
  | _ => True

/-- What a step uses exists. -/
structure Safe (s : Lifetimes W S) (a : Label) : Prop where
  poller : a.use.poller = true → s.poller = true
  handler : a.use.handler = true → s.handler = true

/-- What the program points say about what exists, as long as `Stop` is quiet. -/
structure Sound (s : Lifetimes W S) : Prop where
  stopping : s.stopper = .called ∨ s.stopper = .shut ∨ s.stopper = .freed → s.handler = true
  stopped : s.stopper = .released ∨ s.stopper = .joining → s.handler = false
  created : s.starter = .created → s.core.queue = [] ∧ ∀ w, s.core.worker w = .idle
  resting : s.starter ≠ .inside → s.core.loop = .waiting
  unpolled : s.poller = false → s.Unpolled
  unhandled : s.handler = false → s.poller = false ∧ s.Unhandled

omit [DecidableEq W] [DecidableEq S] in
theorem sound_init {s : Lifetimes W S} (h : Init s) : s.Sound := by
  have hunhandled : s.Unhandled := ⟨.inl h.starter, h.core.queue, h.core.worker⟩
  refine ⟨?_, ?_, ?_, fun _ => h.core.loop, fun _ => ?_, fun _ => ⟨h.poller, hunhandled⟩⟩
  · simp [h.stopper]
  · simp [h.stopper]
  · simp [h.starter]
  · exact ⟨.inl h.starter, h.core.queue, by simp [h.core.worker]⟩

theorem unpolled_step {s t : Lifetimes W S} {a : Label} (h : s.Sound) (hstep : Step s a t)
    (hquiet : s.Quiet a) : t.poller = false → t.Unpolled := by
  obtain ⟨hstopping, -, -, hresting, hunpolled, -⟩ := h
  rw [Unpolled] at hunpolled
  cases hstep <;>
    simp -failIfUnchanged only [Unpolled, unwatched_loop, unwatched_queue, unwatched_worker,
      spent_unwatched, limited_loop, limited_queue, limited_worker] <;>
    grind -ring -linarith [Quiet, Spent, Unpolled, Unhandled]

theorem unhandled_step {s t : Lifetimes W S} {a : Label} (h : s.Sound) (hstep : Step s a t)
    (hquiet : s.Quiet a) : t.handler = false → t.poller = false ∧ t.Unhandled := by
  obtain ⟨hstopping, hstopped, -, hresting, -, hunhandled⟩ := h
  rw [Unhandled] at hunhandled
  cases hstep <;>
    simp -failIfUnchanged only [Unhandled, unwatched_loop, unwatched_queue, unwatched_worker,
      limited_loop, limited_queue, limited_worker] <;>
    grind -ring -linarith [Quiet, Unhandled]

theorem sound_step {s t : Lifetimes W S} {a : Label} (h : s.Sound) (hstep : Step s a t)
    (hquiet : s.Quiet a) : t.Sound := by
  refine ⟨?_, ?_, ?_, ?_, unpolled_step h hstep hquiet, unhandled_step h hstep hquiet⟩
  · have hstopping := h.stopping
    have hstopped := h.stopped
    cases hstep <;> grind -ring -linarith
  · have hstopping := h.stopping
    have hstopped := h.stopped
    cases hstep <;> grind -ring -linarith
  · have hcreated := h.created
    have hunhandled := h.unhandled
    rw [Unhandled] at hunhandled
    cases hstep <;>
      simp -failIfUnchanged only [unwatched_queue, unwatched_worker, limited_queue,
        limited_worker] <;>
      grind -ring -linarith
  · have hresting := h.resting
    cases hstep <;> grind -ring -linarith

theorem sound_reachable {s : Lifetimes W S}
    (h : ((system W S).guarded Quiet).Reachable s) : s.Sound := by
  apply h.invariant (P := Sound)
  · exact fun _ => sound_init
  · exact fun _ _ _ hsound hstep => sound_step hsound hstep.1 hstep.2

theorem safe_of_sound {s t : Lifetimes W S} {a : Label} (h : s.Sound) (hstep : Step s a t) :
    s.Safe a := by
  obtain ⟨hstopping, hstopped, hcreated, hresting, hunpolled, hunhandled⟩ := h
  rw [Unpolled] at hunpolled
  rw [Unhandled] at hunhandled
  cases hstep <;> constructor <;>
    grind -ring -linarith [Spent, Label.use, Use.none, Use.ofHandler, Use.ofPoller]

/-- Under a quiet `Stop`, in every run, whatever is used is still there. -/
theorem stop_safe {s t : Lifetimes W S} {a : Label}
    (h : ((system W S).guarded Quiet).Reachable s) (hstep : Step s a t) : s.Safe a :=
  safe_of_sound (sound_reachable h) hstep

/-- A process that has not served anything, with one worker and two slots. -/
def fresh : Lifetimes Unit Bool where
  core := ⟨⟨⟨[true, false], 0, -1⟩, fun _ => 0, ⟨[]⟩, []⟩, .waiting, [], fun _ => .idle⟩
  isOpen := false
  poller := false
  handler := false
  starter := .away
  stopper := .away

theorem init_fresh : fresh.Init where
  core := ⟨by decide, by decide, rfl, rfl, rfl, fun _ => rfl⟩
  nowSize := rfl
  closed := by simp [fresh]
  isOpen := rfl
  poller := rfl
  handler := rfl
  starter := rfl
  stopper := rfl

/-- A connection has a request, and its task is on the way into `remove` when the poller is
deleted; it still finds the handler. -/
theorem stop_safe_removing : ∃ s t : Lifetimes Unit Bool, s.poller = false ∧
    s.core.worker () = .deleting true ∧ Step s (.task .ofHandler) t ∧
      s.Safe (.task .ofHandler) := by
  have hinit : ((system Unit Bool).guarded Quiet).Trace [] fresh := .nil init_fresh
  have hstart := hinit.snoc ⟨.start rfl rfl rfl, trivial⟩
  have henter := hstart.snoc ⟨.enter 2 rfl, trivial⟩
  have hgoOn := henter.snoc ⟨.goOn rfl rfl, trivial⟩
  have hwait := hgoOn.snoc ⟨.wait [] [.listening] rfl rfl (by simp) (by simp) rfl, trivial⟩
  have haccept := hwait.snoc ⟨.accept 4 [] rfl rfl (by decide), trivial⟩
  have hslot := haccept.snoc ⟨.slot 4 [] true ⟨[false], 1, 2⟩ rfl rfl rfl, trivial⟩
  have hattach := hslot.snoc ⟨.attach true [] true rfl rfl, trivial⟩
  have hover := hattach.snoc ⟨.finish rfl rfl, trivial⟩
  have hgoOn' := hover.snoc ⟨.goOn rfl rfl, trivial⟩
  have hreport := hgoOn'.snoc ⟨.wait [⟨4, true, true⟩] [.client true ⟨false, false, true, rfl⟩] rfl
    rfl (by decide) (by decide) rfl, trivial⟩
  have hdetach := hreport.snoc ⟨.detach true ⟨false, false, true, rfl⟩ [] rfl rfl, trivial⟩
  have henqueue := hdetach.snoc ⟨.enqueue true [] rfl rfl, trivial⟩
  have hover' := henqueue.snoc ⟨.finish rfl rfl, trivial⟩
  have htake := hover'.snoc ⟨.dequeue () true [] rfl rfl, trivial⟩
  have hremove := htake.snoc ⟨.remove () true rfl, trivial⟩
  have hcall := hremove.snoc ⟨.call rfl rfl, trivial⟩
  have hshut := hcall.snoc ⟨.shut rfl, trivial⟩
  have hleave := hshut.snoc ⟨.leave rfl rfl, trivial⟩
  have hfree := hleave.snoc ⟨.free rfl, .inl rfl, rfl, fun _ _ => nofun⟩
  have hclose := hfree.snoc ⟨.closeTask () true rfl, trivial⟩
  have hwaiting : ∀ {loop : EventLoop.LoopPc Bool}, loop = .waiting → loop ≠ .stuck := by
    rintro _ rfl
    simp
  exact ⟨_, _, rfl, rfl, .deleteTask () true rfl (hwaiting rfl),
    stop_safe hclose.reachable (.deleteTask () true rfl (hwaiting rfl))⟩

/-- `Stop` deletes the poller in which the loop waits. -/
theorem stop_safe_fails :
    ¬ ∀ (s t : Lifetimes Unit Bool) (a : Label),
      (system Unit Bool).Reachable s → Step s a t → s.Safe a := by
  intro hall
  have hinit : (system Unit Bool).Trace [] fresh := .nil init_fresh
  have hstart := hinit.snoc (.start rfl rfl rfl)
  have henter := hstart.snoc (.enter 2 rfl)
  have hgoOn := henter.snoc (.goOn rfl rfl)
  have hcall := hgoOn.snoc (.call rfl rfl)
  have hshut := hcall.snoc (.shut rfl)
  have hfree := hshut.snoc (.free rfl)
  have hsafe := hall _ _ _ hfree.reachable (.timeout rfl rfl)
  exact absurd (hsafe.poller rfl) (by decide)

end

end Lifetimes
end Calabash
