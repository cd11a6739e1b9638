import Calabash.Web.Deployment

/-!
# Connections that nobody gives up

Clients that send whole requests and stay, a kernel that reports them when they have something to
say, and room for every registration: then no connection is closed, every task that starts has a
request in front of it, and no task throws unless a handler does.

## Main results

* `tended_step` — what a step leaves of such a connection.
* `attended_reachable` — what this makes of a run on the thread pool.
-/

namespace Calabash

open RequestMaker

/-- The client sends requests one by one. -/
def Link.Honest (l : Link) : Prop :=
  ∃ ms, Message.Aligned ms l.socket.deliveries ∧ ∀ c ∈ l.socket.deliveries, c ≠ []

/-- `Parse` returns the next request, if there is one. -/
theorem Link.Honest.parse {l : Link} (h : l.Honest) (hmore : l.socket.deliveries ≠ [])
    {stale : Bytes} (hstale : stale.length = kReqBufSize) :
    ∃ req next, RequestMaker.parse stale l.socket {} = .ok (true, req, next) := by
  obtain ⟨ms, haligned, hne⟩ := h
  obtain ⟨⟨ip, deliveries, fits⟩, wire⟩ := l
  cases haligned with
  | nil => exact absurd rfl hmore
  | @cons m rest b group others hr hbody hone hrest =>
    have hgroup : ∀ c ∈ group, c ≠ [] :=
      fun c hc => hne c (List.mem_cons_of_mem _ (List.mem_append_left _ hc))
    obtain ⟨req, next, hrun, -⟩ : ∃ req next,
        RequestMaker.parse stale ⟨ip, (m.head ++ b) :: (group ++ others), fits⟩ {} =
          .ok (true, req, next) ∧ next.deliveries = others ∧ m.ReadAs req ∧
          (¬ m.Multipart → req.body = m.body) := Message.parse_group hr hbody hgroup hone hstale
    exact ⟨req, next, hrun⟩

/-- A task that has a request in front of it does not remove its connection. -/
theorem Partway.not_remove {server : Site} {l l' : Link}
    (h : Partway server l (.released .remove) l') (hl : l.Honest)
    (hmore : l.socket.deliveries ≠ []) : False := by
  cases h with
  | removing hstale hparse =>
    obtain ⟨req, next, hrun⟩ := hl.parse hmore hstale
    rw [hparse] at hrun
    cases hrun

/-- The client of an event is registered. -/
theorem EventLoop.Owned.watched_of_event {W S : Type} [Fintype W] {σ : EventLoop W S}
    (hown : σ.Owned) {s : S} {ready : Ready} (h : Event.client s ready ∈ σ.loop.events) :
    s ∈ σ.handler.watched := by
  have hpending : s ∈ σ.loop.pending := List.mem_filterMap.mpr ⟨_, h, rfl⟩
  obtain ⟨r, hr, rfl, -⟩ := hown.reported s hpending
  exact SocketHandler.Owns.mem_watched hr

/-- Neither on its way to give a socket back nor in `AllocNewBlock`. -/
def EventLoop.LoopPc.keeps {S : Type} : EventLoop.LoopPc S → Bool
  | .closing _ _ | .deleting _ _ | .stuck => false
  | _ => true

namespace Serving
variable {W S : Type} {server : Site}

/-- Every connection stays, and has a request for the task that is to come or has begun. -/
structure Tended (server : Site) (σ : Serving W S) : Prop where
  honest : ∀ s, s ∉ σ.core.handler.pool.idle → (σ.accepted s).Honest
  loop : σ.core.loop.keeps = true
  worker : ∀ w, σ.core.worker w = .idle ∨ ∃ s, σ.core.worker w = .running s
  events : ∀ s ready, Event.client s ready ∈ σ.core.loop.events →
    (ready.hup || ready.err) = false ∧ (σ.link s).socket.deliveries ≠ []
  queueing : ∀ s es, σ.core.loop = .queueing s es → (σ.link s).socket.deliveries ≠ []
  queued : ∀ s ∈ σ.core.queue, (σ.link s).socket.deliveries ≠ []
  runs : ∀ w s, σ.core.worker w = .running s → ∃ xs l, Session server (σ.accepted s) xs l ∧
    Under server l (σ.task w) (σ.link s) ∧ l.socket.deliveries ≠ []

/-- What is left of requests that are delivered one by one is, after some tasks. -/
theorem Session.honest {l l' : Link} {xs : List (Request × Response)}
    (h : Session server l xs l') (hl : l.Honest) : l'.Honest := by
  obtain ⟨ms, haligned, hne⟩ := hl
  obtain ⟨whole, rest, -, -, hrest, hnerest⟩ := h.replies haligned hne
  exact ⟨rest, hrest, hnerest⟩

/-- The loop and the workers go on with the same connections. -/
theorem Tended.of_core {σ : Serving W S} (h : Tended server σ) {core : EventLoop W S}
    (hidle : ∀ s, s ∉ core.handler.pool.idle → s ∉ σ.core.handler.pool.idle)
    (hloop : core.loop.keeps = true)
    (hworker : ∀ w, core.worker w = .idle ∨ core.worker w = σ.core.worker w)
    (hevents : ∀ s ready, Event.client s ready ∈ core.loop.events →
      (ready.hup || ready.err) = false ∧ (σ.link s).socket.deliveries ≠ [])
    (hqueueing : ∀ s es, core.loop = .queueing s es → (σ.link s).socket.deliveries ≠ [])
    (hqueued : ∀ s ∈ core.queue, (σ.link s).socket.deliveries ≠ []) :
    Tended server { σ with core := core } where
  honest s hs := h.honest s (hidle s hs)
  loop := hloop
  worker w := (hworker w).elim .inl fun hw => by
    simp only [hw]
    exact h.worker w
  events := hevents
  queueing := hqueueing
  queued := hqueued
  runs w s hw := by
    refine h.runs w s ?_
    rcases hworker w with hidle | hsame
    · rw [show core.worker w = _ from hw] at hidle
      cases hidle
    · rwa [← hsame]

variable [DecidableEq W] [DecidableEq S]

open Function (update)

/-- The loop outside of the construction of a `Socket`. -/
theorem tended_loop {σ : Serving W S} {core : EventLoop W S} (hstep : EventLoop.Step σ.core core)
    (hworker : core.worker = σ.core.worker)
    (hidle : ∀ s ∈ σ.core.handler.pool.idle, s ∈ core.handler.pool.idle)
    (hown : σ.core.handler.pool.idle.Nodup)
    (hslot : ∀ fd es, σ.core.loop = .accepted fd es →
      core.loop ≠ .waiting ∧ core.loop ≠ .stuck)
    (hreports : σ.core.loop = .waiting → ∀ s ready, Event.client s ready ∈ core.loop.events →
      (ready.hup || ready.err) = false ∧ (σ.link s).socket.deliveries ≠ [])
    (h : Tended server σ) : Tended server { σ with core := core } ∧
      core.handler.pool = σ.core.handler.pool := by
  have hmoves : ∀ w pc, update σ.core.worker w pc = σ.core.worker → σ.core.worker w = pc := by
    intro w pc heq
    have hw := congrFun heq w
    rw [Function.update_self] at hw
    exact hw.symm
  have hkeeps := h.loop
  have hevents : ∀ e es, σ.core.loop.events = e :: es → ∀ s ready, Event.client s ready ∈ es →
      (ready.hup || ready.err) = false ∧ (σ.link s).socket.deliveries ≠ [] :=
    fun e es heq s ready hmem => h.events s ready (heq ▸ List.mem_cons_of_mem e hmem)
  cases hstep with
  | wait rs es hloop =>
    exact ⟨h.of_core (fun _ hs => hs) rfl (fun w => .inr rfl) (hreports hloop) (by simp) h.queued,
      rfl⟩
  | accept answer es hloop =>
    refine ⟨h.of_core (fun s hs => ?_) rfl (fun w => .inr rfl) (hevents .listening es ?_) (by simp)
      h.queued, by simp⟩
    · simpa using hs
    · rw [hloop]
      rfl
  | null fd es hloop => exact absurd rfl (hslot fd es hloop).1
  | stuck fd es hloop => exact absurd rfl (hslot fd es hloop).2
  | slot fd es s pool hloop halloc =>
    have hslots := ObjectPool.allocate_slot halloc
    have hnew : s ∉ pool.idle := (List.nodup_cons.mp (hslots ▸ hown)).1
    exact absurd (hidle s (by rw [hslots]; exact List.mem_cons_self)) hnew
  | attach s es admits hloop =>
    refine ⟨h.of_core (fun _ hs => hs) rfl (fun w => .inr rfl) (fun t ready hmem => ?_) (by simp)
      h.queued, rfl⟩
    exact h.events t ready (by rw [hloop]; exact hmem)
  | detach s ready es hloop =>
    obtain ⟨hready, hmore⟩ := h.events s ready (by rw [hloop]; exact List.mem_cons_self)
    simp only [hready, Bool.false_eq_true, if_false]
    refine ⟨h.of_core (fun _ hs => hs) rfl (fun w => .inr rfl)
      (hevents (.client s ready) es (by rw [hloop]; rfl)) (fun t es' hto => ?_) h.queued, rfl⟩
    cases hto
    exact hmore
  | close s es hloop | delete s es hloop =>
    rw [hloop] at hkeeps
    cases hkeeps
  | enqueue s es hloop =>
    refine ⟨h.of_core (fun _ hs => hs) rfl (fun w => .inr rfl) (fun t ready hmem => ?_) (by simp)
      fun t ht => ?_, rfl⟩
    · exact h.events t ready (by rw [hloop]; exact hmem)
    · rcases List.mem_append.mp ht with hqueue | hlast
      · exact h.queued t hqueue
      · obtain rfl := List.mem_singleton.mp hlast
        exact h.queueing t es hloop
  | finish hloop =>
    exact ⟨h.of_core (fun _ hs => hs) rfl (fun w => .inr rfl) (by simp [EventLoop.LoopPc.events])
      (by simp) h.queued, rfl⟩
  | dequeue w s queue hw | reattach w s admits hw | remove w s hw | closeTask w s hw
  | deleteTask w s hw | escape w s hw =>
    have hsame := hmoves w _ hworker
    rw [hw] at hsame
    cases hsame

omit [DecidableEq W] in
/-- A new connection. -/
theorem tended_connect [Fintype W] {σ : Serving W S} {fd : ℤ} {es : List (Event S)} {s : S}
    {pool : ObjectPool S} {l : Link} (hown : σ.core.Owned) (hloop : σ.core.loop = .accepted fd es)
    (halloc : σ.core.handler.pool.allocate = .slot s pool) (hl : l.Honest)
    (h : Tended server σ) : Tended server
      { core := { σ.core with
          handler := σ.core.handler.construct s pool fd, loop := .attaching s es }
        task := σ.task, link := update σ.link s l, accepted := update σ.accepted s l } := by
  have hslots := ObjectPool.allocate_slot halloc
  have hidle : s ∈ σ.core.handler.pool.idle := by
    rw [hslots]
    exact List.mem_cons_self
  have hother : ∀ t, t ∉ σ.core.handler.pool.idle → t ≠ s := by
    rintro t ht rfl
    exact ht hidle
  constructor
  · intro t ht
    by_cases hts : t = s
    · subst hts
      simpa using hl
    · simp only [Function.update_of_ne hts]
      refine h.honest t ?_
      rw [hslots]
      exact List.not_mem_cons_of_ne_of_not_mem hts ht
  · rfl
  · exact h.worker
  · intro t ready hmem
    have hevent : Event.client t ready ∈ σ.core.loop.events := by
      rw [hloop]
      exact hmem
    have hheld := hown.given t (Multiset.mem_add.mpr (.inl (hown.watched_of_event hevent)))
    simp only [Function.update_of_ne (hother t hheld)]
    exact h.events t ready hevent
  · intro t es' hto
    cases hto
  · intro t ht
    have hheld : t ∈ σ.core.inHand :=
      Multiset.mem_add.mpr (.inr (Multiset.mem_add.mpr (.inl (Multiset.mem_coe.mpr ht))))
    simp only [Function.update_of_ne (hother t (hown.in_use hheld))]
    exact h.queued t ht
  · intro w t hw
    have hheld : t ∈ σ.core.inHand := EventLoop.mem_inHand_of_worker (w := w) (by
      rw [show σ.core.worker w = _ from hw]
      exact Multiset.mem_singleton_self t)
    simp only [Function.update_of_ne (hother t (hown.in_use hheld))]
    exact h.runs w t hw

omit [DecidableEq S] in
/-- A task that starts has a request in front of it. -/
theorem tended_dequeue {σ : Serving W S} {w : W} {s : S} {queue : List S}
    (hqueue : σ.core.queue = s :: queue) (hserial : Serial server σ) (h : Tended server σ) :
    Tended server { σ with
      core := { σ.core with queue := queue, worker := update σ.core.worker w (.running s) }
      task := update σ.task w .reading } where
  honest := h.honest
  loop := h.loop
  worker v := by
    by_cases hvw : v = w
    · subst hvw
      exact .inr ⟨s, Function.update_self ..⟩
    · simpa only [Function.update_of_ne hvw] using h.worker v
  events := h.events
  queueing := h.queueing
  queued t ht := h.queued t (by rw [hqueue]; exact List.mem_cons_of_mem s ht)
  runs v t hv := by
    by_cases hvw : v = w
    · subst hvw
      simp only [Function.update_self] at hv ⊢
      cases hv
      have hmem : s ∈ σ.core.queue := by
        rw [hqueue]
        exact List.mem_cons_self
      obtain ⟨xs, hsession⟩ := hserial.waits s (.inr (.inl hmem))
      exact ⟨xs, _, hsession, .start, h.queued s hmem⟩
    · simp only [Function.update_of_ne hvw] at hv ⊢
      exact h.runs v t hv

/-- A call of a task is on a connection that is nowhere else. -/
theorem tended_call [Fintype W] {σ : Serving W S} {w : W} {s : S} {pc : TaskPc} {l : Link}
    (hown : σ.core.Owned) (hw : σ.core.worker w = .running s)
    (hstep : TaskStep server (σ.task w) (σ.link s) pc l) (h : Tended server σ) :
    Tended server { σ with task := update σ.task w pc, link := update σ.link s l } := by
  have hheld : s ∈ (σ.core.worker w).holds := by
    rw [hw]
    exact Multiset.mem_singleton_self s
  have hother : ∀ t, σ.core.Waits t → t ≠ s := by
    rintro t ht rfl
    exact ht.not_held hown w hheld
  constructor
  · exact h.honest
  · exact h.loop
  · exact h.worker
  · intro t ready hmem
    simp only [Function.update_of_ne (hother t (.inl (hown.watched_of_event hmem)))]
    exact h.events t ready hmem
  · intro t es hloop
    simp only [Function.update_of_ne (hother t (.inr (.inr (.inr ⟨es, hloop⟩))))]
    exact h.queueing t es hloop
  · intro t ht
    simp only [Function.update_of_ne (hother t (.inr (.inl ht)))]
    exact h.queued t ht
  · intro v t hv
    by_cases hvw : v = w
    · subst hvw
      rw [show σ.core.worker v = _ from hv] at hw
      cases hw
      obtain ⟨xs, l₀, hsession, hunder, hmore⟩ := h.runs v s hv
      simp only [Function.update_self]
      exact ⟨xs, l₀, hsession, hunder.step hstep, hmore⟩
    · have hts : t ≠ s := by
        rintro rfl
        refine hvw (hown.one_worker ?_ hheld)
        rw [show σ.core.worker v = _ from hv]
        exact Multiset.mem_singleton_self t
      simp only [Function.update_of_ne hvw, Function.update_of_ne hts]
      exact h.runs v t hv

omit [DecidableEq W] [DecidableEq S] in
/-- A task of a connection that is attended to is under way with a request. -/
theorem Tended.partway [Fintype W] {σ : Serving W S} (hown : σ.core.Owned)
    (h : Tended server σ) {w : W} {s : S} (hw : σ.core.worker w = .running s) :
    ∃ l : Link, l.Honest ∧ l.socket.deliveries ≠ [] ∧
      Partway server l (σ.task w) (σ.link s) := by
  have hheld : s ∈ σ.core.inHand := EventLoop.mem_inHand_of_worker (w := w) (by
    rw [hw]
    exact Multiset.mem_singleton_self s)
  obtain ⟨xs, l, hsession, hunder, hmore⟩ := h.runs w s hw
  exact ⟨l, hsession.honest (h.honest s (hown.in_use hheld)), hmore, hunder.partway⟩

omit [DecidableEq S] in
/-- A task that ends has its worker take the next one. -/
theorem tended_end {σ : Serving W S} (h : Tended server σ) (handler : SocketHandler S)
    (hpool : handler.pool = σ.core.handler.pool) (w : W) : Tended server { σ with
      core := { σ.core with handler := handler, worker := update σ.core.worker w .idle } } := by
  refine h.of_core (fun s hs => ?_) h.loop (fun v => ?_) h.events h.queueing h.queued
  · rwa [hpool] at hs
  · by_cases hvw : v = w
    · subst hvw
      exact .inl (Function.update_self ..)
    · exact .inr (Function.update_of_ne hvw ..)

/-- A step from connections that are attended to, and what it leaves of those that were there. -/
theorem tended_step [Fintype W] {σ σ' : Serving W S} (hstep : Step server σ σ')
    (hslot : ∀ fd es, σ.core.loop = .accepted fd es →
      σ'.core.loop ≠ .waiting ∧ σ'.core.loop ≠ .stuck)
    (hreports : σ.core.loop = .waiting → ∀ s ready, Event.client s ready ∈ σ'.core.loop.events →
      (ready.hup || ready.err) = false ∧ (σ.link s).socket.deliveries ≠ [])
    (hclients : ∀ s, s ∉ σ'.core.handler.pool.idle → (σ'.accepted s).Honest)
    (hown : σ.core.Owned) (hserial : Serial server σ) (h : Tended server σ) :
    Tended server σ' ∧ ∀ s, s ∉ σ.core.handler.pool.idle →
      s ∉ σ'.core.handler.pool.idle ∧ σ'.accepted s = σ.accepted s := by
  have hclosed : ∀ w s, σ.core.worker w ≠ .closing s ∧ σ.core.worker w ≠ .deleting s := by
    intro w s
    rcases h.worker w with hw | ⟨t, hw⟩ <;> simp [hw]
  cases hstep with
  | loop core hcore hworker hidle =>
    obtain ⟨htended, hpool⟩ :=
      tended_loop hcore hworker hidle hown.idle_once hslot hreports h
    exact ⟨htended, fun s hs => ⟨by rwa [hpool], rfl⟩⟩
  | connect fd es s pool l hloop halloc hl =>
    have hslots := ObjectPool.allocate_slot halloc
    have hnew : s ∉ pool.idle := (List.nodup_cons.mp (hslots ▸ hown.idle_once)).1
    have hhonest : l.Honest := by
      simpa using hclients s hnew
    refine ⟨tended_connect hown hloop halloc hhonest h, fun t ht => ?_⟩
    rw [hslots, List.mem_cons, not_or] at ht
    exact ⟨ht.2, Function.update_of_ne ht.1 ..⟩
  | dequeue w s queue hw hqueue =>
    exact ⟨tended_dequeue hqueue hserial h, fun s hs => ⟨hs, rfl⟩⟩
  | call w s pc l hw htask => exact ⟨tended_call hown hw htask h, fun s hs => ⟨hs, rfl⟩⟩
  | attach w s admits hw htask =>
    exact ⟨tended_end h (σ.core.handler.attach s admits) rfl w, fun s hs => ⟨hs, rfl⟩⟩
  | remove w s hw htask =>
    obtain ⟨l, hl, hmore, hpartway⟩ := h.partway hown hw
    rw [htask] at hpartway
    exact (hpartway.not_remove hl hmore).elim
  | escape w s e hw htask =>
    exact ⟨tended_end h σ.core.handler rfl w, fun s hs => ⟨hs, rfl⟩⟩
  | close w s hw => exact absurd hw (hclosed w s).1
  | delete w s hw => exact absurd hw (hclosed w s).2

omit [DecidableEq W] [DecidableEq S] in
theorem tended_start {σ : Serving W S} (hstart : σ.core.Start) : Tended server σ where
  honest s hs := absurd (hstart.idle s) hs
  loop := by
    rw [hstart.loop]
    rfl
  worker w := .inl (hstart.worker w)
  events := by simp [hstart.loop, EventLoop.LoopPc.events]
  queueing := by simp [hstart.loop]
  queued := by simp [hstart.queue]
  runs := by simp [hstart.worker]

end Serving

/-! ## On the thread pool -/

namespace Pooled
variable {W S : Type}

/-- The task that a worker is in is the one that the pool runs on it. -/
def Matched (σ : Pooled W S) : Prop :=
  ∀ w s t, σ.pool.worker w = .running s → σ.task w = .running t → t = s

variable [DecidableEq W] [DecidableEq S]

theorem matched_step {σ σ' : Pooled W S} {a : Label S} (hstep : Step σ a σ') (h : σ.Matched) :
    σ'.Matched := by
  intro v s t hv ht
  cases hstep with
  | loop => exact h v s t hv ht
  | call u es pool hloop hpool =>
    cases hpool
    exact h v s t hv ht
  | returned u es pool hloop hpool =>
    refine h v s t ?_ ht
    cases hpool with
    | notifyOne p w hp hw =>
      have hvw : v ≠ w := by
        rintro rfl
        simp at hv
      simpa [hvw] using hv
    | notifyNone => exact hv
  | pool e pool he hpool => exact h v s t ((running_within hpool he v s).mp hv) ht
  | start w u hw =>
    by_cases hvw : v = w
    · subst hvw
      simp only [Function.update_self] at hv ht
      cases hv
      cases ht
      rfl
    · simp only [Function.update_of_ne hvw] at hv ht
      exact h v s t hv ht
  | task w u handler pc hw hpc htask =>
    by_cases hvw : v = w
    · subst hvw
      simp only [Function.update_self] at ht
      obtain ⟨r, hcase⟩ := htask.task_cases hpc
      rcases hcase with ⟨-, rfl, -⟩ | ⟨-, rfl, -⟩ | ⟨-, rfl, -⟩ | ⟨-, rfl, -⟩ <;> cases ht
    · simp only [Function.update_of_ne hvw] at ht
      exact h v s t hv ht
  | finish w u how hw htask =>
    have hvw : v ≠ w := by
      rintro rfl
      simp at hv
    simp only [Function.update_of_ne hvw] at hv
    exact h v s t hv ht

omit [DecidableEq W] [DecidableEq S] in
theorem loopView_waiting {pushed : Bool} {pc : EventLoop.LoopPc S}
    (h : loopView pushed pc = .waiting) : pc = .waiting := by
  cases pc with
  | queueing s es =>
    rw [loopView] at h
    split at h <;> cases h
  | _ => exact h

omit [DecidableEq W] [DecidableEq S] in
theorem loopView_events (pushed : Bool) (pc : EventLoop.LoopPc S) :
    (loopView pushed pc).events = pc.events := by
  cases pc with
  | queueing s es => cases pushed <;> rfl
  | _ => rfl

end Pooled

namespace Deployed
variable {W S : Type} [DecidableEq W] [DecidableEq S] {server : Site}

/-- What comes from outside in a step: descriptors, slots and room for registrations, reports of
clients that have something to say and are there to hear, and clients that send requests. -/
structure Attends (σ σ' : Deployed W S) : Prop where
  granted : σ'.core.view ≠ σ.core.view → EventLoop.Granted σ.core.view σ'.core.view
  reports : σ.core.loop = .waiting → ∀ s ready, Event.client s ready ∈ σ'.core.loop.events →
    (ready.hup || ready.err) = false ∧ (σ.link s).socket.deliveries ≠ []
  clients : ∀ s, s ∉ σ'.core.handler.pool.idle → (σ'.accepted s).Honest

/-- The server on its thread pool, with an outside that attends to it. -/
def attended (server : Site) (W S : Type) [DecidableEq W] [DecidableEq S] :
    System (Deployed W S) Unit where
  init σ := σ.core.Start
  step σ _ σ' := Step server σ σ' ∧ Attends σ σ'

/-- The handler on its pool has run as well. -/
theorem trace_core {σ : Deployed W S} (h : (system server W S).Reachable σ) :
    ∃ tr, (Pooled.system W S).Trace tr σ.core := by
  refine h.invariant (P := fun σ => ∃ tr, (Pooled.system W S).Trace tr σ.core)
    (fun σ hstart => ⟨[], .nil hstart⟩) ?_
  rintro σ a σ' ⟨tr, htr⟩ hstep
  rcases core_step hstep with hsame | ⟨label, hcore⟩
  · exact ⟨tr, hsame ▸ htr⟩
  · exact ⟨tr ++ [label], htr.snoc hcore⟩

/-- A step keeps every connection that it finds. -/
theorem attended_step [Fintype W] {σ σ' : Deployed W S} (hreach : (system server W S).Reachable σ)
    (hstep : Step server σ σ') (hattends : Attends σ σ') (h : Serving.Tended server σ.view) :
    Serving.Tended server σ'.view ∧ ∀ s, s ∉ σ.core.handler.pool.idle →
      s ∉ σ'.core.handler.pool.idle ∧ σ'.accepted s = σ.accepted s := by
  rcases view_step hstep (coherent_reachable hreach) with hsame | hview
  · refine ⟨hsame ▸ h, fun s hs => ?_⟩
    have hidle : σ'.core.handler.pool.idle = σ.core.handler.pool.idle :=
      congrArg (fun τ : Serving W S => τ.core.handler.pool.idle) hsame
    exact ⟨by rwa [hidle], congrArg (fun τ : Serving W S => τ.accepted s) hsame⟩
  · have hserving := reachable_view hreach
    refine Serving.tended_step hview (fun fd es hloop => ?_) (fun hloop s ready hmem => ?_)
      hattends.clients (Serving.owned_reachable hserving) (Serving.serial_reachable hserving) h
    · by_cases hcore : σ'.core.view = σ.core.view
      · have hloop' : σ'.core.view.loop = .accepted fd es := by
          rw [hcore]
          exact hloop
        simp [view, hloop']
      · exact (hattends.granted hcore).slot fd es hloop
    · refine hattends.reports (Pooled.loopView_waiting hloop) s ready ?_
      rw [← Pooled.loopView_events]
      exact hmem

/-- What holds in a run that is attended to. -/
structure Kept [Fintype W] (server : Site) (σ : Deployed W S) : Prop where
  reachable : (granted server W S).Reachable σ
  matched : σ.core.Matched
  tended : Serving.Tended server σ.view

theorem kept_step [Fintype W] {σ σ' : Deployed W S} (hstep : Step server σ σ')
    (hattends : Attends σ σ') (h : Kept server σ) : Kept server σ' where
  reachable := by
    obtain ⟨tr, htr⟩ := h.reachable
    exact (htr.snoc (a := ()) ⟨hstep, hattends.granted⟩).reachable
  matched := by
    rcases core_step hstep with hsame | ⟨a, hcore⟩
    · rw [hsame]
      exact h.matched
    · exact Pooled.matched_step hcore h.matched
  tended := (attended_step (kept_reachable h.reachable).1 hstep hattends h.tended).1

theorem attended_reachable [Fintype W] {σ : Deployed W S}
    (h : (attended server W S).Reachable σ) : Kept server σ := by
  refine h.invariant (P := Kept server) (fun σ hstart => ?_)
    fun σ _ σ' hkept hstep => kept_step (And.left hstep) (And.right hstep) hkept
  have hinit : (granted server W S).Trace [] σ := .nil hstart
  refine ⟨hinit.reachable, fun w s t hw => ?_, Serving.tended_start (Pooled.view_start hstart)⟩
  rw [Pooled.Start.pool hstart] at hw
  cases hw

end Deployed
end Calabash
