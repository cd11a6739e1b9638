import Calabash.Socket.Descriptors

/-!
# Runs in which nothing is lost

`exclusive` says that no connection is in two places. Here every connection is in one, and is
heard when it has something to say: its registration reports again as soon as the loop has
processed the last report. That takes a kernel that gives descriptors and takes registrations, a
pool that gives slots, and tasks that do not throw.

## Main results

* `kept_step` — a step in which these do their part keeps every connection.
* `nothing_lost` — what this makes of a run.
-/

namespace Calabash
namespace SocketHandler
variable {S : Type}

/-- Every slot in use is registered or in hand, and a registration that reports nothing has an event
that is still to be processed. -/
structure Complete (h : SocketHandler S) (inHand : Multiset S) (pending : List S) : Prop where
  placed : ∀ s, s ∉ h.pool.idle → s ∈ h.watched + inHand
  heard : ∀ r ∈ h.epoll.interest, r.armed = false → r.ptr ∈ pending

/-- A report takes no registration away. -/
theorem watched_report [DecidableEq S] (h : SocketHandler S) (rs : List (Registration S)) :
    ({ h with epoll := h.epoll.report rs } : SocketHandler S).watched = h.watched := by
  simp only [watched, EventPoller.report, List.map_map]
  congr 1
  apply List.map_congr_left
  intro r _
  simp only [Function.comp]
  split <;> rfl

namespace Complete
variable {h : SocketHandler S} {M : Multiset S} {P : List S} {A : Option ℤ} {s : S}

theorem of_eq (H : h.Complete M P) {h' : SocketHandler S} (hpool : h'.pool = h.pool)
    (hepoll : h'.epoll = h.epoll) : h'.Complete M P := by
  have hwatched : h'.watched = h.watched := by rw [watched, hepoll, watched]
  constructor
  · rw [hpool, hwatched]
    exact H.placed
  · rw [hepoll]
    exact H.heard

/-- A descriptor that no registration has can be registered. -/
theorem attach (H : h.Complete (s ::ₘ M) P) (hfd : 0 ≤ h.sockfd s)
    (hfree : ∀ r ∈ h.epoll.interest, r.fd ≠ h.sockfd s) : (h.attach s true).Complete M P := by
  have hinterest : (h.attach s true).epoll.interest =
      ⟨h.sockfd s, s, true⟩ :: h.epoll.interest := by
    rw [attach_epoll, EventPoller.add, if_pos ⟨hfd, rfl, hfree⟩]
  have hwatched : (h.attach s true).watched = s ::ₘ h.watched := by
    rw [watched, hinterest]
    rfl
  constructor
  · intro t ht
    have hplaced := H.placed t ht
    rw [hwatched, Multiset.cons_add]
    rwa [Multiset.add_cons] at hplaced
  · rw [hinterest]
    intro r hr harmed
    rcases List.mem_cons.mp hr with rfl | hr
    · cases harmed
    · exact H.heard r hr harmed

/-- `detach` takes the slot of a pending event in hand, and leaves the others registered. -/
theorem detach (H : h.Complete M (s :: P)) (hown : h.Owns M (s :: P) A) :
    (h.detach s).Complete (s ::ₘ M) P := by
  obtain ⟨r, hr, rfl, -⟩ := hown.reported s (by simp)
  have hfd : r.fd = h.sockfd r.ptr := hown.own r hr
  have hperm : h.epoll.interest.Perm (r :: (h.detach r.ptr).epoll.interest) := by
    have hinterest : (h.detach r.ptr).epoll.interest = h.epoll.interest.filter (·.fd ≠ r.fd) := by
      rw [hfd]
      rfl
    rw [hinterest]
    exact perm_cons_filter hown.fds hr
  have hwatched : h.watched = r.ptr ::ₘ (h.detach r.ptr).watched :=
    Multiset.coe_eq_coe.mpr (hperm.map (·.ptr))
  constructor
  · intro t ht
    have hplaced := H.placed t ht
    rwa [hwatched, Multiset.cons_add, ← Multiset.add_cons] at hplaced
  · intro q hq harmed
    obtain ⟨hmem, hne⟩ := EventPoller.mem_interest_del.mp hq
    rcases List.mem_cons.mp (H.heard q hmem harmed) with heq | htail
    · exact absurd ((hown.own q hmem).trans (by rw [heq])) hne
    · exact htail

/-- A loop that waits comes to every registration that is reported. -/
theorem report [DecidableEq S] (H : h.Complete M []) (rs : List (Registration S)) :
    ({ h with epoll := h.epoll.report rs } : SocketHandler S).Complete M (rs.map (·.ptr)) := by
  constructor
  · rw [watched_report]
    exact H.placed
  · intro q hq harmed
    obtain ⟨r, hr, rfl⟩ := List.mem_map.mp hq
    split at harmed
    · next hreported => exact List.mem_map.mpr ⟨r, hreported, by rw [if_pos hreported]; rfl⟩
    · cases H.heard r hr harmed

variable [DecidableEq S]

theorem construct (H : h.Complete M P) {pool : ObjectPool S} (hidle : h.pool.idle = s :: pool.idle)
    (fd : ℤ) : (h.construct s pool fd).Complete (s ::ₘ M) P where
  placed t ht := by
    change t ∈ h.watched + s ::ₘ M
    rw [Multiset.add_cons, Multiset.mem_cons]
    by_cases hts : t = s
    · exact .inl hts
    · refine .inr (H.placed t ?_)
      rw [hidle]
      exact List.not_mem_cons_of_ne_of_not_mem hts ht
  heard := H.heard

theorem close (H : h.Complete (s ::ₘ M) P) (hown : h.Owns (s ::ₘ M) P A) :
    (h.close s).Complete (s ::ₘ M) P := by
  have hinterest := hown.interest_close
  have hwatched : (h.close s).watched = h.watched := by rw [watched, hinterest, watched]
  constructor
  · rw [hwatched, close_pool]
    exact H.placed
  · rw [hinterest]
    exact H.heard

theorem delete (H : h.Complete (s ::ₘ M) P) (hown : h.Owns (s ::ₘ M) P A) :
    (h.delete s).Complete M P := by
  have Hc := H.close hown
  constructor
  · intro t ht
    rw [delete_pool, ObjectPool.idle_delete, List.mem_cons, not_or] at ht
    have hplaced := Hc.placed t (by rw [close_pool]; exact ht.2)
    rw [Multiset.add_cons, Multiset.mem_cons] at hplaced
    exact hplaced.resolve_left ht.1
  · exact Hc.heard

end Complete

end SocketHandler
namespace EventLoop
variable {W S : Type}

/-- What a step asks for, it gets: `accept` a descriptor, `Allocate` a slot, `attach` room for the
registration; and a task that ends with the socket in hand has attached it. -/
structure Granted (σ σ' : EventLoop W S) : Prop where
  descriptor : ∀ fd ∈ σ'.loop.arriving, 0 < fd
  slot : ∀ fd es, σ.loop = .accepted fd es → σ'.loop ≠ .waiting ∧ σ'.loop ≠ .stuck
  attached : ∀ s es, σ.loop = .attaching s es → σ'.loop = .batch es →
    σ'.handler = σ.handler.attach s true
  reattached : ∀ w s, σ.worker w = .running s → σ'.worker w = .idle →
    σ'.handler = σ.handler.attach s true

/-- Neither in front of `Allocate` nor of `attach`. -/
def LoopPc.plain : LoopPc S → Bool
  | .accepted _ _ | .attaching _ _ => false
  | _ => true

namespace Granted
variable {σ σ' : EventLoop W S}

/-- A step that asks for no slot and no registration. -/
theorem of_call (hplain : σ.loop.plain = true) (hfd : ∀ fd ∈ σ'.loop.arriving, 0 < fd)
    (hworker : ∀ w, σ.worker w = .idle ∨ σ'.worker w = σ.worker w) : σ.Granted σ' := by
  refine ⟨hfd, fun fd es hloop => ?_, fun s es hloop => ?_, fun w s hrunning hidle => ?_⟩
  · rw [hloop] at hplain
    cases hplain
  · rw [hloop] at hplain
    cases hplain
  · rcases hworker w with hw | hw
    · rw [hw] at hrunning
      cases hrunning
    · rw [hw, hrunning] at hidle
      cases hidle

/-- A step that asks for nothing. -/
theorem of_plain (hplain : σ.loop.plain = true) (hfd : σ'.loop.arriving = none)
    (hworker : ∀ w, σ.worker w = .idle ∨ σ'.worker w = σ.worker w) : σ.Granted σ' := by
  refine of_call hplain (fun fd hmem => ?_) hworker
  rw [hfd] at hmem
  cases hmem

/-- `accept` gives a descriptor. -/
theorem of_accept {fd : ℤ} {es : List (Event S)} (hplain : σ.loop.plain = true)
    (hnext : σ'.loop = .accepted fd es) (hpos : 0 < fd) (hworker : σ'.worker = σ.worker) :
    σ.Granted σ' := by
  refine of_call hplain (fun x hx => ?_) fun w => .inr (congrFun hworker w)
  rw [hnext] at hx
  cases hx
  exact hpos

/-- `Allocate` gives a slot. -/
theorem of_slot {fd : ℤ} {s : S} {es es' : List (Event S)} (hloop : σ.loop = .accepted fd es)
    (hnext : σ'.loop = .attaching s es') (hworker : σ'.worker = σ.worker) : σ.Granted σ' := by
  refine ⟨fun x hx => ?_, fun _ _ _ => ?_, fun t es'' hto => ?_, fun w t hrunning hidle => ?_⟩
  · rw [hnext] at hx
    cases hx
  · rw [hnext]
    simp
  · rw [hloop] at hto
    cases hto
  · rw [hworker, hrunning] at hidle
    cases hidle

/-- The loop registers a connection. -/
theorem of_attach {s : S} {es es' : List (Event S)} (hloop : σ.loop = .attaching s es)
    (hnext : σ'.loop = .batch es') (hworker : σ'.worker = σ.worker)
    (hhandler : σ'.handler = σ.handler.attach s true) : σ.Granted σ' := by
  refine ⟨fun x hx => ?_, fun fd es'' hto => ?_, fun t es'' hto _ => ?_,
    fun w t hrunning hidle => ?_⟩
  · rw [hnext] at hx
    cases hx
  · rw [hloop] at hto
    cases hto
  · rw [hloop] at hto
    cases hto
    exact hhandler
  · rw [hworker, hrunning] at hidle
    cases hidle

/-- A task registers its connection again. -/
theorem of_reattach [DecidableEq W] {w : W} {s : S} (hloop : σ'.loop = σ.loop)
    (hfd : ∀ fd ∈ σ.loop.arriving, 0 < fd) (hw : σ.worker w = .running s)
    (hworker : σ'.worker = Function.update σ.worker w .idle)
    (hhandler : σ'.handler = σ.handler.attach s true) : σ.Granted σ' := by
  refine ⟨hloop ▸ hfd, fun fd es hto => ?_, fun t es hto hbatch => ?_, fun v t hrunning hidle => ?_⟩
  · simp [hloop, hto]
  · rw [hloop, hto] at hbatch
    cases hbatch
  · by_cases hvw : v = w
    · subst hvw
      rw [hw] at hrunning
      cases hrunning
      exact hhandler
    · rw [hworker, Function.update_of_ne hvw, hrunning] at hidle
      cases hidle

end Granted

/-- The event loop and the workers, with steps that get what they ask for. -/
def benign (W S : Type) [DecidableEq W] [DecidableEq S] : System (EventLoop W S) Unit where
  init := Start
  step σ _ σ' := Step σ σ' ∧ Granted σ σ'

/-- A socket in use is open, up to the `close` in front of its `Delete`. -/
structure Open (σ : EventLoop W S) : Prop where
  arriving : ∀ fd ∈ σ.loop.arriving, 0 < fd
  sockets : ∀ s, s ∉ σ.handler.pool.idle → 0 < σ.handler.sockfd s ∨ σ.Deleting s

/-- A descriptor that is not open. -/
theorem exists_fresh (opened : List ℤ) : ∃ fd : ℤ, 0 < fd ∧ fd ∉ opened := by
  have hbound : ∃ fd : ℤ, 0 < fd ∧ ∀ x ∈ opened, x < fd := by
    induction opened with
    | nil => exact ⟨1, by decide, by simp⟩
    | cons x xs ih =>
      obtain ⟨fd, hpos, hall⟩ := ih
      refine ⟨max fd (x + 1), by omega, fun y hy => ?_⟩
      rcases List.mem_cons.mp hy with rfl | hy
      · omega
      · have hless := hall y hy
        omega
  obtain ⟨fd, hpos, hall⟩ := hbound
  exact ⟨fd, hpos, fun hmem => (hall fd hmem).false⟩

/-- A loop in the middle of its events, with nothing to do for the pool, can go on. -/
theorem exists_granted [DecidableEq W] [DecidableEq S] {σ : EventLoop W S}
    (hloop : (∃ es, σ.loop = .batch es) ∨ ∃ s es, σ.loop = .attaching s es) :
    ∃ handler loop, Step σ ⟨handler, loop, σ.queue, σ.worker⟩ ∧
      handler.pool = σ.handler.pool ∧ σ.Granted ⟨handler, loop, σ.queue, σ.worker⟩ := by
  rcases hloop with ⟨es, hloop⟩ | ⟨s, es, hloop⟩
  · have hplain : σ.loop.plain = true := by
      rw [hloop]
      rfl
    cases es with
    | nil => exact ⟨_, _, .finish hloop, rfl, .of_plain hplain rfl fun _ => .inr rfl⟩
    | cons event es =>
      cases event with
      | listening =>
        obtain ⟨fd, hpos, hfresh⟩ := exists_fresh σ.handler.opened
        have haccept : Socket.accept fd = fd := if_neg hpos.le.not_gt
        exact ⟨_, _, .accept fd es hloop hfresh, SocketHandler.accepted_pool _ _,
          .of_accept hplain rfl (by rwa [haccept]) rfl⟩
      | client s ready =>
        have hnone : (if ready.hup || ready.err then LoopPc.closing s es
            else .queueing s es).arriving = none := by split <;> rfl
        exact ⟨_, _, .detach s ready es hloop, rfl, .of_plain hplain hnone fun _ => .inr rfl⟩
  · exact ⟨_, _, .attach s es true hloop, rfl, .of_attach hloop rfl rfl rfl⟩

variable [Fintype W]

/-- A socket that the loop has in hand is in no task. -/
theorem Owned.loop_apart {σ : EventLoop W S} (hown : σ.Owned) {s : S} (hs : s ∈ σ.loop.holds)
    (w : W) : s ∉ (σ.worker w).holds := by
  intro hw
  have hparts := (Multiset.nodup_add.mp (Multiset.nodup_add.mp hown.once).2.1).2.2
  exact Multiset.disjoint_left.mp hparts hs (mem_tasks hw)

theorem Owned.one_worker [DecidableEq S] {σ : EventLoop W S} (hown : σ.Owned) {s : S} {v w : W}
    (hv : s ∈ (σ.worker v).holds) (hw : s ∈ (σ.worker w).holds) : v = w := by
  by_contra hne
  have hsum := Finset.add_le_sum (f := fun w => (σ.worker w).holds.count s)
    (fun _ _ => Nat.zero_le _) (Finset.mem_univ v) (Finset.mem_univ w) hne
  have hposv := Multiset.count_pos.mpr hv
  have hposw := Multiset.count_pos.mpr hw
  have hrunning := (Multiset.nodup_add.mp (Multiset.nodup_add.mp
    (Multiset.nodup_add.mp hown.once).2.1).2.1).2.1
  have hone := Multiset.nodup_iff_count_le_one.mp hrunning s
  rw [count_total, total] at hone
  omega

theorem Owned.not_deleting_attaching {σ : EventLoop W S} (hown : σ.Owned) {s : S}
    {es : List (Event S)} (hloop : σ.loop = .attaching s es) : ¬ σ.Deleting s := by
  rintro (⟨es', hdel⟩ | ⟨w, hw⟩)
  · rw [hloop] at hdel
    cases hdel
  · have hs : s ∈ σ.loop.holds := by
      rw [hloop]
      exact Multiset.mem_singleton_self s
    exact hown.loop_apart hs w (by rw [hw]; exact Multiset.mem_singleton_self s)

theorem Owned.not_deleting_running [DecidableEq S] {σ : EventLoop W S} (hown : σ.Owned) {w : W}
    {s : S} (hw : σ.worker w = .running s) : ¬ σ.Deleting s := by
  have hs : s ∈ (σ.worker w).holds := by
    rw [hw]
    exact Multiset.mem_singleton_self s
  rintro (⟨es, hloop⟩ | ⟨v, hv⟩)
  · exact hown.loop_apart (by rw [hloop]; exact Multiset.mem_singleton_self s) w hs
  · obtain rfl := hown.one_worker hs (by rw [hv]; exact Multiset.mem_singleton_self s)
    rw [hw] at hv
    cases hv

/-- The socket that the loop or a task is about to attach can be registered. -/
theorem attach_complete {σ : EventLoop W S} (hown : σ.Owned) (hopen : σ.Open) {s : S}
    {M : Multiset S} (hs : σ.inHand = s ::ₘ M) (hclose : ¬ σ.Deleting s)
    (H : σ.handler.Complete σ.inHand σ.loop.pending) :
    (σ.handler.attach s true).Complete M σ.loop.pending := by
  have hmem : s ∈ σ.inHand := by
    rw [hs]
    exact Multiset.mem_cons_self s M
  have hpos : 0 < σ.handler.sockfd s :=
    (hopen.sockets s (hown.in_use hmem)).resolve_right hclose
  rw [hs] at H
  exact H.attach hpos.le fun r hr => hown.not_registered hmem hpos hr

variable [DecidableEq W] [DecidableEq S]

open Function (update)

theorem complete_step {σ σ' : EventLoop W S} (hstep : Step σ σ') (hgranted : σ.Granted σ')
    (hown : σ.Owned) (hopen : σ.Open) (H : σ.handler.Complete σ.inHand σ.loop.pending) :
    σ'.handler.Complete σ'.inHand σ'.loop.pending := by
  cases hstep with
  | wait rs es hloop hrs hnodup hes =>
    unfold inHand at H ⊢
    rw [hloop] at H
    have Hr := SocketHandler.Complete.report H rs
    rw [← hes] at Hr
    exact Hr
  | accept answer es hloop hfresh =>
    unfold inHand at H ⊢
    rw [hloop] at H
    exact H.of_eq (by simp) (by simp)
  | null fd es hloop halloc => exact absurd rfl (hgranted.slot fd es hloop).1
  | stuck fd es hloop halloc => exact absurd rfl (hgranted.slot fd es hloop).2
  | slot fd es s pool hloop halloc =>
    unfold inHand at H ⊢
    rw [hloop] at H
    dsimp only [LoopPc.holds] at H ⊢
    rw [zero_add] at H
    rw [Multiset.singleton_add]
    exact SocketHandler.Complete.construct H (ObjectPool.allocate_slot halloc) fd
  | attach s es admits hloop =>
    have hattached : σ.handler.attach s admits = σ.handler.attach s true :=
      hgranted.attached s es hloop rfl
    have hhand : σ.inHand = s ::ₘ σ.tasks := by
      rw [inHand, hloop, LoopPc.holds, Multiset.singleton_add]
    have Ha := attach_complete hown hopen hhand (hown.not_deleting_attaching hloop) H
    rw [hloop] at Ha
    dsimp only [inHand, LoopPc.holds]
    rw [hattached, zero_add]
    exact Ha
  | detach s ready es hloop =>
    unfold inHand at H ⊢
    unfold Owned inHand at hown
    rw [hloop] at H hown
    dsimp only [LoopPc.holds] at H hown ⊢
    rw [zero_add] at H hown
    have Hd := SocketHandler.Complete.detach H hown
    rw [← Multiset.singleton_add] at Hd
    cases ready.hup || ready.err
    · exact Hd
    · exact Hd
  | close s es hloop =>
    unfold inHand at H ⊢
    unfold Owned inHand at hown
    rw [hloop, LoopPc.holds, Multiset.singleton_add] at H hown
    dsimp only [LoopPc.holds]
    rw [Multiset.singleton_add]
    exact SocketHandler.Complete.close H hown
  | delete s es hloop =>
    unfold inHand at H ⊢
    unfold Owned inHand at hown
    rw [hloop, LoopPc.holds, Multiset.singleton_add] at H hown
    dsimp only [LoopPc.holds]
    rw [zero_add]
    exact SocketHandler.Complete.delete H hown
  | enqueue s es hloop =>
    unfold inHand at H ⊢
    rw [hloop] at H
    have hmove : ({s} : Multiset S) + σ.tasks =
        0 + (((σ.queue ++ [s] : List S) : Multiset S) + total WorkerPc.holds σ.worker) := by
      rw [tasks, ← Multiset.coe_add, Multiset.coe_singleton, zero_add]
      abel
    rw [LoopPc.holds, hmove] at H
    exact H
  | finish hloop =>
    unfold inHand at H ⊢
    rw [hloop] at H
    exact H
  | dequeue w s queue hw hqueue =>
    unfold inHand at H ⊢
    rw [← tasks_dequeue hw hqueue] at H
    exact H
  | reattach w s admits hw =>
    have hattached : σ.handler.attach s admits = σ.handler.attach s true :=
      hgranted.reattached w s hw (Function.update_self ..)
    have hhand := tasks_end hw rfl
    have Ha := attach_complete hown hopen (by rw [inHand, hhand, Multiset.add_cons])
      (hown.not_deleting_running hw) H
    dsimp only
    rw [hattached]
    exact Ha
  | remove w s hw =>
    unfold inHand at H ⊢
    rw [← tasks_same hw (.closing s) rfl] at H
    exact H
  | closeTask w s hw =>
    unfold inHand at H ⊢
    unfold Owned inHand at hown
    have hend := tasks_end hw rfl
    rw [hend, Multiset.add_cons] at H hown
    have Hc := SocketHandler.Complete.close H hown
    rw [← Multiset.add_cons, ← hend, ← tasks_same hw (.deleting s) rfl] at Hc
    exact Hc
  | deleteTask w s hw hloop =>
    unfold inHand at H ⊢
    unfold Owned inHand at hown
    rw [tasks_end hw rfl, Multiset.add_cons] at H hown
    exact SocketHandler.Complete.delete H hown
  | escape w s hw =>
    have hattached : σ.handler = σ.handler.attach s true :=
      hgranted.reattached w s hw (Function.update_self ..)
    have hhand := tasks_end hw rfl
    have Ha := attach_complete hown hopen (by rw [inHand, hhand, Multiset.add_cons])
      (hown.not_deleting_running hw) H
    rw [← hattached] at Ha
    exact Ha

omit [Fintype W] [DecidableEq W] [DecidableEq S] in
/-- A loop that is not in front of `Delete` takes no socket away from there. -/
theorem Deleting.of_loop {σ : EventLoop W S} {s : S} (h : σ.Deleting s)
    (hloop : ∀ es, σ.loop ≠ .deleting s es) (handler : SocketHandler S) (loop : LoopPc S)
    (queue : List S) : (⟨handler, loop, queue, σ.worker⟩ : EventLoop W S).Deleting s :=
  .inr (h.resolve_left fun ⟨es, heq⟩ => hloop es heq)

omit [Fintype W] [DecidableEq S] in
/-- Nor does a worker that is not there. -/
theorem Deleting.of_worker {σ : EventLoop W S} {s : S} (h : σ.Deleting s) {w : W}
    (hw : σ.worker w ≠ .deleting s) (handler : SocketHandler S) (queue : List S)
    (pc : WorkerPc S) :
    (⟨handler, σ.loop, queue, update σ.worker w pc⟩ : EventLoop W S).Deleting s := by
  rcases h with hloop | ⟨v, hv⟩
  · exact .inl hloop
  · have hvw : v ≠ w := by
      rintro rfl
      exact hw hv
    exact .inr ⟨v, by dsimp only; rwa [Function.update_of_ne hvw]⟩

omit [Fintype W] [DecidableEq W] [DecidableEq S] in
/-- A step that leaves the slots and their descriptors alone leaves them open. -/
theorem Open.of_eq {σ σ' : EventLoop W S} (h : σ.Open) (hidle : σ'.handler.pool.idle =
    σ.handler.pool.idle) (hfd : σ'.handler.sockfd = σ.handler.sockfd)
    (harriving : ∀ fd ∈ σ'.loop.arriving, 0 < fd) (hdel : ∀ s, σ.Deleting s → σ'.Deleting s) :
    σ'.Open where
  arriving := harriving
  sockets s hs := by
    rw [hidle] at hs
    rw [hfd]
    exact (h.sockets s hs).imp_right (hdel s)

omit [Fintype W] in
theorem open_step {σ σ' : EventLoop W S} (hstep : Step σ σ') (hgranted : σ.Granted σ')
    (h : σ.Open) : σ'.Open := by
  cases hstep with
  | wait rs es hloop | null fd es hloop | stuck fd es hloop | attach s es admits hloop
  | detach s ready es hloop | enqueue s es hloop | finish hloop =>
    exact h.of_eq rfl rfl hgranted.descriptor fun t ht => ht.of_loop (by simp [hloop]) _ _ _
  | accept answer es hloop hfresh =>
    exact h.of_eq (by simp) (by simp) hgranted.descriptor
      fun t ht => ht.of_loop (by simp [hloop]) _ _ _
  | slot fd es s pool hloop halloc =>
    have hidle := ObjectPool.allocate_slot halloc
    refine ⟨hgranted.descriptor, fun t ht => ?_⟩
    by_cases hts : t = s
    · subst hts
      left
      simpa [SocketHandler.construct] using h.arriving fd (by rw [hloop]; rfl)
    · have hin : t ∉ σ.handler.pool.idle := by
        rw [hidle]
        exact List.not_mem_cons_of_ne_of_not_mem hts ht
      rcases h.sockets t hin with hpos | hdel
      · left
        simpa [SocketHandler.construct, hts] using hpos
      · exact .inr (hdel.of_loop (by simp [hloop]) _ _ _)
  | close s es hloop =>
    refine ⟨hgranted.descriptor, fun t ht => ?_⟩
    rw [SocketHandler.close_pool] at ht
    by_cases hts : t = s
    · exact .inr (.inl ⟨es, by rw [hts]⟩)
    · rw [SocketHandler.close_sockfd_of_ne _ hts]
      exact (h.sockets t ht).imp_right fun hdel => hdel.of_loop (by simp [hloop]) _ _ _
  | delete s es hloop =>
    refine ⟨hgranted.descriptor, fun t ht => ?_⟩
    rw [SocketHandler.delete_pool, ObjectPool.idle_delete, List.mem_cons, not_or] at ht
    rw [SocketHandler.delete_sockfd, SocketHandler.close_sockfd_of_ne _ ht.1]
    refine (h.sockets t ht.2).imp_right fun hdel => hdel.of_loop ?_ _ _ _
    intro es' heq
    rw [hloop] at heq
    cases heq
    exact ht.1 rfl
  | dequeue w s queue hw | reattach w s admits hw | remove w s hw | escape w s hw =>
    exact h.of_eq rfl rfl hgranted.descriptor fun t ht => ht.of_worker (by simp [hw]) _ _ _
  | closeTask w s hw =>
    refine ⟨hgranted.descriptor, fun t ht => ?_⟩
    rw [SocketHandler.close_pool] at ht
    by_cases hts : t = s
    · exact .inr (.inr ⟨w, by rw [hts]; exact Function.update_self ..⟩)
    · rw [SocketHandler.close_sockfd_of_ne _ hts]
      exact (h.sockets t ht).imp_right fun hdel => hdel.of_worker (by simp [hw]) _ _ _
  | deleteTask w s hw hloop =>
    refine ⟨hgranted.descriptor, fun t ht => ?_⟩
    rw [SocketHandler.delete_pool, ObjectPool.idle_delete, List.mem_cons, not_or] at ht
    rw [SocketHandler.delete_sockfd, SocketHandler.close_sockfd_of_ne _ ht.1]
    refine (h.sockets t ht.2).imp_right fun hdel => hdel.of_worker ?_ _ _ _
    rw [hw]
    intro heq
    cases heq
    exact ht.1 rfl

/-- No connection is lost: a slot in use is in exactly one place; a registration has the open
descriptor of its socket, and reports it, or has an event that the loop will come to; and what
is not queued or with a task while the loop waits is registered and reports. -/
structure NothingLost (σ : EventLoop W S) : Prop where
  places : ∀ s, σ.holders s = if s ∈ σ.handler.pool.idle then 0 else 1
  registered : ∀ r ∈ σ.handler.epoll.interest,
    r.fd = σ.handler.sockfd r.ptr ∧ 0 < r.fd ∧ r.fd ∈ σ.handler.opened ∧
      (r.armed = true ∨ r.ptr ∈ σ.loop.pending)
  at_rest : σ.loop = .waiting → ∀ s, s ∉ σ.handler.pool.idle → s ∉ σ.tasks →
    ⟨σ.handler.sockfd s, s, true⟩ ∈ σ.handler.epoll.interest

omit [Fintype W] in
/-- `Allocate` does not hang where it gives a slot. -/
theorem Granted.not_stuck {σ σ' : EventLoop W S} (hgranted : σ.Granted σ') (hstep : Step σ σ')
    (h : σ.loop ≠ .stuck) : σ'.loop ≠ .stuck := by
  cases hstep with
  | stuck fd es hloop => exact (hgranted.slot fd es hloop).2
  | detach s ready es =>
    dsimp only
    split <;> simp
  | dequeue | reattach | remove | closeTask | deleteTask | escape => exact h
  | _ => simp

theorem kept_step {σ σ' : EventLoop W S} (hstep : Step σ σ') (hgranted : σ.Granted σ')
    (h : σ.Owned ∧ σ.Open ∧ σ.handler.Complete σ.inHand σ.loop.pending) :
    σ'.Owned ∧ σ'.Open ∧ σ'.handler.Complete σ'.inHand σ'.loop.pending :=
  ⟨owned_step hstep h.1, open_step hstep hgranted h.2.1,
    complete_step hstep hgranted h.1 h.2.1 h.2.2⟩

omit [DecidableEq W] [DecidableEq S] in
theorem kept_start {σ : EventLoop W S} (h : Start σ) :
    σ.Owned ∧ σ.Open ∧ σ.handler.Complete σ.inHand σ.loop.pending := by
  refine ⟨owned_start h, ⟨by simp [h.loop, LoopPc.arriving], ?_⟩, ⟨?_, by simp [h.interest]⟩⟩
  · exact fun s hs => absurd (h.idle s) hs
  · exact fun s hs => absurd (h.idle s) hs

omit [DecidableEq W] in
theorem nothingLost_of_kept {σ : EventLoop W S} (hown : σ.Owned) (hopen : σ.Open)
    (H : σ.handler.Complete σ.inHand σ.loop.pending) : σ.NothingLost := by
  have hregistered : ∀ r ∈ σ.handler.epoll.interest,
      r.fd = σ.handler.sockfd r.ptr ∧ 0 < r.fd ∧ r.fd ∈ σ.handler.opened ∧
        (r.armed = true ∨ r.ptr ∈ σ.loop.pending) := by
    intro r hr
    have hwatched := SocketHandler.Owns.mem_watched hr
    have hin : r.ptr ∉ σ.handler.pool.idle :=
      hown.given r.ptr (Multiset.mem_add.mpr (.inl hwatched))
    have hfd := hown.own r hr
    have hpos : 0 < σ.handler.sockfd r.ptr := by
      refine (hopen.sockets r.ptr hin).resolve_right fun hdel => ?_
      have hparts := (Multiset.nodup_add.mp hown.once).2.2
      exact Multiset.disjoint_left.mp hparts hwatched hdel.inHand
    refine ⟨hfd, hfd ▸ hpos, hfd ▸ hown.opened r.ptr hin hpos, ?_⟩
    cases harmed : r.armed with
    | true => exact .inl rfl
    | false => exact .inr (H.heard r hr harmed)
  refine ⟨fun s => ?_, hregistered, fun hloop s hs htasks => ?_⟩
  · rw [holders_eq]
    split
    · next hidle =>
      exact Multiset.count_eq_zero.mpr fun hheld => hown.given s hheld hidle
    · next hin => exact Multiset.count_eq_one_of_mem hown.once (H.placed s hin)
  · have hplaced : s ∈ σ.handler.watched := by
      have hheld := H.placed s hs
      have hnone : σ.loop.holds = 0 := by
        rw [hloop]
        rfl
      rw [inHand, hnone, zero_add, Multiset.mem_add] at hheld
      exact hheld.resolve_right htasks
    obtain ⟨r, hr, rfl⟩ := List.mem_map.mp (Multiset.mem_coe.mp hplaced)
    obtain ⟨hfd, -, -, harmed⟩ := hregistered r hr
    rw [hloop] at harmed
    have hready : r.armed = true := harmed.resolve_right (List.not_mem_nil)
    rw [← hfd, ← hready]
    exact hr

/-- In every run whose steps get what they ask for, no connection is lost: not by the loop, not by
a task, and not because its registration has reported once. -/
theorem nothing_lost {σ : EventLoop W S} (h : (benign W S).Reachable σ) : σ.NothingLost := by
  obtain ⟨hown, hopen, H⟩ := h.invariant
    (P := fun σ => σ.Owned ∧ σ.Open ∧ σ.handler.Complete σ.inHand σ.loop.pending)
    (fun _ => kept_start) (fun _ _ _ hkept hstep =>
      kept_step (And.left hstep) (And.right hstep) hkept)
  exact nothingLost_of_kept hown hopen H

/-- A connection is accepted and attached, and the loop waits for it. -/
theorem nothing_lost_waiting : ∃ σ : EventLoop Unit Unit, σ.loop = .waiting ∧
    σ.handler.epoll.interest = [⟨4, (), true⟩] ∧ σ.NothingLost := by
  let start : EventLoop Unit Unit :=
    ⟨⟨⟨[()], 0, 1⟩, fun _ => 0, ⟨[]⟩, []⟩, .waiting, [], fun _ => .idle⟩
  have hstart : (benign Unit Unit).Trace [] start :=
    .nil ⟨by decide, by decide, rfl, rfl, rfl, fun _ => rfl⟩
  have hwait := hstart.snoc (a := ()) ⟨.wait [] [.listening] rfl (by simp) (by simp) rfl,
    .of_plain rfl rfl fun _ => .inr rfl⟩
  have haccept := hwait.snoc (a := ()) ⟨.accept 4 [] rfl (by simp [start]),
    .of_accept rfl rfl (by decide) rfl⟩
  have hslot := haccept.snoc (a := ()) ⟨.slot 4 [] () ⟨[], 1, 1⟩ rfl rfl, .of_slot rfl rfl rfl⟩
  have hattach := hslot.snoc (a := ()) ⟨.attach () [] true rfl, .of_attach rfl rfl rfl rfl⟩
  have hover := hattach.snoc (a := ()) ⟨.finish rfl,
    .of_plain rfl rfl fun _ => .inr rfl⟩
  exact ⟨_, rfl, rfl, nothing_lost hover.reachable⟩

end EventLoop
end Calabash
