import Calabash.Socket.GiveBack

/-!
# Descriptors

A descriptor comes into the process by `accept` and goes by `close`. `Socket::close` is called
twice for a socket that is removed, by `remove` and by the destructor, while other threads accept
and close, and a descriptor that was closed is given out again at once.

## Main results

* `closes_own` — what is closed is open and no one else's, and it is closed once.
* `accounted` — every open descriptor is a socket's, or waits for one, or was dropped by a `null`
  of the pool.
-/

namespace Calabash
namespace EventLoop
variable {W S : Type}

/-- In front of the `close` of `remove`, in the loop or in a task. -/
def Closing (σ : EventLoop W S) (s : S) : Prop :=
  (∃ es, σ.loop = .closing s es) ∨ ∃ w, σ.worker w = .closing s

/-- In front of `Delete`, whose destructor closes the socket once more. -/
def Deleting (σ : EventLoop W S) (s : S) : Prop :=
  (∃ es, σ.loop = .deleting s es) ∨ ∃ w, σ.worker w = .deleting s

/-- A `close` is of a descriptor that is open, and that no other socket and no registration has;
the destructor finds nothing to close. -/
structure ClosesOwn (σ : EventLoop W S) : Prop where
  opened : ∀ s, σ.Closing s → 0 < σ.handler.sockfd s → σ.handler.sockfd s ∈ σ.handler.opened
  no_socket : ∀ s, σ.Closing s → 0 < σ.handler.sockfd s → ∀ t, t ∉ σ.handler.pool.idle →
    σ.handler.sockfd t = σ.handler.sockfd s → t = s
  no_registration : ∀ s, σ.Closing s → 0 < σ.handler.sockfd s →
    ∀ r ∈ σ.handler.epoll.interest, r.fd ≠ σ.handler.sockfd s
  once : ∀ s, σ.Deleting s → ¬ 0 < σ.handler.sockfd s

theorem mem_tasks [Fintype W] {σ : EventLoop W S} {w : W} {s : S} (h : s ∈ (σ.worker w).holds) :
    s ∈ σ.tasks := by
  rw [tasks, total]
  exact Multiset.mem_add.mpr (.inr (Multiset.mem_sum.mpr ⟨w, Finset.mem_univ w, h⟩))

theorem mem_inHand_of_loop [Fintype W] {σ : EventLoop W S} {s : S} (h : s ∈ σ.loop.holds) :
    s ∈ σ.inHand :=
  Multiset.mem_add.mpr (.inl h)

theorem mem_inHand_of_worker [Fintype W] {σ : EventLoop W S} {w : W} {s : S}
    (h : s ∈ (σ.worker w).holds) : s ∈ σ.inHand :=
  Multiset.mem_add.mpr (.inr (mem_tasks h))

theorem Closing.inHand [Fintype W] {σ : EventLoop W S} {s : S} (h : σ.Closing s) :
    s ∈ σ.inHand := by
  rcases h with ⟨es, hloop⟩ | ⟨w, hw⟩
  · exact mem_inHand_of_loop (by rw [hloop]; exact Multiset.mem_singleton_self s)
  · exact mem_inHand_of_worker (w := w) (by rw [hw]; exact Multiset.mem_singleton_self s)

theorem Deleting.inHand [Fintype W] {σ : EventLoop W S} {s : S} (h : σ.Deleting s) :
    s ∈ σ.inHand := by
  rcases h with ⟨es, hloop⟩ | ⟨w, hw⟩
  · exact mem_inHand_of_loop (by rw [hloop]; exact Multiset.mem_singleton_self s)
  · exact mem_inHand_of_worker (w := w) (by rw [hw]; exact Multiset.mem_singleton_self s)

/-- The ownership invariant with one of the slots in hand in front. -/
theorem Owned.cons [Fintype W] {σ : EventLoop W S} (hown : σ.Owned) {s : S} (hs : s ∈ σ.inHand) :
    ∃ M, σ.handler.Owns (s ::ₘ M) σ.loop.pending σ.loop.arriving := by
  obtain ⟨M, hM⟩ := Multiset.exists_cons_of_mem hs
  exact ⟨M, hM ▸ hown⟩

theorem Owned.in_use [Fintype W] {σ : EventLoop W S} (hown : σ.Owned) {s : S}
    (hs : s ∈ σ.inHand) : s ∉ σ.handler.pool.idle :=
  hown.given s (Multiset.mem_add.mpr (.inr hs))

/-- A registration is of a descriptor that no socket in hand has. -/
theorem Owned.not_registered [Fintype W] {σ : EventLoop W S} (hown : σ.Owned) {s : S}
    (hs : s ∈ σ.inHand) (hpos : 0 < σ.handler.sockfd s) {r : Registration S}
    (hr : r ∈ σ.handler.epoll.interest) : r.fd ≠ σ.handler.sockfd s := by
  obtain ⟨M, H⟩ := hown.cons hs
  intro heq
  have hgiven : r.ptr ∉ σ.handler.pool.idle :=
    hown.given r.ptr (Multiset.mem_add.mpr (.inl (SocketHandler.Owns.mem_watched hr)))
  exact H.not_watched hr (H.distinct s r.ptr H.in_use hgiven hpos ((H.own r hr).symm.trans heq))

section
variable [DecidableEq W] [DecidableEq S]

open Function (update)

omit [DecidableEq S] in
/-- A worker that goes on somewhere else is at `Delete` only if it goes there. -/
theorem Deleting.of_update {σ : EventLoop W S} {handler : SocketHandler S} {queue : List S} {w : W}
    {pc : WorkerPc S} {s : S}
    (h : ({ σ with handler := handler, queue := queue, worker := update σ.worker w pc } :
      EventLoop W S).Deleting s) :
    σ.Deleting s ∨ pc = .deleting s := by
  rcases h with hloop | ⟨v, hv⟩
  · exact .inl (.inl hloop)
  · dsimp only at hv
    by_cases hvw : v = w
    · subst hvw
      rw [Function.update_self] at hv
      exact .inr hv
    · rw [Function.update_of_ne hvw] at hv
      exact .inl (.inr ⟨v, hv⟩)

/-- `close` opens no socket. -/
theorem sockfd_close_of_le {h : SocketHandler S} {s : S} (hs : ¬ 0 < h.sockfd s) (u : S) :
    ¬ 0 < (h.close u).sockfd s := by
  by_cases hsu : s = u
  · subst hsu
    exact close_closed h s
  · rwa [SocketHandler.close_sockfd_of_ne h hsu]

variable [Fintype W]

/-- A socket whose `close` was called stays closed up to its `Delete`. -/
theorem closed_step {σ σ' : EventLoop W S} (hstep : Step σ σ') (hown : σ.Owned)
    (hclosed : ∀ s, σ.Deleting s → ¬ 0 < σ.handler.sockfd s) :
    ∀ s, σ'.Deleting s → ¬ 0 < σ'.handler.sockfd s := by
  intro s hs
  cases hstep with
  | wait | null | stuck | attach | finish | enqueue =>
    rcases hs with ⟨es, hloop⟩ | hw
    · cases hloop
    · exact hclosed s (.inr hw)
  | accept answer es hloop hfresh =>
    rcases hs with ⟨es, hloop⟩ | hw
    · cases hloop
    · simpa using hclosed s (.inr hw)
  | slot fd es u pool hloop halloc =>
    rcases hs with ⟨es, hloop⟩ | ⟨w, hw⟩
    · cases hloop
    · have hold : σ.Deleting s := .inr ⟨w, hw⟩
      have hu : u ∈ σ.handler.pool.idle := by simp [ObjectPool.allocate_slot halloc]
      have hne : s ≠ u := fun heq => hown.in_use hold.inHand (heq ▸ hu)
      simpa [SocketHandler.construct, hne] using hclosed s hold
  | detach u ready es hloop =>
    rcases hs with ⟨es, hloop⟩ | hw
    · dsimp only at hloop
      split at hloop <;> cases hloop
    · exact hclosed s (.inr hw)
  | close u es hloop =>
    rcases hs with ⟨es, hloop⟩ | hw
    · cases hloop
      exact close_closed σ.handler s
    · exact sockfd_close_of_le (hclosed s (.inr hw)) u
  | delete u es hloop =>
    rcases hs with ⟨es, hloop⟩ | hw
    · cases hloop
    · exact sockfd_close_of_le (hclosed s (.inr hw)) u
  | dequeue w u queue hw | reattach w u admits hw | remove w u hw | escape w u hw =>
    rcases hs.of_update with hs | hpc
    · exact hclosed s hs
    · cases hpc
  | closeTask w u hw =>
    rcases hs.of_update with hs | hpc
    · exact sockfd_close_of_le (hclosed s hs) u
    · cases hpc
      exact close_closed σ.handler s
  | deleteTask w u hw hloop =>
    rcases hs.of_update with hs | hpc
    · exact sockfd_close_of_le (hclosed s hs) u
    · cases hpc

/-- Whatever the loop and the workers do in whatever order, no descriptor is closed that is not the
own and open one of the socket that is removed, and none is closed twice. -/
theorem closes_own {σ : EventLoop W S} (h : (system W S).Reachable σ) : σ.ClosesOwn := by
  have hown := owned_reachable h
  obtain ⟨-, hclosed⟩ := h.invariant
    (P := fun σ => σ.Owned ∧ ∀ s, σ.Deleting s → ¬ 0 < σ.handler.sockfd s)
    (fun σ hstart => ⟨owned_start hstart, fun s hs => by
      rcases hs with ⟨es, hloop⟩ | ⟨w, hw⟩
      · rw [hstart.loop] at hloop
        cases hloop
      · rw [hstart.worker] at hw
        cases hw⟩)
    (fun _ _ _ hboth hstep => ⟨owned_step hstep hboth.1, closed_step hstep hboth.1 hboth.2⟩)
  exact {
    opened := fun s hs hpos => hown.opened s (hown.in_use hs.inHand) hpos
    no_socket := fun s hs hpos t ht heq => hown.distinct s t (hown.in_use hs.inHand) ht hpos heq
    no_registration := fun s hs hpos r hr => hown.not_registered hs.inHand hpos hr
    once := hclosed }

/-- A connection is accepted as descriptor 4, and its peer goes. -/
theorem closes_own_hup : ∃ σ : EventLoop Unit Bool,
    σ.Closing true ∧ σ.handler.sockfd true = 4 ∧ σ.ClosesOwn := by
  let start : EventLoop Unit Bool :=
    ⟨⟨⟨[true, false], 0, 1⟩, fun _ => 0, ⟨[]⟩, []⟩, .waiting, [], fun _ => .idle⟩
  have hstart : (system Unit Bool).Trace [] start :=
    .nil ⟨by decide, by decide, rfl, rfl, rfl, fun _ => rfl⟩
  have hwait := hstart.snoc (a := ()) (.wait [] [.listening] rfl (by simp) (by simp) rfl)
  have haccept := hwait.snoc (a := ()) (.accept 4 [] rfl (by simp [start]))
  have hslot := haccept.snoc (a := ()) (.slot 4 [] true ⟨[false], 1, 1⟩ rfl rfl)
  have hattach := hslot.snoc (a := ()) (.attach true [] true rfl)
  have hover := hattach.snoc (a := ()) (.finish rfl)
  have hreport := hover.snoc (a := ()) (.wait [⟨4, true, true⟩]
    [.client true ⟨true, false, false, rfl⟩] rfl (by decide) (by decide) rfl)
  have hdetach := hreport.snoc (a := ()) (.detach true ⟨true, false, false, rfl⟩ [] rfl)
  exact ⟨_, .inl ⟨[], rfl⟩, rfl, closes_own hdetach.reachable⟩

end

end EventLoop

/-! ## Where the open descriptors are -/

namespace SocketHandler
variable {S : Type}

/-- The descriptor of a socket in use. -/
def Owner (h : SocketHandler S) (fd : ℤ) : Prop := ∃ s, s ∉ h.pool.idle ∧ h.sockfd s = fd

/-- With the descriptors `foreign` that were open before, the ones that were dropped, and one that
waits for a slot: a descriptor is open when it is one of these or a socket's, and it is one of
these only. -/
structure Accounted (h : SocketHandler S) (foreign lost : List ℤ) (arriving : Option ℤ) :
    Prop where
  opened_iff : ∀ fd, 0 < fd →
    (fd ∈ h.opened ↔ fd ∈ foreign ∨ fd ∈ lost ∨ arriving = some fd ∨ h.Owner fd)
  lost_new : ∀ fd, 0 < fd → fd ∈ lost → fd ∉ foreign
  arriving_new : ∀ fd, 0 < fd → arriving = some fd → fd ∉ foreign ∧ fd ∉ lost ∧ ¬ h.Owner fd
  owner_new : ∀ fd, 0 < fd → h.Owner fd → fd ∉ foreign ∧ fd ∉ lost
  lost_once : (lost.filter (0 < ·)).Nodup

namespace Accounted
variable {h : SocketHandler S} {foreign lost : List ℤ} {A : Option ℤ} {s : S}

/-- What changes no descriptor keeps the account. -/
theorem of_eq (H : h.Accounted foreign lost A) {h' : SocketHandler S}
    (hopened : h'.opened = h.opened) (hpool : h'.pool = h.pool) (hfd : h'.sockfd = h.sockfd) :
    h'.Accounted foreign lost A := by
  have howner : h'.Owner = h.Owner := by
    funext fd
    rw [Owner, Owner, hpool, hfd]
  exact {
    opened_iff := by
      rw [hopened, howner]
      exact H.opened_iff
    lost_new := H.lost_new
    arriving_new := by
      rw [howner]
      exact H.arriving_new
    owner_new := by
      rw [howner]
      exact H.owner_new
    lost_once := H.lost_once }

theorem accepted (H : h.Accounted foreign lost none) {answer : ℤ} (hfresh : answer ∉ h.opened) :
    (h.accepted answer).Accounted foreign lost (some (Socket.accept answer)) := by
  have howner : (h.accepted answer).Owner = h.Owner := by
    funext fd
    rw [Owner, Owner, accepted_pool, accepted_sockfd]
  by_cases hneg : answer < 0
  · have hnone : ∀ fd, 0 < fd → ¬ some (Socket.accept answer) = some fd := by
      intro fd hpos heq
      rw [Socket.accept, if_pos hneg, Option.some.injEq] at heq
      omega
    exact {
      opened_iff := by
        intro fd hpos
        rw [howner, SocketHandler.accepted, if_pos hneg, H.opened_iff fd hpos]
        simp [hnone fd hpos]
      lost_new := H.lost_new
      arriving_new := fun fd hpos heq => absurd heq (hnone fd hpos)
      owner_new := by
        rw [howner]
        exact H.owner_new
      lost_once := H.lost_once }
  · have hsome : Socket.accept answer = answer := if_neg hneg
    rw [hsome]
    exact {
      opened_iff := by
        intro fd hpos
        rw [howner, SocketHandler.accepted, if_neg hneg, List.mem_cons, H.opened_iff fd hpos]
        simp only [reduceCtorEq, false_or, Option.some.injEq, eq_comm (a := fd)]
        tauto
      lost_new := H.lost_new
      arriving_new := by
        intro fd hpos heq
        obtain rfl := Option.some.inj heq
        rw [howner]
        refine ⟨fun hmem => hfresh ?_, fun hmem => hfresh ?_, fun hmem => hfresh ?_⟩
        · exact (H.opened_iff _ hpos).mpr (.inl hmem)
        · exact (H.opened_iff _ hpos).mpr (.inr (.inl hmem))
        · exact (H.opened_iff _ hpos).mpr (.inr (.inr (.inr hmem)))
      owner_new := by
        rw [howner]
        exact H.owner_new
      lost_once := H.lost_once }

/-- `Allocate` has no slot for the descriptor. -/
theorem drop {fd : ℤ} (H : h.Accounted foreign lost (some fd)) :
    h.Accounted foreign (lost ++ [fd]) none where
  opened_iff x hpos := by
    rw [H.opened_iff x hpos]
    simp only [List.mem_append, List.mem_singleton, reduceCtorEq, false_or, Option.some.injEq,
      eq_comm (a := x)]
    tauto
  lost_new x hpos hx := by
    rcases List.mem_append.mp hx with hx | hx
    · exact H.lost_new x hpos hx
    · obtain rfl := List.mem_singleton.mp hx
      exact (H.arriving_new x hpos rfl).1
  arriving_new _ _ hnone := by cases hnone
  owner_new x hpos hx := by
    obtain ⟨hforeign, hlost⟩ := H.owner_new x hpos hx
    refine ⟨hforeign, fun hmem => ?_⟩
    rcases List.mem_append.mp hmem with hmem | hmem
    · exact hlost hmem
    · obtain rfl := List.mem_singleton.mp hmem
      exact (H.arriving_new x hpos rfl).2.2 hx
  lost_once := by
    rw [List.filter_append]
    by_cases hpos : 0 < fd
    · have hnew := (H.arriving_new fd hpos rfl).2.1
      rw [List.filter_cons_of_pos (by simpa using hpos), List.filter_nil]
      exact List.nodup_append'.mpr ⟨H.lost_once, List.nodup_singleton fd, by
        rw [List.disjoint_singleton]
        exact fun hmem => hnew (List.mem_of_mem_filter hmem)⟩
    · rw [List.filter_cons_of_neg (by simpa using hpos), List.filter_nil, List.append_nil]
      exact H.lost_once

variable [DecidableEq S]

/-- The descriptor gets the slot that `Allocate` gives. -/
theorem construct {fd : ℤ} (H : h.Accounted foreign lost (some fd)) {pool : ObjectPool S}
    (hidle : h.pool.idle = s :: pool.idle) (honce : h.pool.idle.Nodup) :
    (h.construct s pool fd).Accounted foreign lost none := by
  rw [hidle, List.nodup_cons] at honce
  have howner : ∀ x, (h.construct s pool fd).Owner x ↔ fd = x ∨ h.Owner x := by
    intro x
    constructor
    · rintro ⟨t, ht, heq⟩
      by_cases hts : t = s
      · subst hts
        simp only [SocketHandler.construct, Function.update_self] at heq
        exact .inl heq
      · simp only [SocketHandler.construct, Function.update_of_ne hts] at ht heq
        refine .inr ⟨t, ?_, heq⟩
        rw [hidle]
        simp [hts, ht]
    · rintro (rfl | ⟨t, ht, heq⟩)
      · exact ⟨s, honce.1, by simp [SocketHandler.construct]⟩
      · rw [hidle, List.mem_cons, not_or] at ht
        exact ⟨t, ht.2, by simp [SocketHandler.construct, ht.1, heq]⟩
  exact {
    opened_iff := by
      intro x hpos
      rw [howner]
      simpa [SocketHandler.construct] using H.opened_iff x hpos
    lost_new := H.lost_new
    arriving_new _ _ hnone := by cases hnone
    owner_new := by
      intro x hpos hx
      rcases (howner x).mp hx with rfl | hx
      · obtain ⟨hforeign, hlost, -⟩ := H.arriving_new fd hpos rfl
        exact ⟨hforeign, hlost⟩
      · exact H.owner_new x hpos hx
    lost_once := H.lost_once }

theorem mem_opened_close {x : ℤ} : x ∈ (h.close s).opened ↔
    x ∈ h.opened ∧ (0 < h.sockfd s → x ≠ h.sockfd s) := by
  rw [SocketHandler.close]
  split
  · next hpos => simp [hpos]
  · next hpos => simp [hpos]

/-- The descriptor of a socket that is closed has no owner any more. -/
theorem owner_close {M : Multiset S} {P : List S} (hown : h.Owns (s ::ₘ M) P A) {x : ℤ}
    (hx : 0 < x) : (h.close s).Owner x ↔ h.Owner x ∧ (0 < h.sockfd s → x ≠ h.sockfd s) := by
  constructor
  · rintro ⟨t, ht, rfl⟩
    rw [close_pool] at ht
    by_cases hts : t = s
    · subst hts
      exact absurd hx (EventLoop.close_closed h t)
    · rw [close_sockfd_of_ne h hts] at hx ⊢
      exact ⟨⟨t, ht, rfl⟩, fun hpos heq => hts (hown.distinct s t hown.in_use ht hpos heq)⟩
  · rintro ⟨⟨t, ht, rfl⟩, hne⟩
    have hts : t ≠ s := by
      rintro rfl
      exact hne hx rfl
    exact ⟨t, by rwa [close_pool], close_sockfd_of_ne h hts⟩

theorem close {M : Multiset S} {P : List S} (H : h.Accounted foreign lost A)
    (hown : h.Owns (s ::ₘ M) P A) : (h.close s).Accounted foreign lost A where
  opened_iff x hx := by
    rw [mem_opened_close, owner_close hown hx, H.opened_iff x hx]
    have hsocket : 0 < h.sockfd s → h.Owner (h.sockfd s) := fun _ => ⟨s, hown.in_use, rfl⟩
    constructor
    · tauto
    · rintro (hforeign | hlost | harriving | ⟨howner, hne⟩)
      · exact ⟨.inl hforeign, fun hpos heq =>
          (H.owner_new _ hpos (hsocket hpos)).1 (heq ▸ hforeign)⟩
      · exact ⟨.inr (.inl hlost), fun hpos heq =>
          (H.owner_new _ hpos (hsocket hpos)).2 (heq ▸ hlost)⟩
      · exact ⟨.inr (.inr (.inl harriving)), fun hpos heq =>
          (H.arriving_new x hx harriving).2.2 (heq ▸ hsocket hpos)⟩
      · exact ⟨.inr (.inr (.inr howner)), hne⟩
  lost_new := H.lost_new
  arriving_new x hx harriving := by
    obtain ⟨hforeign, hlost, howner⟩ := H.arriving_new x hx harriving
    exact ⟨hforeign, hlost, fun h' => howner ((owner_close hown hx).mp h').1⟩
  owner_new x hx howner := H.owner_new x hx ((owner_close hown hx).mp howner).1
  lost_once := H.lost_once

/-- The slot that is given back has no descriptor. -/
theorem owner_delete {x : ℤ} (hx : 0 < x) : (h.delete s).Owner x ↔ (h.close s).Owner x := by
  constructor
  · rintro ⟨t, ht, rfl⟩
    rw [delete_pool, ObjectPool.idle_delete, List.mem_cons, not_or] at ht
    exact ⟨t, by rw [close_pool]; exact ht.2, rfl⟩
  · rintro ⟨t, ht, rfl⟩
    have hts : t ≠ s := by
      rintro rfl
      exact absurd hx (EventLoop.close_closed h t)
    rw [close_pool] at ht
    exact ⟨t, by simp [hts, ht], rfl⟩

theorem delete {M : Multiset S} {P : List S} (H : h.Accounted foreign lost A)
    (hown : h.Owns (s ::ₘ M) P A) : (h.delete s).Accounted foreign lost A := by
  have Hc := H.close hown
  exact {
    opened_iff := by
      intro x hx
      rw [owner_delete hx, delete_opened]
      exact Hc.opened_iff x hx
    lost_new := Hc.lost_new
    arriving_new := by
      intro x hx
      rw [owner_delete hx]
      exact Hc.arriving_new x hx
    owner_new := by
      intro x hx
      rw [owner_delete hx]
      exact Hc.owner_new x hx
    lost_once := Hc.lost_once }

end Accounted

end SocketHandler

namespace EventLoop
variable {W S : Type}

/-- The descriptor that a step drops: `Allocate` gives no slot for it. -/
def dropped (σ σ' : EventLoop W S) : List ℤ :=
  match σ.loop, σ'.loop with
  | .accepted fd _, .waiting | .accepted fd _, .stuck => [fd]
  | _, _ => []

variable [DecidableEq W] [DecidableEq S]

/-- The event loop and the workers, with the descriptors that each step drops. -/
def dropping (W S : Type) [DecidableEq W] [DecidableEq S] : System (EventLoop W S) (List ℤ) where
  init := Start
  step σ fds σ' := Step σ σ' ∧ fds = dropped σ σ'

omit [DecidableEq W] [DecidableEq S] in
/-- A worker drops none. -/
theorem dropped_worker (σ : EventLoop W S) (handler : SocketHandler S) (queue : List S)
    (worker : W → WorkerPc S) : dropped σ ⟨handler, σ.loop, queue, worker⟩ = [] := by
  rw [dropped]
  cases σ.loop <;> rfl

variable [Fintype W]

theorem accounted_step {σ σ' : EventLoop W S} {foreign lost : List ℤ} (hstep : Step σ σ')
    (hown : σ.Owned) (H : σ.handler.Accounted foreign lost σ.loop.arriving) :
    σ'.handler.Accounted foreign (lost ++ dropped σ σ') σ'.loop.arriving := by
  cases hstep with
  | wait rs es hloop | finish hloop | enqueue s es hloop | attach s es admits hloop =>
    rw [hloop] at H
    rw [dropped, hloop, List.append_nil]
    exact H.of_eq rfl rfl rfl
  | detach s ready es hloop =>
    rw [hloop] at H
    rw [dropped, hloop, List.append_nil]
    cases ready.hup || ready.err <;> exact H.of_eq rfl rfl rfl
  | accept answer es hloop hfresh =>
    rw [hloop] at H
    rw [dropped, hloop, List.append_nil]
    exact SocketHandler.Accounted.accepted H hfresh
  | null fd es hloop halloc | stuck fd es hloop halloc =>
    rw [hloop] at H
    rw [dropped, hloop]
    exact SocketHandler.Accounted.drop H
  | slot fd es s pool hloop halloc =>
    rw [hloop] at H
    rw [dropped, hloop, List.append_nil]
    exact SocketHandler.Accounted.construct H (ObjectPool.allocate_slot halloc) hown.idle_once
  | close s es hloop | delete s es hloop =>
    obtain ⟨M, hM⟩ := hown.cons (s := s) (mem_inHand_of_loop (by
      rw [hloop]
      exact Multiset.mem_singleton_self s))
    rw [hloop] at H hM
    rw [dropped, hloop, List.append_nil]
    first | exact SocketHandler.Accounted.close H hM | exact SocketHandler.Accounted.delete H hM
  | dequeue w s queue hw | remove w s hw | escape w s hw =>
    rw [dropped_worker, List.append_nil]
    exact H
  | reattach w s admits hw =>
    rw [dropped_worker, List.append_nil]
    exact H.of_eq rfl rfl rfl
  | closeTask w s hw =>
    obtain ⟨M, hM⟩ := hown.cons (s := s) (mem_inHand_of_worker (w := w) (by
      rw [hw]
      exact Multiset.mem_singleton_self s))
    rw [dropped_worker, List.append_nil]
    exact H.close hM
  | deleteTask w s hw hloop =>
    obtain ⟨M, hM⟩ := hown.cons (s := s) (mem_inHand_of_worker (w := w) (by
      rw [hw]
      exact Multiset.mem_singleton_self s))
    rw [dropped_worker, List.append_nil]
    exact H.delete hM

/-- Every descriptor that is open behind a run was open in front of it, or was dropped because the
pool had no slot, or waits for a slot, or is the one of a socket in use; what is dropped stays open
for good, and nothing else does. -/
theorem accounted {σ₀ σ : EventLoop W S} {tr : List (List ℤ)} (hstart : Start σ₀)
    (hrun : (dropping W S).Run σ₀ tr σ) :
    σ.handler.Accounted σ₀.handler.opened tr.flatten σ.loop.arriving := by
  suffices h : σ.Owned ∧ σ.handler.Accounted σ₀.handler.opened tr.flatten σ.loop.arriving from h.2
  induction hrun with
  | nil =>
    refine ⟨owned_start hstart, ?_⟩
    have hnone : ∀ fd, ¬ σ₀.handler.Owner fd := fun fd ⟨s, hs, _⟩ => hs (hstart.idle s)
    rw [hstart.loop]
    exact {
      opened_iff := fun fd _ => by simp [hnone fd, LoopPc.arriving]
      lost_new := nofun
      arriving_new _ _ hnone := by cases hnone
      owner_new := fun fd _ howner => absurd howner (hnone fd)
      lost_once := List.nodup_nil }
  | snoc _ hstep ih =>
    obtain ⟨hown, H⟩ := ih
    obtain ⟨hstep, rfl⟩ := hstep
    refine ⟨owned_step hstep hown, ?_⟩
    rw [List.flatten_append, List.flatten_singleton]
    exact accounted_step hstep hown H

/-- A connection is accepted while the limit of the pool is reached: its descriptor stays open. -/
theorem accounted_dropped : ∃ σ : EventLoop Unit Unit, σ.loop = .waiting ∧
    σ.handler.opened = [4] ∧ σ.handler.Accounted [] [4] none := by
  let start : EventLoop Unit Unit :=
    ⟨⟨⟨[()], 0, 0⟩, fun _ => 0, ⟨[]⟩, []⟩, .waiting, [], fun _ => .idle⟩
  have hwait := System.Run.snoc (S := dropping Unit Unit) (.nil start) (a := [])
    ⟨.wait [] [.listening] rfl (by simp) (by simp) rfl, rfl⟩
  have haccept := hwait.snoc (a := []) ⟨.accept 4 [] rfl (by simp [start]), rfl⟩
  have hnull := haccept.snoc (a := [4]) ⟨.null 4 [] rfl rfl, rfl⟩
  exact ⟨_, rfl, rfl, accounted ⟨by decide, by decide, rfl, rfl, rfl, fun _ => rfl⟩ hnull⟩

end EventLoop
end Calabash
