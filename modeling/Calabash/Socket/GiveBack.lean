import Calabash.Socket.Shutdown

/-!
# What `Stop` gives back

The object pool outlives the handlers that take slots from it. `Account` says what the pool
knows about its slots; `stop_gives_back` says that they are all idle and closed once `Stop`
has returned, if the poller is deleted when no connection is open.
-/

namespace Calabash

namespace EventLoop
variable {W S : Type} [Fintype S]

/-- An idle slot is closed, and the pool counts the slots that are not idle. -/
structure Account (σ : EventLoop W S) : Prop where
  closed : ∀ x ∈ σ.handler.pool.idle, ¬ 0 < σ.handler.sockfd x
  counted : σ.handler.pool.nowSize + UInt64.ofNat σ.handler.pool.idle.length =
    UInt64.ofNat (Fintype.card S)

/-- A step that neither takes nor gives back a slot keeps the account. -/
theorem Account.of_eq {σ σ' : EventLoop W S} (h : σ.Account)
    (hidle : σ'.handler.pool.idle = σ.handler.pool.idle)
    (hsize : σ'.handler.pool.nowSize = σ.handler.pool.nowSize)
    (hfd : σ'.handler.sockfd = σ.handler.sockfd) : σ'.Account where
  closed := by
    rw [hidle, hfd]
    exact h.closed
  counted := by
    rw [hidle, hsize]
    exact h.counted

variable [DecidableEq S]

omit [Fintype S] in
theorem close_closed (h : SocketHandler S) (x : S) : ¬ 0 < (h.close x).sockfd x := by
  rw [SocketHandler.close_sockfd, Function.update_self]
  split
  · exact lt_irrefl 0
  · assumption

theorem account_close {σ : EventLoop W S} (h : σ.Account) (x : S) (loop : LoopPc S)
    (worker : W → WorkerPc S) :
    ({ σ with handler := σ.handler.close x, loop := loop, worker := worker } :
      EventLoop W S).Account where
  closed y hy := by
    by_cases hyx : y = x
    · subst hyx
      exact close_closed σ.handler y
    · rw [SocketHandler.close_sockfd_of_ne _ hyx]
      rw [SocketHandler.close_pool] at hy
      exact h.closed y hy
  counted := by
    rw [SocketHandler.close_pool]
    exact h.counted

theorem account_delete {σ : EventLoop W S} (h : σ.Account) (x : S) (loop : LoopPc S)
    (worker : W → WorkerPc S) :
    ({ σ with handler := σ.handler.delete x, loop := loop, worker := worker } :
      EventLoop W S).Account where
  closed y hy := by
    rw [SocketHandler.delete_pool, ObjectPool.idle_delete] at hy
    rcases List.mem_cons.mp hy with rfl | hy
    · exact close_closed σ.handler y
    · have hclose := account_close h x loop worker
      rw [← SocketHandler.close_pool σ.handler x] at hy
      exact hclose.closed y hy
  counted := by
    rw [← h.counted, SocketHandler.delete_pool, ObjectPool.delete, List.length_cons,
      UInt64.ofNat_add]
    grind

variable [DecidableEq W]

theorem account_step {σ σ' : EventLoop W S} (h : σ.Account) (hown : σ.handler.pool.idle.Nodup)
    (hstep : Step σ σ') : σ'.Account := by
  cases hstep with
  | accept answer es hloop hfresh => exact h.of_eq (by simp) (by simp) (by simp)
  | slot fd es x pool hloop halloc =>
    have hidle := ObjectPool.allocate_slot halloc
    have hsize := ObjectPool.allocate_nowSize halloc
    constructor
    · intro y hy
      rw [hidle] at hown
      have hyx : y ≠ x := fun heq => (List.nodup_cons.mp hown).1 (heq ▸ hy)
      have hold : y ∈ σ.handler.pool.idle := by
        rw [hidle]
        exact List.mem_cons_of_mem _ hy
      simpa [SocketHandler.construct, hyx] using h.closed y hold
    · rw [← h.counted, hidle, List.length_cons, UInt64.ofNat_add]
      simp only [SocketHandler.construct, hsize]
      grind
  | close x es hloop => exact account_close h x _ _
  | delete x es hloop => exact account_delete h x _ _
  | closeTask w x hw => exact account_close h x _ _
  | deleteTask w x hw hloop => exact account_delete h x _ _
  | _ => exact h.of_eq rfl rfl rfl

/-- The slot is on its way back to the pool, with the loop or with a task. -/
def Removing (σ : EventLoop W S) (x : S) : Prop :=
  (∃ es, σ.loop = .closing x es ∨ σ.loop = .deleting x es) ∨
    ∃ w, σ.worker w = .closing x ∨ σ.worker w = .deleting x

omit [Fintype S] [DecidableEq S] in
/-- What one worker does takes no other's slot off its way. -/
theorem Removing.update {σ : EventLoop W S} {x : S} (h : σ.Removing x) (handler : SocketHandler S)
    (w : W) (pc : WorkerPc S) :
    ({ σ with handler := handler, worker := Function.update σ.worker w pc } :
      EventLoop W S).Removing x ∨ σ.worker w = .closing x ∨ σ.worker w = .deleting x := by
  rcases h with hloop | ⟨v, hv⟩
  · exact .inl (.inl hloop)
  · by_cases hvw : v = w
    · exact .inr (hvw ▸ hv)
    · left
      right
      refine ⟨v, ?_⟩
      dsimp only
      rwa [Function.update_of_ne hvw]

end EventLoop

namespace Lifetimes
variable {W S : Type}

open EventLoop (Account)

/-! ## What `Start` and `Stop` do to the slots -/

@[simp] theorem watched_unwatched (σ : EventLoop W S) : (unwatched σ).handler.watched = 0 := rfl
@[simp] theorem inHand_unwatched [Fintype W] (σ : EventLoop W S) :
    (unwatched σ).inHand = σ.inHand := rfl

theorem removing_unwatched (σ : EventLoop W S) (x : S) :
    (unwatched σ).Removing x ↔ σ.Removing x := Iff.rfl
theorem removing_limited (σ : EventLoop W S) (n : UInt64) (x : S) :
    (limited σ n).Removing x ↔ σ.Removing x := Iff.rfl

theorem owned_unwatched [Fintype W] {σ : EventLoop W S} (h : σ.Owned)
    (hpending : σ.loop.pending = []) : (unwatched σ).Owned where
  once := by
    rw [watched_unwatched, inHand_unwatched, zero_add]
    exact (Multiset.nodup_add.mp h.once).2.1
  given x hx := by
    rw [watched_unwatched, inHand_unwatched, zero_add] at hx
    exact h.given x (Multiset.mem_add.mpr (.inr hx))
  idle_once := h.idle_once
  fds := by simp [unwatched]
  own := by simp [unwatched]
  pending_once := h.pending_once
  reported := by simp [hpending]
  opened := h.opened
  distinct := h.distinct
  arrived := h.arrived

theorem owned_limited [Fintype W] {σ : EventLoop W S} (h : σ.Owned) (n : UInt64) :
    (limited σ n).Owned := { h with }

theorem account_unwatched [Fintype S] {σ : EventLoop W S} (h : σ.Account) :
    (unwatched σ).Account := h.of_eq rfl rfl rfl

theorem account_limited [Fintype S] {σ : EventLoop W S} (h : σ.Account) (n : UInt64) :
    (limited σ n).Account := h.of_eq rfl rfl rfl

/-- No connection is open but those that are being removed, and none can come. -/
structure Deserted (s : Lifetimes W S) : Prop where
  entered : s.starter ≠ .created
  accepted : ∀ fd es, s.core.loop ≠ .accepted fd es
  slots : ∀ x, x ∈ s.core.handler.pool.idle ∨ s.core.Removing x

/-- `Stop` frees only what nobody comes back to, and finds no connection open. -/
def Emptied (s : Lifetimes W S) (a : Label) : Prop :=
  s.Quiet a ∧ (a = .free → s.Deserted)

theorem pending_of_unpolled {s : Lifetimes W S} (hsound : s.Sound) (h : s.Unpolled)
    (hdeserted : s.Deserted) : s.core.loop.pending = [] := by
  have haccepted := hdeserted.accepted
  have hresting := hsound.resting
  rw [Unpolled] at h
  cases hloop : s.core.loop <;>
    grind -ring -linarith [Spent, EventLoop.LoopPc.pending, EventLoop.LoopPc.events]

theorem pending_of_unhandled {s : Lifetimes W S} (hsound : s.Sound) (h : s.Unhandled) :
    s.core.loop.pending = [] := by
  have hresting := hsound.resting
  obtain ⟨haway | ⟨-, hstuck⟩, -, -⟩ := h
  · rw [hresting (by simp [haway])]
    rfl
  · rw [hstuck]
    rfl

variable [DecidableEq W] [DecidableEq S]

/-- The slots and the registrations change by a step of the event loop and the workers, or
lose the poller when no event is left to process. -/
theorem Step.core {s t : Lifetimes W S} {a : Label} (hstep : Step s a t) (hsound : s.Sound)
    (hempty : s.Emptied a) :
    EventLoop.Step s.core t.core ∨ t.core = s.core ∨
      s.core.loop.pending = [] ∧
        (t.core = unwatched s.core ∨ ∃ n, t.core = limited (unwatched s.core) n) := by
  have hwaiting : s.starter ≠ .inside → s.core.loop.pending = [] := by
    intro houtside
    rw [hsound.resting houtside]
    rfl
  cases hstep with
  | start haway => exact .inr (.inr ⟨hwaiting (by simp [haway]), .inl rfl⟩)
  | enter n hcreated => exact .inr (.inr ⟨hwaiting (by simp [hcreated]), .inr ⟨n, rfl⟩⟩)
  | free =>
    have hpending := pending_of_unpolled hsound hempty.1 (hempty.2 rfl)
    exact .inr (.inr ⟨hpending, .inl rfl⟩)
  | release => exact .inr (.inr ⟨pending_of_unhandled hsound hempty.1, .inl rfl⟩)
  | wait rs es _ hloop hrs hnodup hes => exact .inl (.wait rs es hloop hrs hnodup hes)
  | accept answer es _ hloop hfresh => exact .inl (.accept answer es hloop hfresh)
  | null fd es _ hloop halloc => exact .inl (.null fd es hloop halloc)
  | stuck fd es _ hloop halloc => exact .inl (.stuck fd es hloop halloc)
  | slot fd es x pool _ hloop halloc => exact .inl (.slot fd es x pool hloop halloc)
  | attach x es admits _ hloop => exact .inl (.attach x es admits hloop)
  | detach x ready es _ hloop => exact .inl (.detach x ready es hloop)
  | close x es _ hloop => exact .inl (.close x es hloop)
  | delete x es _ hloop => exact .inl (.delete x es hloop)
  | enqueue x es _ hloop => exact .inl (.enqueue x es hloop)
  | finish _ hloop => exact .inl (.finish hloop)
  | dequeue w x queue hw hqueue => exact .inl (.dequeue w x queue hw hqueue)
  | reattach w x admits hw => exact .inl (.reattach w x admits hw)
  | remove w x hw => exact .inl (.remove w x hw)
  | closeTask w x hw => exact .inl (.closeTask w x hw)
  | deleteTask w x hw hloop => exact .inl (.deleteTask w x hw hloop)
  | escape w x hw => exact .inl (.escape w x hw)
  | _ => exact .inr (.inl rfl)

/-! ## A run of starts and stops -/

/-- What holds all along, as long as `Stop` finds no connection open. -/
structure Kept [Fintype W] [Fintype S] (s : Lifetimes W S) : Prop where
  sound : s.Sound
  owned : s.core.Owned
  account : s.core.Account
  /-- Between the end of the poller and the next `handle` nothing is created. -/
  entered : s.stopper = .freed ∨ s.stopper = .released ∨ s.stopper = .joining →
    s.poller = false ∧ s.starter ≠ .created
  slots : s.poller = false → ∀ x, x ∈ s.core.handler.pool.idle ∨ s.core.Removing x

theorem length_of_idle [Fintype S] {idle : List S} (hnodup : idle.Nodup) (h : ∀ x, x ∈ idle) :
    idle.length = Fintype.card S := by
  rw [← List.toFinset_card_of_nodup hnodup, ← Finset.card_univ]
  congr 1
  exact Finset.eq_univ_of_forall fun x => List.mem_toFinset.mpr (h x)

variable [Fintype W] [Fintype S]

omit [DecidableEq W] in
theorem kept_init {s : Lifetimes W S} (h : Init s) : s.Kept where
  sound := sound_init h
  owned := EventLoop.owned_start h.core
  account := by
    have hlength := length_of_idle h.core.idle_once h.core.idle
    exact ⟨fun x _ => h.closed x, by rw [h.nowSize, hlength, UInt64.zero_add]⟩
  entered := by simp [h.stopper]
  slots _ x := .inl (h.core.idle x)

/-- Without a poller, slots only come back. -/
theorem slots_step {s t : Lifetimes W S} {a : Label} (h : s.Kept) (hstep : Step s a t)
    (hempty : s.Emptied a) (hpoller : t.poller = false) (x : S) :
    x ∈ t.core.handler.pool.idle ∨ t.core.Removing x := by
  have hslots := h.slots
  have hentered := h.entered
  have hunpolled := h.sound.unpolled
  have hdeserted := hempty.2
  rw [Unpolled] at hunpolled
  cases hstep with
  | closeTask w y hw =>
    rcases hslots hpoller x with hidle | hremoving
    · left
      simpa using hidle
    · rcases hremoving.update (s.core.handler.close y) w (.deleting y) with hothers | hthis
      · exact .inr hothers
      · have hxy : y = x := by grind
        subst hxy
        exact .inr (.inr ⟨w, .inr (Function.update_self ..)⟩)
  | deleteTask w y hw =>
    rcases hslots hpoller x with hidle | hremoving
    · left
      simp [hidle]
    · rcases hremoving.update (s.core.handler.delete y) w .idle with hothers | hthis
      · exact .inr hothers
      · have hxy : y = x := by grind
        subst hxy
        left
        simp
  | _ => grind -ring -linarith [Deserted, EventLoop.Removing, Spent, removing_unwatched,
    removing_limited, SocketHandler.close_pool, SocketHandler.delete_pool, ObjectPool.idle_delete]

theorem kept_step {s t : Lifetimes W S} {a : Label} (h : s.Kept) (hstep : Step s a t)
    (hempty : s.Emptied a) : t.Kept := by
  have hcore := hstep.core h.sound hempty
  refine ⟨sound_step h.sound hstep hempty.1, ?_, ?_, ?_, ?_⟩
  · rcases hcore with hmove | hsame | ⟨hpending, hun | ⟨n, hlim⟩⟩
    · exact EventLoop.owned_step hmove h.owned
    · exact hsame ▸ h.owned
    · exact hun ▸ owned_unwatched h.owned hpending
    · exact hlim ▸ owned_limited (owned_unwatched h.owned hpending) n
  · rcases hcore with hmove | hsame | ⟨-, hun | ⟨n, hlim⟩⟩
    · exact EventLoop.account_step h.account h.owned.idle_once hmove
    · exact hsame ▸ h.account
    · exact hun ▸ account_unwatched h.account
    · exact hlim ▸ account_limited (account_unwatched h.account) n
  · have hentered := h.entered
    have hdeserted := hempty.2
    cases hstep <;> grind -ring -linarith [Deserted]
  · exact slots_step h hstep hempty

/-- No `Stop` is under way, and there is no handler. -/
def Stopped (s : Lifetimes W S) : Prop := s.handler = false ∧ s.stopper = .away

/-- Every slot is idle and closed, and a new limit can be reached, as far as there are slots. -/
structure GivenBack (s : Lifetimes W S) : Prop where
  idle : ∀ x, x ∈ s.core.handler.pool.idle
  closed : ∀ x, ¬ 0 < s.core.handler.sockfd x
  nowSize : s.core.handler.pool.nowSize = 0
  accepts : ∀ (maxConnections : UInt64) (n : ℕ), n ≤ maxConnections.toNat → n ≤ Fintype.card S →
    (ObjectPool.allocations n (s.core.handler.pool.setMaxSize maxConnections)).isSome

omit [DecidableEq W] [Fintype W] in
theorem givenBack_of_idle {s : Lifetimes W S} (hnodup : s.core.handler.pool.idle.Nodup)
    (haccount : s.core.Account) (hidle : ∀ x, x ∈ s.core.handler.pool.idle) : s.GivenBack := by
  have hlength : s.core.handler.pool.idle.length = Fintype.card S :=
    length_of_idle hnodup hidle
  have hsize : s.core.handler.pool.nowSize = 0 := by
    have hcounted := haccount.counted
    rw [hlength] at hcounted
    grind
  refine ⟨hidle, fun x => haccount.closed x (hidle x), hsize, ?_⟩
  intro maxConnections n hmax hcard
  apply ObjectPool.allocations_isSome
  · exact hlength ▸ hcard
  · simpa [ObjectPool.setMaxSize, hsize] using hmax

theorem kept_reachable {s : Lifetimes W S}
    (h : ((system W S).guarded Emptied).Reachable s) : s.Kept := by
  apply h.invariant (P := Kept)
  · exact fun _ => kept_init
  · exact fun _ _ _ hkept hstep => kept_step hkept hstep.1 hstep.2

/-- After any number of starts and stops that find no connection open, every slot is back
once `Stop` has returned. -/
theorem stop_gives_back {s : Lifetimes W S} (h : ((system W S).guarded Emptied).Reachable s)
    (hstopped : s.Stopped) : s.GivenBack := by
  have hkept := kept_reachable h
  obtain ⟨hpoller, hloop, -, hworker⟩ := hkept.sound.unhandled hstopped.1
  apply givenBack_of_idle hkept.owned.idle_once hkept.account
  intro x
  rcases hkept.slots hpoller x with hidle | hremoving
  · exact hidle
  · have hresting := hkept.sound.resting
    grind -ring -linarith [EventLoop.Removing]

/-- A connection comes and hangs up before the server is stopped. -/
theorem stop_gives_back_small : ∃ s : Lifetimes Unit Bool, s.Stopped ∧ s.GivenBack := by
  have hinit : ((system Unit Bool).guarded Emptied).Trace [] fresh := .nil init_fresh
  have hstart := hinit.snoc ⟨.start rfl rfl rfl, trivial, nofun⟩
  have henter := hstart.snoc ⟨.enter 2 rfl, trivial, nofun⟩
  have hgoOn := henter.snoc ⟨.goOn rfl rfl, trivial, nofun⟩
  have hwait := hgoOn.snoc ⟨.wait [] [.listening] rfl rfl (by simp) (by simp) rfl, trivial, nofun⟩
  have haccept := hwait.snoc ⟨.accept 4 [] rfl rfl (by decide), trivial, nofun⟩
  have hslot := haccept.snoc ⟨.slot 4 [] true ⟨[false], 1, 2⟩ rfl rfl rfl, trivial, nofun⟩
  have hattach := hslot.snoc ⟨.attach true [] true rfl rfl, trivial, nofun⟩
  have hover := hattach.snoc ⟨.finish rfl rfl, trivial, nofun⟩
  have hgoOn' := hover.snoc ⟨.goOn rfl rfl, trivial, nofun⟩
  have hreport := hgoOn'.snoc ⟨.wait [⟨4, true, true⟩]
    [.client true ⟨true, false, false, rfl⟩] rfl rfl (by decide) (by decide) rfl, trivial, nofun⟩
  have hdetach := hreport.snoc ⟨.detach true ⟨true, false, false, rfl⟩ [] rfl rfl, trivial, nofun⟩
  have hclose := hdetach.snoc ⟨.close true [] rfl rfl, trivial, nofun⟩
  have hdelete := hclose.snoc ⟨.delete true [] rfl rfl, trivial, nofun⟩
  have hover' := hdelete.snoc ⟨.finish rfl rfl, trivial, nofun⟩
  have hcall := hover'.snoc ⟨.call rfl rfl, trivial, nofun⟩
  have hshut := hcall.snoc ⟨.shut rfl, trivial, nofun⟩
  have hleave := hshut.snoc ⟨.leave rfl rfl, trivial, nofun⟩
  have hfree := hleave.snoc ⟨.free rfl, ⟨.inl rfl, rfl, fun _ _ => nofun⟩,
    fun _ => ⟨nofun, nofun, fun x => .inl (by cases x <;> decide)⟩⟩
  have hrelease := hfree.snoc ⟨.release rfl, ⟨.inl rfl, rfl, fun _ => rfl⟩, nofun⟩
  have hdrop := hrelease.snoc ⟨.drop rfl, trivial, nofun⟩
  have hjoin := hdrop.snoc ⟨.join rfl rfl fun _ => rfl, trivial, nofun⟩
  exact ⟨_, ⟨rfl, rfl⟩, stop_gives_back hjoin.reachable ⟨rfl, rfl⟩⟩

/-- A connection that waits for its next request when the server is stopped stays open, and
keeps its slot. -/
theorem stop_gives_back_fails :
    ¬ ∀ s : Lifetimes Unit Bool, (system Unit Bool).Reachable s → s.Stopped → s.GivenBack := by
  intro hall
  have hinit : (system Unit Bool).Trace [] fresh := .nil init_fresh
  have hstart := hinit.snoc (.start rfl rfl rfl)
  have henter := hstart.snoc (.enter 2 rfl)
  have hgoOn := henter.snoc (.goOn rfl rfl)
  have hwait := hgoOn.snoc (.wait [] [.listening] rfl rfl (by simp) (by simp) rfl)
  have haccept := hwait.snoc (.accept 4 [] rfl rfl (by decide))
  have hslot := haccept.snoc (.slot 4 [] true ⟨[false], 1, 2⟩ rfl rfl rfl)
  have hattach := hslot.snoc (.attach true [] true rfl rfl)
  have hover := hattach.snoc (.finish rfl rfl)
  have hcall := hover.snoc (.call rfl rfl)
  have hshut := hcall.snoc (.shut rfl)
  have hleave := hshut.snoc (.leave rfl rfl)
  have hfree := hleave.snoc (.free rfl)
  have hrelease := hfree.snoc (.release rfl)
  have hdrop := hrelease.snoc (.drop rfl)
  have hjoin := hdrop.snoc (.join rfl rfl fun _ => rfl)
  have hback := hall _ hjoin.reachable ⟨rfl, rfl⟩
  exact absurd (hback.idle true) (by decide)

end Lifetimes

end Calabash
