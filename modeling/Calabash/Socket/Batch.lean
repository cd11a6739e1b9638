import Mathlib.Tactic.Common
import Calabash.Socket.SocketHandler

/-!
# What a batch of events leaves behind

Every client of a batch should be detached and queued or removed, every accepted
descriptor end up registered or closed, and every allocated `Socket` registered. `handle`
keeps to this unless the listening socket is in the batch and `accept`, `Allocate` and
`epoll_ctl` do not fit together: `losesNothing_iff` says exactly when.
-/

namespace Calabash
namespace SocketHandler
variable {S : Type}

namespace Turn

/-- The socket that the turn is about. -/
def socket? : Turn S → Option S
  | .event e => e.socket?
  | .attached s _ => some s
  | .removed s => some s

/-- The client of the event, if the turn is one. -/
def client? : Turn S → Option S
  | .event e => e.socket?
  | _ => none

/-- Whether the turn gives its socket back to the pool. -/
def frees : Turn S → Bool
  | .event (.client _ ready) => ready.hup || ready.err
  | .removed _ => true
  | _ => false

/-- What the loop does in a turn about a client. -/
def log : Turn S → List (Action S)
  | .event (.client s ready) =>
    if (ready.hup || ready.err) = true then [.detached s, .removed s] else [.detached s, .queued s]
  | _ => []

theorem exists_socket {t : Turn S} (ht : t ≠ .event .listening) : ∃ s, t.socket? = some s := by
  cases t with
  | event e =>
    cases e with
    | listening => exact absurd rfl ht
    | client s ready => exact ⟨s, rfl⟩
  | attached s admits => exact ⟨s, rfl⟩
  | removed s => exact ⟨s, rfl⟩

end Turn

def clients (turns : List (Turn S)) : List S := turns.filterMap Turn.client?

theorem clients_append (front back : List (Turn S)) :
    clients (front ++ back) = clients front ++ clients back := List.filterMap_append

/-- A log that covers the turns has every client of them detached and passed on. -/
theorem passed_on {turns : List (Turn S)} {log : List (Action S)}
    (hlog : turns.flatMap Turn.log ⊆ log) {s : S} (hs : s ∈ clients turns) :
    Action.detached s ∈ log ∧ (Action.queued s ∈ log ∨ Action.removed s ∈ log) := by
  obtain ⟨t, ht, hclient⟩ := List.mem_filterMap.mp hs
  have hturn : Action.detached s ∈ t.log ∧
      (Action.queued s ∈ t.log ∨ Action.removed s ∈ t.log) := by
    rcases t with (_ | ⟨u, ready⟩) | _ | _ <;> cases hclient
    rw [Turn.log]
    split <;> simp
  have hmem : ∀ a ∈ t.log, a ∈ log := fun a ha => hlog (List.mem_flatMap.mpr ⟨t, ht, ha⟩)
  exact ⟨hmem _ hturn.1, hturn.2.imp (hmem _) (hmem _)⟩

/-- The turns of clients and tasks accept and allocate nothing, and detach only clients. -/
theorem of_mem_log {turns : List (Turn S)} {a : Action S} (ha : a ∈ turns.flatMap Turn.log) :
    (∀ fd, a ≠ .accepted fd) ∧ (∀ s, a ≠ .allocated s) ∧
      ∀ s, a = .detached s → s ∈ clients turns := by
  obtain ⟨t, ht, hlog⟩ := List.mem_flatMap.mp ha
  rcases t with (_ | ⟨u, ready⟩) | _ | _ <;> simp only [Turn.log, List.not_mem_nil] at hlog
  have hclient : u ∈ clients turns := List.mem_filterMap.mpr ⟨_, ht, rfl⟩
  split at hlog <;> simp only [List.mem_cons, List.not_mem_nil, or_false] at hlog <;>
    rcases hlog with rfl | rfl <;> simp [hclient]

/-- Turns none of which is about the listening socket. -/
def Calm (turns : List (Turn S)) : Prop := ∀ t ∈ turns, t ≠ .event .listening

/-- A socket that is given back has no turn after it: within a batch, a slot goes to one
new connection at most, and that one is reported by no earlier `epoll_wait`. -/
def GoneAfter (turns : List (Turn S)) : Prop :=
  turns.Pairwise fun t u => t.frees = true → u.socket? ≠ t.socket?

/-- A socket that the pool has given out, with an open descriptor. -/
def InUse (h : SocketHandler S) (s : S) : Prop := s ∉ h.pool.idle ∧ h.sockfd s ∈ h.opened

variable [DecidableEq S]

instance (turns : List (Turn S)) : Decidable (Calm turns) := by
  rw [Calm]
  infer_instance

instance (turns : List (Turn S)) : Decidable (GoneAfter turns) := by
  rw [GoneAfter]
  infer_instance

instance (h : SocketHandler S) (s : S) : Decidable (InUse h s) := by
  rw [InUse]
  infer_instance

/-- The state after a turn that is not about the listening socket. -/
def advance (h : SocketHandler S) : Turn S → SocketHandler S
  | .event .listening => h
  | .event (.client s ready) => (h.serve s ready).1
  | .attached s admits => h.attach s admits
  | .removed s => h.remove s

theorem serve_eq (h : SocketHandler S) (s : S) (ready : Ready) :
    h.serve s ready =
      if (ready.hup || ready.err) = true then ((h.detach s).remove s, [.detached s, .removed s])
      else (h.detach s, [.detached s, .queued s]) := by
  obtain ⟨hup, err, input, hreported⟩ := ready
  cases hup <;> cases err <;> cases input <;> simp [serve] at hreported ⊢

theorem handle_cons_calm (answer : ℤ) (admits : Bool) (h : SocketHandler S) {t : Turn S}
    (ht : t ≠ .event .listening) (turns : List (Turn S)) :
    handle answer admits h (t :: turns) =
      (handle answer admits (h.advance t) turns).after t.log := by
  cases t with
  | event e =>
    cases e with
    | listening => exact absurd rfl ht
    | client s ready =>
      rw [handle, serve_eq]
      simp only [advance, Turn.log, serve_eq]
      split <;> rfl
  | attached s room => rfl
  | removed s => rfl

/-- Turns without the listening socket are gone through one after the other. -/
theorem handle_append_calm (answer : ℤ) (admits : Bool) (h : SocketHandler S)
    {front : List (Turn S)} (hcalm : Calm front) (back : List (Turn S)) :
    handle answer admits h (front ++ back) =
      (handle answer admits (front.foldl advance h) back).after (front.flatMap Turn.log) := by
  induction front generalizing h with
  | nil => rfl
  | cons t front ih =>
    rw [List.cons_append, handle_cons_calm answer admits h (hcalm t (by simp)),
      ih (h.advance t) fun u hu => hcalm u (List.mem_cons_of_mem _ hu)]
    simp [Outcome.after]

theorem handle_calm (answer : ℤ) (admits : Bool) (h : SocketHandler S) {turns : List (Turn S)}
    (hcalm : Calm turns) :
    handle answer admits h turns =
      ⟨turns.foldl advance h, turns.flatMap Turn.log, true⟩ := by
  have happend := handle_append_calm answer admits h hcalm []
  simpa [handle, Outcome.after] using happend

/-! ## What a turn leaves alone -/

theorem advance_calm (h : SocketHandler S) {t : Turn S} {u : S} (ht : t.socket? = some u) :
    h.advance t = h.attach u true ∨ h.advance t = h.attach u false ∨
    (t.frees = false ∧ h.advance t = h.detach u) ∨
    (t.frees = true ∧ (h.advance t = h.remove u ∨ h.advance t = (h.detach u).remove u)) := by
  cases t with
  | event e =>
    cases e with
    | listening => cases ht
    | client s ready =>
      cases ht
      rw [advance, serve_eq, Turn.frees]
      split
      · next hfrees => exact .inr (.inr (.inr ⟨hfrees, .inr rfl⟩))
      · next hfrees => exact .inr (.inr (.inl ⟨by simpa using hfrees, rfl⟩))
  | attached s admits =>
    cases ht
    cases admits
    · exact .inr (.inl rfl)
    · exact .inl rfl
  | removed s =>
    cases ht
    exact .inr (.inr (.inr ⟨rfl, .inl rfl⟩))

/-- A turn leaves alone the registrations of other descriptors. -/
theorem mem_interest_advance {h : SocketHandler S} {t : Turn S} {u : S}
    (ht : t.socket? = some u) {r : Registration S} (hr : r ∈ h.epoll.interest)
    (hfd : r.fd ≠ h.sockfd u) : r ∈ (h.advance t).epoll.interest := by
  have hdetach : r ∈ (h.detach u).epoll.interest := EventPoller.mem_interest_del.mpr ⟨hr, hfd⟩
  have hclose : ∀ h' : SocketHandler S, h'.sockfd = h.sockfd → r ∈ h'.epoll.interest →
      r ∈ (h'.remove u).epoll.interest := by
    intro h' hsame hmem
    rw [remove_eq, delete_epoll, mem_interest_close, hsame]
    exact ⟨hmem, fun _ => hfd⟩
  rcases advance_calm h ht with heq | heq | ⟨-, heq⟩ | ⟨-, heq | heq⟩ <;> rw [heq]
  · exact EventPoller.mem_interest_add_of_mem hr _ _ _
  · exact EventPoller.mem_interest_add_of_mem hr _ _ _
  · exact hdetach
  · exact hclose h rfl hr
  · exact hclose (h.detach u) rfl hdetach

/-- What a turn registers is its own socket. -/
theorem mem_interest_of_advance {h : SocketHandler S} {t : Turn S} {u : S}
    (ht : t.socket? = some u) {r : Registration S} (hr : r ∈ (h.advance t).epoll.interest) :
    r ∈ h.epoll.interest ∨ r.ptr = u := by
  have hadd : ∀ admits, r ∈ (h.attach u admits).epoll.interest →
      r ∈ h.epoll.interest ∨ r.ptr = u := by
    intro admits hmem
    rcases EventPoller.mem_interest_add hmem with hmem | rfl
    · exact .inl hmem
    · exact .inr rfl
  have hclose : ∀ h' : SocketHandler S, r ∈ (h'.remove u).epoll.interest →
      r ∈ h'.epoll.interest := by
    intro h' hmem
    rw [remove_eq, delete_epoll, mem_interest_close] at hmem
    exact hmem.1
  rcases advance_calm h ht with heq | heq | ⟨-, heq⟩ | ⟨-, heq | heq⟩ <;> rw [heq] at hr
  · exact hadd true hr
  · exact hadd false hr
  · exact .inl (EventPoller.mem_interest_del.mp hr).1
  · exact .inl (hclose h hr)
  · exact .inl (EventPoller.mem_interest_del.mp (hclose (h.detach u) hr)).1

/-- Only a turn that gives its socket back changes a descriptor, and its own one. -/
theorem sockfd_advance {h : SocketHandler S} {t : Turn S} {u v : S} (ht : t.socket? = some u)
    (hv : v ≠ u ∨ t.frees = false) : (h.advance t).sockfd v = h.sockfd v := by
  have hclose : ∀ h' : SocketHandler S, t.frees = true → (h'.remove u).sockfd v = h'.sockfd v := by
    intro h' hfrees
    rw [remove_eq, delete_sockfd]
    exact close_sockfd_of_ne h' (hv.resolve_right (by simp [hfrees]))
  rcases advance_calm h ht with heq | heq | ⟨-, heq⟩ | ⟨hfrees, heq | heq⟩ <;> rw [heq]
  · rfl
  · rfl
  · rfl
  · exact hclose h hfrees
  · exact hclose (h.detach u) hfrees

/-- A registration of a descriptor that the turns are not about is there afterwards. -/
theorem kept_registration {turns : List (Turn S)} (hcalm : Calm turns) (hgone : GoneAfter turns)
    {h : SocketHandler S} {r : Registration S} (hr : r ∈ h.epoll.interest)
    (hfd : ∀ t ∈ turns, ∀ u, t.socket? = some u → u ≠ r.ptr ∧ h.sockfd u ≠ r.fd) :
    r ∈ (turns.foldl advance h).epoll.interest ∧
      (turns.foldl advance h).sockfd r.ptr = h.sockfd r.ptr := by
  induction turns generalizing h with
  | nil => exact ⟨hr, rfl⟩
  | cons t turns ih =>
    obtain ⟨hfirst, hgone⟩ := List.pairwise_cons.mp hgone
    obtain ⟨u, hu⟩ := Turn.exists_socket (hcalm t (by simp))
    obtain ⟨hptr, hne⟩ := hfd t (by simp) u hu
    have hstep := ih (fun v hv => hcalm v (List.mem_cons_of_mem _ hv)) hgone
      (mem_interest_advance hu hr hne.symm) ?_
    · rwa [sockfd_advance hu (.inl hptr.symm)] at hstep
    intro v hv w hw
    obtain ⟨hptr', hne'⟩ := hfd v (List.mem_cons_of_mem _ hv) w hw
    refine ⟨hptr', ?_⟩
    rw [sockfd_advance hu]
    · exact hne'
    · by_cases hwu : w = u
      · refine .inr (by_contra fun hfrees => ?_)
        exact hfirst v hv (by simpa using hfrees) (by rw [hw, hu, hwu])
      · exact .inl hwu

/-- Turns about other sockets do not register a slot. -/
theorem still_unregistered {turns : List (Turn S)} (hcalm : Calm turns) {h : SocketHandler S}
    {s : S} (hs : ∀ r ∈ h.epoll.interest, r.ptr ≠ s) (hother : ∀ t ∈ turns, t.socket? ≠ some s) :
    ∀ r ∈ (turns.foldl advance h).epoll.interest, r.ptr ≠ s := by
  induction turns generalizing h with
  | nil => exact hs
  | cons t turns ih =>
    obtain ⟨u, hu⟩ := Turn.exists_socket (hcalm t (by simp))
    apply ih (fun v hv => hcalm v (List.mem_cons_of_mem _ hv))
    · intro r hr
      rcases mem_interest_of_advance hu hr with hr | rfl
      · exact hs r hr
      · intro heq
        exact hother t (by simp) (by rw [hu, heq])
    · exact fun v hv => hother v (List.mem_cons_of_mem _ hv)

/-! ## The batch as a whole -/

/-- What the kernel answers when the loop comes to the listening socket. -/
structure Answers where
  accept : ℤ
  admits : Bool

/-- The events of one `epoll_wait` in order, with the closing calls of tasks in between:
the turns in front of the listening socket, what the kernel answers if the listening socket
is in the batch, and the turns behind it. The other fields say what the kernel and the
ownership of sockets promise: where the listening socket comes, the sockets that are
registered or have turns to come are in use and `accept` returns a descriptor that is not
open, no client is reported twice, and a socket that is given back has no turn after it. -/
structure Batch (S : Type) [DecidableEq S] where
  handler : SocketHandler S
  front : List (Turn S)
  listening : Option Answers
  back : List (Turn S)
  front_calm : Calm front
  back_calm : Calm back
  once : (clients (front ++ back)).Nodup
  gone : GoneAfter back
  registered : ∀ r ∈ (front.foldl advance handler).epoll.interest,
    r.fd ∈ (front.foldl advance handler).opened ∧ r.ptr ∉ (front.foldl advance handler).pool.idle
  coming : ∀ t ∈ back, ∀ s, t.socket? = some s → InUse (front.foldl advance handler) s
  fresh : ∀ a ∈ listening, a.accept ∉ (front.foldl advance handler).opened

namespace Batch

/-- The state in which the loop comes to the listening socket. -/
def before (b : Batch S) : SocketHandler S := b.front.foldl advance b.handler

/-- The clients whose events are in the batch. -/
def clients (b : Batch S) : List S := SocketHandler.clients (b.front ++ b.back)

/-- `handle` on the batch. -/
def outcome (b : Batch S) : Outcome S :=
  match b.listening with
  | none => handle 0 true b.handler (b.front ++ b.back)
  | some a => handle a.accept a.admits b.handler (b.front ++ .event .listening :: b.back)

/-- There is nothing to accept, or `accept`, `Allocate` and `epoll_ctl` all succeed, or
`accept` fails at the limit of the pool with no event behind. -/
def Smooth (b : Batch S) : Prop :=
  ∀ a ∈ b.listening,
    match b.before.pool.allocate with
    | .null => a.accept < 0 ∧ SocketHandler.clients b.back = []
    | .stuck => False
    | .slot _ _ => 0 ≤ a.accept ∧ a.admits = true

end Batch

/-- What a batch has to leave behind for these clients. -/
structure Outcome.LosesNothing (o : Outcome S) (clients : List S) : Prop where
  returns : o.returns = true
  clients : ∀ s ∈ clients,
    Action.detached s ∈ o.log ∧ (Action.queued s ∈ o.log ∨ Action.removed s ∈ o.log)
  descriptors : ∀ fd, 0 ≤ fd → Action.accepted fd ∈ o.log →
    (∃ r ∈ o.handler.epoll.interest, r.fd = fd ∧ o.handler.sockfd r.ptr = fd) ∨
      fd ∉ o.handler.opened
  sockets : ∀ s, Action.allocated s ∈ o.log → ∃ r ∈ o.handler.epoll.interest, r.ptr = s

namespace Batch

theorem outcome_none {b : Batch S} (h : b.listening = none) :
    b.outcome = ⟨(b.front ++ b.back).foldl advance b.handler,
      (b.front ++ b.back).flatMap Turn.log, true⟩ := by
  rw [outcome, h]
  apply handle_calm
  intro t ht
  rcases List.mem_append.mp ht with ht | ht
  · exact b.front_calm t ht
  · exact b.back_calm t ht

theorem outcome_some {b : Batch S} {a : Answers} (h : b.listening = some a) :
    b.outcome = (handle a.accept a.admits b.before (.event .listening :: b.back)).after
      (b.front.flatMap Turn.log) := by
  rw [outcome, h]
  exact handle_append_calm a.accept a.admits b.handler b.front_calm _

theorem losesNothing_none {b : Batch S} (h : b.listening = none) :
    b.outcome.LosesNothing b.clients := by
  rw [outcome_none h]
  refine ⟨rfl, fun s hs => passed_on (List.Subset.refl _) hs, ?_, ?_⟩
  · exact fun fd _ hfd => absurd rfl ((of_mem_log hfd).1 fd)
  · exact fun s hs => absurd rfl ((of_mem_log hs).2.1 s)

theorem outcome_null {b : Batch S} {a : Answers} (h : b.listening = some a)
    (halloc : b.before.pool.allocate = .null) :
    b.outcome = ⟨b.before.accepted a.accept,
      b.front.flatMap Turn.log ++ [.accepted (Socket.accept a.accept)], true⟩ := by
  rw [outcome_some h, handle]
  simp only [accepted_pool, halloc]
  rfl

theorem outcome_stuck {b : Batch S} {a : Answers} (h : b.listening = some a)
    (halloc : b.before.pool.allocate = .stuck) : b.outcome.returns = false := by
  rw [outcome_some h, handle]
  simp only [accepted_pool, halloc]
  rfl

/-- The state in which the loop goes on behind the listening socket when it got a slot. -/
def connected (b : Batch S) (a : Answers) (s : S) (pool : ObjectPool S) : SocketHandler S :=
  (((b.before.accepted a.accept).construct s pool (Socket.accept a.accept)).attach s a.admits)

theorem outcome_slot {b : Batch S} {a : Answers} (h : b.listening = some a) {s : S}
    {pool : ObjectPool S} (halloc : b.before.pool.allocate = .slot s pool) :
    b.outcome = ⟨b.back.foldl advance (b.connected a s pool), b.front.flatMap Turn.log ++
      (.accepted (Socket.accept a.accept) :: .allocated s :: b.back.flatMap Turn.log), true⟩ := by
  rw [outcome_some h, handle]
  simp only [accepted_pool, halloc, handle_calm a.accept a.admits _ b.back_calm]
  rfl

/-- At the limit of the pool `handle` leaves the batch: this is right for a failed `accept`
at the end of the events. -/
theorem losesNothing_null {b : Batch S} {a : Answers} (h : b.listening = some a)
    (halloc : b.before.pool.allocate = .null) :
    b.outcome.LosesNothing b.clients ↔ a.accept < 0 ∧ SocketHandler.clients b.back = [] := by
  rw [outcome_null h halloc]
  constructor
  · intro hkept
    constructor
    · by_contra hneg
      have haccept : Socket.accept a.accept = a.accept := if_neg hneg
      have hdescriptor := hkept.descriptors a.accept (by omega) (by simp [haccept])
      rcases hdescriptor with ⟨r, hr, hfd, -⟩ | hclosed
      · rw [accepted_epoll] at hr
        exact b.fresh a h (hfd ▸ (b.registered r hr).1)
      · simp [accepted, hneg] at hclosed
    · apply List.eq_nil_iff_forall_not_mem.mpr
      intro s hs
      have hall : s ∈ b.clients := by
        rw [clients, clients_append]
        exact List.mem_append_right _ hs
      have hdetached := (hkept.clients s hall).1
      have hfront : s ∈ SocketHandler.clients b.front := by
        rcases List.mem_append.mp hdetached with hlog | hlog
        · exact (of_mem_log hlog).2.2 s rfl
        · simp at hlog
      have honce := b.once
      rw [clients_append] at honce
      exact List.disjoint_of_nodup_append honce hfront hs
  · rintro ⟨hneg, hback⟩
    have haccept : Socket.accept a.accept = -1 := if_pos hneg
    refine ⟨rfl, ?_, ?_, ?_⟩
    · intro s hs
      rw [clients, clients_append, hback, List.append_nil] at hs
      exact passed_on (List.subset_append_left _ _) hs
    · intro fd hfd hmem
      rcases List.mem_append.mp hmem with hmem | hmem
      · exact absurd rfl ((of_mem_log hmem).1 fd)
      · simp only [List.mem_singleton, Action.accepted.injEq, haccept] at hmem
        omega
    · intro s hmem
      rcases List.mem_append.mp hmem with hmem | hmem
      · exact absurd rfl ((of_mem_log hmem).2.1 s)
      · simp at hmem

/-- The slot that `Allocate` gives is none that is registered or has a turn to come. -/
theorem slot_apart {b : Batch S} {s : S} {pool : ObjectPool S}
    (halloc : b.before.pool.allocate = .slot s pool) :
    (∀ r ∈ b.before.epoll.interest, r.ptr ≠ s) ∧ ∀ t ∈ b.back, t.socket? ≠ some s := by
  have hidle : s ∈ b.before.pool.idle := by simp [ObjectPool.allocate_slot halloc]
  constructor
  · rintro r hr rfl
    exact (b.registered r hr).2 hidle
  · intro t ht hs
    exact (b.coming t ht s hs).1 hidle

theorem epoll_connected (b : Batch S) (a : Answers) (s : S) (pool : ObjectPool S) :
    (b.connected a s pool).epoll =
      b.before.epoll.add (Socket.accept a.accept) s a.admits := by
  simp [connected, construct]

/-- A failed `accept` and a refused registration leave the slot without one. -/
theorem not_losesNothing_slot {b : Batch S} {a : Answers} (h : b.listening = some a) {s : S}
    {pool : ObjectPool S} (halloc : b.before.pool.allocate = .slot s pool)
    (hrefused : ¬ (0 ≤ a.accept ∧ a.admits = true)) : ¬ b.outcome.LosesNothing b.clients := by
  intro hkept
  rw [outcome_slot h halloc] at hkept
  obtain ⟨hunregistered, hother⟩ := slot_apart halloc
  have hepoll : (b.connected a s pool).epoll = b.before.epoll := by
    rw [epoll_connected, EventPoller.add, if_neg]
    rintro ⟨hfd, hadmits, -⟩
    refine hrefused ⟨?_, hadmits⟩
    by_contra hneg
    rw [Socket.accept, if_pos (by omega)] at hfd
    omega
  obtain ⟨r, hr, hptr⟩ := hkept.sockets s (by simp)
  exact still_unregistered b.back_calm (by rwa [hepoll]) hother r hr hptr

/-- A connection for which there is a slot, and which epoll takes, is registered when the
batch is done. -/
theorem connection_kept {b : Batch S} {a : Answers} (h : b.listening = some a) {s : S}
    {pool : ObjectPool S} (halloc : b.before.pool.allocate = .slot s pool)
    (hfd : 0 ≤ a.accept) (hadmits : a.admits = true) :
    (⟨a.accept, s, true⟩ : Registration S) ∈
        (b.back.foldl advance (b.connected a s pool)).epoll.interest ∧
      (b.back.foldl advance (b.connected a s pool)).sockfd s = a.accept := by
  obtain ⟨-, hother⟩ := slot_apart halloc
  have haccept : Socket.accept a.accept = a.accept := if_neg (by omega)
  have hsockfd : ∀ u, u ≠ s → (b.connected a s pool).sockfd u = b.before.sockfd u := by
    intro u hu
    simp [connected, construct, hu]
  have hown : (b.connected a s pool).sockfd s = a.accept := by
    simp [connected, construct, haccept]
  have hnew : (⟨a.accept, s, true⟩ : Registration S) ∈ (b.connected a s pool).epoll.interest := by
    rw [epoll_connected, EventPoller.add, if_pos, haccept]
    · exact List.mem_cons_self
    · refine ⟨by omega, hadmits, ?_⟩
      intro r hr heq
      rw [haccept] at heq
      exact b.fresh a h (heq ▸ (b.registered r hr).1)
  have hapart : ∀ t ∈ b.back, ∀ u, t.socket? = some u →
      u ≠ s ∧ (b.connected a s pool).sockfd u ≠ a.accept := by
    intro t ht u hu
    have hne : u ≠ s := by
      rintro rfl
      exact hother t ht hu
    refine ⟨hne, ?_⟩
    rw [hsockfd u hne]
    intro heq
    have hopen := (b.coming t ht u hu).2
    rw [show (b.front.foldl advance b.handler).sockfd u = a.accept from heq] at hopen
    exact b.fresh a h hopen
  obtain ⟨hkept, hsame⟩ := kept_registration b.back_calm b.gone hnew hapart
  exact ⟨hkept, hsame.trans hown⟩

theorem losesNothing_slot {b : Batch S} {a : Answers} (h : b.listening = some a) {s : S}
    {pool : ObjectPool S} (halloc : b.before.pool.allocate = .slot s pool)
    (hfd : 0 ≤ a.accept) (hadmits : a.admits = true) : b.outcome.LosesNothing b.clients := by
  obtain ⟨hkept, hown⟩ := connection_kept h halloc hfd hadmits
  have haccept : Socket.accept a.accept = a.accept := if_neg (by omega)
  rw [outcome_slot h halloc, haccept]
  refine ⟨rfl, ?_, ?_, ?_⟩
  · intro u hu
    apply passed_on _ hu
    rw [List.flatMap_append]
    exact List.append_subset.mpr ⟨List.subset_append_left _ _, fun v hv => by simp [hv]⟩
  · intro fd _ hmem
    simp only [List.mem_append, List.mem_cons, Action.accepted.injEq, reduceCtorEq,
      false_or] at hmem
    rcases hmem with hmem | rfl | hmem
    · exact absurd rfl ((of_mem_log hmem).1 fd)
    · exact .inl ⟨_, hkept, rfl, hown⟩
    · exact absurd rfl ((of_mem_log hmem).1 fd)
  · intro u hmem
    simp only [List.mem_append, List.mem_cons, Action.allocated.injEq, reduceCtorEq,
      false_or] at hmem
    rcases hmem with hmem | rfl | hmem
    · exact absurd rfl ((of_mem_log hmem).2.1 u)
    · exact ⟨_, hkept, rfl⟩
    · exact absurd rfl ((of_mem_log hmem).2.1 u)

/-- The event loop loses no event and no descriptor of a batch exactly when the batch is
smooth. -/
theorem losesNothing_iff (b : Batch S) : b.outcome.LosesNothing b.clients ↔ b.Smooth := by
  cases h : b.listening with
  | none => simp [Smooth, h, losesNothing_none h]
  | some a =>
    simp only [Smooth, h, Option.mem_some_iff, forall_eq']
    split
    · next halloc => exact losesNothing_null h halloc
    · next halloc =>
      have hstuck := outcome_stuck h halloc
      simp only [iff_false]
      intro hkept
      rw [hkept.returns] at hstuck
      cases hstuck
    · next s pool halloc =>
      constructor
      · intro hkept
        by_contra hrefused
        exact not_losesNothing_slot h halloc hrefused hkept
      · rintro ⟨hfd, hadmits⟩
        exact losesNothing_slot h halloc hfd hadmits

/-- The pool is at its limit of one connection when a second one comes in together with a
request on the first. -/
def crowded : Batch ℕ where
  handler := {
    pool := ⟨[1], 1, 1⟩
    sockfd := fun s => if s = 0 then 5 else 0
    epoll := ⟨[⟨5, 0, false⟩]⟩
    opened := [5] }
  front := []
  listening := some ⟨6, true⟩
  back := [.event (.client 0 ⟨false, false, true, rfl⟩)]
  front_calm := by decide
  back_calm := by decide
  once := by decide
  gone := by decide
  registered := by decide
  coming := by
    simp only [List.mem_singleton, forall_eq, Turn.socket?, Event.socket?_client,
      Option.some.injEq, forall_eq']
    decide
  fresh := by decide

theorem crowded_losesEvent : ¬ crowded.outcome.LosesNothing crowded.clients := by
  intro h
  have hdetached : Action.detached 0 ∈ crowded.outcome.log := (h.clients 0 (by decide)).1
  revert hdetached
  decide

end Batch

end SocketHandler
end Calabash
