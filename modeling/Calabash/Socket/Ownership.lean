import Mathlib.Data.Multiset.AddSub
import Mathlib.Data.Multiset.Filter
import Mathlib.Data.Multiset.UnionInter
import Calabash.Socket.SocketHandler

/-!
# Who owns a socket

A slot that the pool has given out is in an epoll registration or in hand: with the event
loop, in the task queue or with a task. `Owns` says that no slot is in two places and none
that is in a place is idle, and what descriptors have to satisfy for this; each operation
of the handler has a rule that says how it moves its slot.
-/

namespace Calabash
namespace SocketHandler
variable {S : Type}

/-- The slots of the registrations. -/
def watched (h : SocketHandler S) : Multiset S := (h.epoll.interest.map (·.ptr) : List S)

/-- The ownership invariant, for the slots in hand, the slots whose events are still to be
processed, and a descriptor that has been accepted and is in no `Socket` yet. -/
structure Owns (h : SocketHandler S) (inHand : Multiset S) (pending : List S)
    (arriving : Option ℤ) : Prop where
  once : (h.watched + inHand).Nodup
  given : ∀ s ∈ h.watched + inHand, s ∉ h.pool.idle
  idle_once : h.pool.idle.Nodup
  fds : (h.epoll.interest.map (·.fd)).Nodup
  own : ∀ r ∈ h.epoll.interest, r.fd = h.sockfd r.ptr
  pending_once : pending.Nodup
  reported : ∀ s ∈ pending, ∃ r ∈ h.epoll.interest, r.ptr = s ∧ r.armed = false
  opened : ∀ s, s ∉ h.pool.idle → 0 < h.sockfd s → h.sockfd s ∈ h.opened
  distinct : ∀ s t, s ∉ h.pool.idle → t ∉ h.pool.idle → 0 < h.sockfd s →
    h.sockfd t = h.sockfd s → t = s
  arrived : ∀ fd ∈ arriving, 0 < fd →
    fd ∈ h.opened ∧ ∀ s, s ∉ h.pool.idle → h.sockfd s ≠ fd

/-- A list without two equal keys is, up to order, one of its elements and those with
other keys. -/
theorem perm_cons_filter {l : List (Registration S)} (hfds : (l.map (·.fd)).Nodup)
    {r : Registration S} (hr : r ∈ l) : l.Perm (r :: l.filter (·.fd ≠ r.fd)) := by
  induction l with
  | nil => cases hr
  | cons a l ih =>
    simp only [List.map_cons, List.nodup_cons] at hfds
    obtain ⟨hfirst, hfds⟩ := hfds
    rcases List.mem_cons.mp hr with rfl | hr
    · have hrest : l.filter (·.fd ≠ r.fd) = l := by
        apply List.filter_eq_self.mpr
        intro q hq
        have hne : q.fd ≠ r.fd := fun heq => hfirst (heq ▸ List.mem_map_of_mem hq)
        simpa using hne
      rw [List.filter_cons_of_neg (by simp), hrest]
    · have hne : a.fd ≠ r.fd := fun heq => hfirst (heq ▸ List.mem_map_of_mem hr)
      rw [List.filter_cons_of_pos (by simpa using hne)]
      exact ((ih hfds hr).cons a).trans (List.Perm.swap r a _)

namespace Owns
variable {h : SocketHandler S} {M M' : Multiset S} {P P' : List S} {A : Option ℤ} {s : S}

/-- Slots may be let go, events taken off the list, and a descriptor forgotten. -/
theorem mono (H : h.Owns M P A) (hM : M' ≤ M) (hP : P'.Sublist P) {A' : Option ℤ}
    (hA : ∀ fd ∈ A', fd ∈ A) : h.Owns M' P' A' where
  once := Multiset.nodup_of_le (Multiset.add_le_add_left hM) H.once
  given s hs := H.given s (Multiset.mem_of_le (Multiset.add_le_add_left hM) hs)
  idle_once := H.idle_once
  fds := H.fds
  own := H.own
  pending_once := H.pending_once.sublist hP
  reported s hs := H.reported s (hP.subset hs)
  opened := H.opened
  distinct := H.distinct
  arrived fd hfd := H.arrived fd (hA fd hfd)

theorem mem_watched {r : Registration S} (hr : r ∈ h.epoll.interest) : r.ptr ∈ h.watched :=
  Multiset.mem_coe.mpr (List.mem_map_of_mem hr)

theorem not_watched (H : h.Owns (s ::ₘ M) P A) {r : Registration S}
    (hr : r ∈ h.epoll.interest) : r.ptr ≠ s := by
  rintro rfl
  have hdisjoint := (Multiset.nodup_add.mp H.once).2.2
  exact Multiset.disjoint_left.mp hdisjoint (mem_watched hr) (Multiset.mem_cons_self _ _)

theorem in_use (H : h.Owns (s ::ₘ M) P A) : s ∉ h.pool.idle :=
  H.given s (Multiset.mem_add.mpr (.inr (Multiset.mem_cons_self _ _)))

/-- `attach` moves the slot from the hand to a registration, or loses it. -/
theorem attach (H : h.Owns (s ::ₘ M) P A) (admits : Bool) : (h.attach s admits).Owns M P A := by
  by_cases hadd : 0 ≤ h.sockfd s ∧ admits = true ∧ ∀ r ∈ h.epoll.interest, r.fd ≠ h.sockfd s
  · have hinterest : (h.attach s admits).epoll.interest =
        ⟨h.sockfd s, s, true⟩ :: h.epoll.interest := by
      rw [attach_epoll, EventPoller.add, if_pos hadd]
    have hwatched : (h.attach s admits).watched = s ::ₘ h.watched := by
      rw [watched, hinterest]
      rfl
    have hheld : (h.attach s admits).watched + M = h.watched + s ::ₘ M := by
      rw [hwatched, Multiset.cons_add, Multiset.add_cons]
    refine { H with once := ?_, given := ?_, fds := ?_, own := ?_, reported := ?_ }
    · rw [hheld]
      exact H.once
    · rw [hheld]
      exact H.given
    · rw [hinterest, List.map_cons, List.nodup_cons]
      refine ⟨fun hmem => ?_, H.fds⟩
      obtain ⟨r, hr, hfd⟩ := List.mem_map.mp hmem
      exact hadd.2.2 r hr hfd
    · rw [hinterest]
      intro r hr
      rcases List.mem_cons.mp hr with rfl | hr
      · rfl
      · exact H.own r hr
    · intro t ht
      obtain ⟨r, hr, hreported⟩ := H.reported t ht
      rw [hinterest]
      exact ⟨r, List.mem_cons_of_mem _ hr, hreported⟩
  · have hsame : h.attach s admits = h := by
      rw [SocketHandler.attach, EventPoller.add, if_neg hadd]
    rw [hsame]
    exact H.mono (Multiset.le_cons_self _ _) (List.Sublist.refl _) fun _ => id

/-- `detach` takes the slot of a pending event out of its registration. -/
theorem detach (H : h.Owns M (s :: P) A) : (h.detach s).Owns (s ::ₘ M) P A := by
  obtain ⟨r, hr, rfl, -⟩ := H.reported s (by simp)
  have hfd : r.fd = h.sockfd r.ptr := H.own r hr
  have hinterest : (h.detach r.ptr).epoll.interest = h.epoll.interest.filter (·.fd ≠ r.fd) := by
    rw [hfd]
    rfl
  have hperm : h.epoll.interest.Perm (r :: (h.detach r.ptr).epoll.interest) := by
    rw [hinterest]
    exact perm_cons_filter H.fds hr
  have hwatched : h.watched = r.ptr ::ₘ (h.detach r.ptr).watched :=
    Multiset.coe_eq_coe.mpr (hperm.map (·.ptr))
  have hheld : (h.detach r.ptr).watched + r.ptr ::ₘ M = h.watched + M := by
    rw [hwatched, Multiset.cons_add, Multiset.add_cons]
  have hsub : (h.detach r.ptr).epoll.interest.Sublist h.epoll.interest := by
    rw [hinterest]
    exact List.filter_sublist
  obtain ⟨hfirst, hpending⟩ := List.nodup_cons.mp H.pending_once
  refine { H with
    once := ?_
    given := ?_
    fds := H.fds.sublist (hsub.map _)
    own := fun q hq => H.own q (hsub.subset hq)
    pending_once := hpending
    reported := ?_ }
  · rw [hheld]
    exact H.once
  · rw [hheld]
    exact H.given
  · intro t ht
    obtain ⟨q, hq, rfl, harmed⟩ := H.reported t (List.mem_cons_of_mem _ ht)
    refine ⟨q, ?_, rfl, harmed⟩
    rcases List.mem_cons.mp (hperm.mem_iff.mp hq) with rfl | hq
    · exact absurd ht hfirst
    · exact hq

/-- An event loop that waits for events gets each from a registration of its own. -/
theorem report [DecidableEq S] (H : h.Owns M [] A) {rs : List (Registration S)}
    (hrs : ∀ r ∈ rs, r ∈ h.epoll.interest) (hnodup : rs.Nodup) :
    ({ h with epoll := h.epoll.report rs } : SocketHandler S).Owns M (rs.map (·.ptr)) A := by
  have hptr : ({ h with epoll := h.epoll.report rs } : SocketHandler S).watched = h.watched := by
    simp only [watched, EventPoller.report, List.map_map]
    congr 1
    apply List.map_congr_left
    intro r _
    simp only [Function.comp]
    split <;> rfl
  have hfd : (h.epoll.report rs).interest.map (·.fd) = h.epoll.interest.map (·.fd) := by
    simp only [EventPoller.report, List.map_map]
    apply List.map_congr_left
    intro r _
    simp only [Function.comp]
    split <;> rfl
  have hsocks : (h.epoll.interest.map (·.ptr)).Nodup :=
    Multiset.coe_nodup.mp (Multiset.nodup_add.mp H.once).1
  refine { H with once := ?_, given := ?_, fds := ?_, own := ?_, pending_once := ?_,
                  reported := ?_ }
  · rw [hptr]
    exact H.once
  · rw [hptr]
    exact H.given
  · rw [hfd]
    exact H.fds
  · intro q hq
    obtain ⟨r, hr, rfl⟩ := List.mem_map.mp hq
    split <;> exact H.own r hr
  · apply hnodup.map_on
    intro r hr q hq heq
    exact List.inj_on_of_nodup_map hsocks (hrs r hr) (hrs q hq) heq
  · intro t ht
    obtain ⟨r, hr, rfl⟩ := List.mem_map.mp ht
    refine ⟨r.disarm, List.mem_map.mpr ⟨r, hrs r hr, if_pos hr⟩, rfl, rfl⟩

/-- `accept` returns a descriptor that was not open. -/
theorem accepted (H : h.Owns M P A) {answer : ℤ} (hfresh : answer ∉ h.opened) :
    (h.accepted answer).Owns M P (some (Socket.accept answer)) := by
  by_cases hneg : answer < 0
  · have hsame : h.accepted answer = h := if_pos hneg
    rw [hsame]
    refine { H with arrived := ?_ }
    intro fd hfd hpos
    rw [Option.mem_some_iff, Socket.accept, if_pos hneg] at hfd
    omega
  · have hopened : (h.accepted answer) = { h with opened := answer :: h.opened } := if_neg hneg
    rw [hopened]
    refine { H with opened := ?_, arrived := ?_ }
    · exact fun t ht hpos => List.mem_cons_of_mem _ (H.opened t ht hpos)
    · intro fd hfd hpos
      rw [Option.mem_some_iff, Socket.accept, if_neg hneg] at hfd
      subst hfd
      refine ⟨List.mem_cons_self, fun t ht heq => ?_⟩
      have hfd : h.sockfd t = answer := heq
      exact hfresh (hfd ▸ H.opened t ht (hfd ▸ hpos))

variable [DecidableEq S]

/-- A slot that `Allocate` gives is in hand, with the descriptor that was waiting for it. -/
theorem construct {fd : ℤ} (H : h.Owns M P (some fd)) {pool : ObjectPool S}
    (halloc : h.pool.allocate = .slot s pool) :
    (h.construct s pool fd).Owns (s ::ₘ M) P none := by
  have hidle : h.pool.idle = s :: pool.idle := ObjectPool.allocate_slot halloc
  have hs : s ∈ h.pool.idle := by simp [hidle]
  obtain ⟨hfirst, hrest⟩ := List.nodup_cons.mp (hidle ▸ H.idle_once)
  have hother : ∀ t, t ≠ s → t ∉ pool.idle → t ∉ h.pool.idle := by
    intro t hne ht
    rw [hidle]
    simp [hne, ht]
  have hnotheld : ∀ t ∈ h.watched + M, t ≠ s := by
    rintro t ht rfl
    exact H.given t ht hs
  have hheld : (h.construct s pool fd).watched + s ::ₘ M = s ::ₘ (h.watched + M) :=
    Multiset.add_cons _ _ _
  have harrived := H.arrived fd rfl
  refine {
    once := ?_, given := ?_, idle_once := hrest, fds := H.fds, own := ?_,
    pending_once := H.pending_once, reported := H.reported, opened := ?_, distinct := ?_,
    arrived := nofun }
  · rw [hheld]
    exact Multiset.nodup_cons.mpr ⟨fun ht => hnotheld s ht rfl, H.once⟩
  · rw [hheld]
    intro t ht
    rcases Multiset.mem_cons.mp ht with rfl | ht
    · exact hfirst
    · have hidle' := H.given t ht
      rw [hidle] at hidle'
      exact fun hmem => hidle' (List.mem_cons_of_mem _ hmem)
  · intro r hr
    have hne : r.ptr ≠ s := hnotheld _ (Multiset.mem_add.mpr (.inl (mem_watched hr)))
    simp only [SocketHandler.construct, Function.update_of_ne hne]
    exact H.own r hr
  · intro t ht hpos
    by_cases hne : t = s
    · subst hne
      simp only [SocketHandler.construct, Function.update_self] at hpos ⊢
      exact (harrived hpos).1
    · simp only [SocketHandler.construct, Function.update_of_ne hne] at hpos ⊢
      exact H.opened t (hother t hne ht) hpos
  · intro t u ht hu hpos heq
    by_cases hts : t = s <;> by_cases hus : u = s
    · rw [hts, hus]
    · subst hts
      simp only [SocketHandler.construct, Function.update_self,
        Function.update_of_ne hus] at hpos heq
      exact absurd heq ((harrived hpos).2 u (hother u hus hu))
    · subst hus
      simp only [SocketHandler.construct, Function.update_self,
        Function.update_of_ne hts] at hpos heq
      exact absurd heq.symm ((harrived (heq ▸ hpos)).2 t (hother t hts ht))
    · simp only [SocketHandler.construct, Function.update_of_ne hts,
        Function.update_of_ne hus] at hpos heq
      exact H.distinct t u (hother t hts ht) (hother u hus hu) hpos heq

/-- The descriptor of a socket in hand is registered for no one. -/
theorem interest_close (H : h.Owns (s ::ₘ M) P A) :
    (h.close s).epoll.interest = h.epoll.interest := by
  rw [SocketHandler.close]
  split
  · next hpos =>
    apply List.filter_eq_self.mpr
    intro r hr
    have hne : r.fd ≠ h.sockfd s := by
      intro heq
      have hgiven := H.given r.ptr (Multiset.mem_add.mpr (.inl (mem_watched hr)))
      exact H.not_watched hr (H.distinct s r.ptr H.in_use hgiven hpos ((H.own r hr).symm.trans heq))
    simpa using hne
  · rfl

/-- `close` keeps the slot in hand. -/
theorem close (H : h.Owns (s ::ₘ M) P A) : (h.close s).Owns (s ::ₘ M) P A := by
  by_cases hpos : 0 < h.sockfd s
  · have hclosed : h.close s = { h with
        epoll := h.epoll.del (h.sockfd s)
        opened := h.opened.filter (· ≠ h.sockfd s)
        sockfd := Function.update h.sockfd s 0 } := if_pos hpos
    have hinterest := H.interest_close
    have hwatched : (h.close s).watched = h.watched := by rw [watched, hinterest, watched]
    have hsockfd : ∀ t, 0 < (h.close s).sockfd t → t ≠ s ∧ (h.close s).sockfd t = h.sockfd t := by
      intro t ht
      by_cases hne : t = s
      · subst hne
        simp [hclosed] at ht
      · exact ⟨hne, close_sockfd_of_ne h hne⟩
    have hopened : (h.close s).opened = h.opened.filter (· ≠ h.sockfd s) := by rw [hclosed]
    refine {
      once := ?_, given := ?_, idle_once := ?_, fds := ?_, own := ?_,
      pending_once := H.pending_once, reported := ?_, opened := ?_, distinct := ?_,
      arrived := ?_ }
    · rw [hwatched]
      exact H.once
    · rw [hwatched, close_pool]
      exact H.given
    · rw [close_pool]
      exact H.idle_once
    · rw [hinterest]
      exact H.fds
    · rw [hinterest]
      intro r hr
      rw [close_sockfd_of_ne h (H.not_watched hr)]
      exact H.own r hr
    · rw [hinterest]
      exact H.reported
    · intro t ht hfd
      rw [close_pool] at ht
      obtain ⟨hne, hsame⟩ := hsockfd t hfd
      rw [hsame] at hfd ⊢
      rw [hopened, List.mem_filter]
      refine ⟨H.opened t ht hfd, ?_⟩
      have hdistinct : h.sockfd t ≠ h.sockfd s :=
        fun heq => hne (H.distinct s t H.in_use ht hpos heq)
      simpa using hdistinct
    · intro t u ht hu hfd heq
      rw [close_pool] at ht hu
      obtain ⟨-, hsame⟩ := hsockfd t hfd
      obtain ⟨-, hsame'⟩ := hsockfd u (heq ▸ hfd)
      rw [hsame] at hfd heq
      rw [hsame'] at heq
      exact H.distinct t u ht hu hfd heq
    · intro fd hfd hfdpos
      obtain ⟨hopen, hfree⟩ := H.arrived fd hfd hfdpos
      rw [close_pool]
      constructor
      · rw [hopened, List.mem_filter]
        exact ⟨hopen, by simpa using (hfree s H.in_use).symm⟩
      · intro t ht heq
        have hsame := (hsockfd t (heq ▸ hfdpos)).2
        exact hfree t ht (hsame ▸ heq)
  · have hsame : h.close s = h := if_neg hpos
    rw [hsame]
    exact H

/-- `Delete` gives the slot back. -/
theorem delete (H : h.Owns (s ::ₘ M) P A) : (h.delete s).Owns M P A := by
  have Hc := H.close
  have hin : ∀ t, t ∉ (h.delete s).pool.idle → t ∉ (h.close s).pool.idle := by
    intro t ht
    simp only [delete_pool, ObjectPool.idle_delete, List.mem_cons, not_or] at ht
    rw [close_pool]
    exact ht.2
  have hle : (h.delete s).watched + M ≤ (h.close s).watched + s ::ₘ M :=
    Multiset.add_le_add_left (Multiset.le_cons_self _ _)
  have hs : s ∉ (h.delete s).watched + M := by
    have honce := Hc.once
    rw [Multiset.add_cons] at honce
    exact (Multiset.nodup_cons.mp honce).1
  exact {
    once := Multiset.nodup_of_le hle Hc.once
    given := by
      intro t ht
      simp only [delete_pool, ObjectPool.idle_delete, List.mem_cons, not_or]
      refine ⟨fun heq => hs (heq ▸ ht), ?_⟩
      have hgiven := Hc.given t (Multiset.mem_of_le hle ht)
      rwa [close_pool] at hgiven
    idle_once := List.nodup_cons.mpr ⟨H.in_use, H.idle_once⟩
    fds := Hc.fds
    own := Hc.own
    pending_once := Hc.pending_once
    reported := Hc.reported
    opened := fun t ht => Hc.opened t (hin t ht)
    distinct := fun t u ht hu => Hc.distinct t u (hin t ht) (hin u hu)
    arrived := fun fd hfd hpos => by
      obtain ⟨hopen, hfree⟩ := Hc.arrived fd hfd hpos
      exact ⟨hopen, fun t ht => hfree t (hin t ht)⟩ }

end Owns

end SocketHandler
end Calabash
