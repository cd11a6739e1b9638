import Mathlib.Data.Int.Notation
import Mathlib.Data.List.Nodup

/-!
# `EventPoller`

The interest list of an epoll instance: a registration for each descriptor, with the
pointer that comes back in its events. A client's registration is one-shot: once reported,
it is disarmed, and reports nothing more until it is deleted and added again. The
registration of the listening socket is neither one-shot nor ever deleted before `stop`,
and is not kept here.
-/

namespace Calabash

structure Registration (S : Type) where
  fd : ℤ
  ptr : S
  armed : Bool
  deriving DecidableEq, Repr

def Registration.disarm {S : Type} (r : Registration S) : Registration S :=
  { r with armed := false }

/-- The events of a report: `EPOLLHUP`, `EPOLLERR` and `EPOLLIN`, one of them at least. -/
structure Ready where
  hup : Bool
  err : Bool
  input : Bool
  reported : (hup || err || input) = true
  deriving DecidableEq

/-- An element of `m_events`. -/
inductive Event (S : Type)
  | listening
  | client (socket : S) (ready : Ready)
  deriving DecidableEq

namespace Event
variable {S : Type}

/-- The client that the event is about. -/
def socket? : Event S → Option S
  | .listening => none
  | .client s _ => some s

@[simp] theorem socket?_listening : (listening : Event S).socket? = none := rfl
@[simp] theorem socket?_client (s : S) (ready : Ready) : (client s ready).socket? = some s := rfl

end Event

structure EventPoller (S : Type) where
  interest : List (Registration S)
  deriving Repr

namespace EventPoller
variable {S : Type}

/-- `epoll_ctl` refuses what is no descriptor (`EBADF`) and what is registered (`EEXIST`);
`admits` is whether it can add anything at all (`ENOMEM`, `ENOSPC`). `ctrl` looks at none
of its answers. -/
def add (e : EventPoller S) (fd : ℤ) (ptr : S) (admits : Bool) : EventPoller S :=
  if 0 ≤ fd ∧ admits = true ∧ ∀ r ∈ e.interest, r.fd ≠ fd then ⟨⟨fd, ptr, true⟩ :: e.interest⟩
  else e

/-- `epoll_ctl` with `EPOLL_CTL_DEL`, and what the kernel does when `fd` is closed. -/
def del (e : EventPoller S) (fd : ℤ) : EventPoller S := ⟨e.interest.filter (·.fd ≠ fd)⟩

/-- What is left of the interest list when these registrations have been reported. -/
def report [DecidableEq S] (e : EventPoller S) (rs : List (Registration S)) : EventPoller S :=
  ⟨e.interest.map fun r => if r ∈ rs then r.disarm else r⟩

theorem mem_interest_del {e : EventPoller S} {fd : ℤ} {r : Registration S} :
    r ∈ (e.del fd).interest ↔ r ∈ e.interest ∧ r.fd ≠ fd := by simp [del]

theorem mem_interest_add {e : EventPoller S} {fd : ℤ} {ptr : S} {admits : Bool}
    {r : Registration S} (h : r ∈ (e.add fd ptr admits).interest) :
    r ∈ e.interest ∨ r = ⟨fd, ptr, true⟩ := by
  rw [add] at h
  split at h
  · rcases List.mem_cons.mp h with h | h
    · exact .inr h
    · exact .inl h
  · exact .inl h

theorem mem_interest_add_of_mem {e : EventPoller S} {r : Registration S} (h : r ∈ e.interest)
    (fd : ℤ) (ptr : S) (admits : Bool) : r ∈ (e.add fd ptr admits).interest := by
  rw [add]
  split
  · exact List.mem_cons_of_mem _ h
  · exact h

end EventPoller

end Calabash
