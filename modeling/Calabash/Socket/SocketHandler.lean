import Mathlib.Logic.Function.Basic
import Calabash.Socket.EventPoller
import Calabash.Util.ObjectPool

/-!
# `SocketHandler`

What the event loop and the tasks do to a client socket, and `handle` on the events of one
`epoll_wait`.
-/

namespace Calabash

/-- The object pool, `m_sockfd` of every slot, the interest list, and the descriptors that
the process has open. -/
structure SocketHandler (S : Type) where
  pool : ObjectPool S
  sockfd : S → ℤ
  epoll : EventPoller S
  opened : List ℤ

/-- `Socket::accept`, for the answer of `::accept`. -/
def Socket.accept (answer : ℤ) : ℤ := if answer < 0 then -1 else answer

namespace SocketHandler
variable {S : Type}

def attach (h : SocketHandler S) (s : S) (admits : Bool) : SocketHandler S :=
  { h with epoll := h.epoll.add (h.sockfd s) s admits }

def detach (h : SocketHandler S) (s : S) : SocketHandler S :=
  { h with epoll := h.epoll.del (h.sockfd s) }

/-- The kernel answers `::accept`: what is not negative is a descriptor now open. -/
def accepted (h : SocketHandler S) (answer : ℤ) : SocketHandler S :=
  if answer < 0 then h else { h with opened := answer :: h.opened }

@[simp] theorem accepted_pool (h : SocketHandler S) (answer : ℤ) :
    (h.accepted answer).pool = h.pool := by
  rw [accepted]
  split <;> rfl
@[simp] theorem accepted_epoll (h : SocketHandler S) (answer : ℤ) :
    (h.accepted answer).epoll = h.epoll := by
  rw [accepted]
  split <;> rfl
@[simp] theorem accepted_sockfd (h : SocketHandler S) (answer : ℤ) :
    (h.accepted answer).sockfd = h.sockfd := by
  rw [accepted]
  split <;> rfl

@[simp] theorem attach_pool (h : SocketHandler S) (s : S) (admits : Bool) :
    (h.attach s admits).pool = h.pool := rfl
@[simp] theorem attach_sockfd (h : SocketHandler S) (s : S) (admits : Bool) :
    (h.attach s admits).sockfd = h.sockfd := rfl
@[simp] theorem attach_opened (h : SocketHandler S) (s : S) (admits : Bool) :
    (h.attach s admits).opened = h.opened := rfl
@[simp] theorem attach_epoll (h : SocketHandler S) (s : S) (admits : Bool) :
    (h.attach s admits).epoll = h.epoll.add (h.sockfd s) s admits := rfl

@[simp] theorem detach_pool (h : SocketHandler S) (s : S) : (h.detach s).pool = h.pool := rfl
@[simp] theorem detach_sockfd (h : SocketHandler S) (s : S) : (h.detach s).sockfd = h.sockfd := rfl
@[simp] theorem detach_opened (h : SocketHandler S) (s : S) : (h.detach s).opened = h.opened := rfl
@[simp] theorem detach_epoll (h : SocketHandler S) (s : S) :
    (h.detach s).epoll = h.epoll.del (h.sockfd s) := rfl

variable [DecidableEq S]

open Function (update)

/-- `Socket::close`; the kernel drops the registration of a descriptor that is closed. -/
def close (h : SocketHandler S) (s : S) : SocketHandler S :=
  if 0 < h.sockfd s then
    { h with
      epoll := h.epoll.del (h.sockfd s)
      opened := h.opened.filter (· ≠ h.sockfd s)
      sockfd := update h.sockfd s 0 }
  else h

/-- `ObjectPool::Delete`; the destructor of `Socket` closes it. -/
def delete (h : SocketHandler S) (s : S) : SocketHandler S :=
  { h.close s with pool := h.pool.delete s }

def remove (h : SocketHandler S) (s : S) : SocketHandler S := (h.close s).delete s

/-- A `Socket` constructed in a slot that `Allocate` gave, and `m_sockfd` set to `fd`. -/
def construct (h : SocketHandler S) (s : S) (pool : ObjectPool S) (fd : ℤ) : SocketHandler S :=
  { h with pool := pool, sockfd := update h.sockfd s fd }

@[simp] theorem close_pool (h : SocketHandler S) (s : S) : (h.close s).pool = h.pool := by
  rw [close]
  split <;> rfl

theorem close_sockfd (h : SocketHandler S) (s : S) :
    (h.close s).sockfd = update h.sockfd s (if 0 < h.sockfd s then 0 else h.sockfd s) := by
  rw [close]
  split <;> simp

theorem close_sockfd_of_ne (h : SocketHandler S) {s u : S} (hne : u ≠ s) :
    (h.close s).sockfd u = h.sockfd u := by
  rw [close_sockfd, Function.update_of_ne hne]

theorem mem_interest_close {h : SocketHandler S} {s : S} {r : Registration S} :
    r ∈ (h.close s).epoll.interest ↔
      r ∈ h.epoll.interest ∧ (0 < h.sockfd s → r.fd ≠ h.sockfd s) := by
  rw [close]
  split
  · next hpos => simp [EventPoller.mem_interest_del, hpos]
  · next hpos => simp [hpos]

/-- A socket that is closed is not closed again. -/
theorem close_close (h : SocketHandler S) (s : S) : (h.close s).close s = h.close s := by
  have hfd : ¬ 0 < (h.close s).sockfd s := by
    rw [close_sockfd]
    simp only [Function.update_self]
    split <;> omega
  rw [close, if_neg hfd]

theorem delete_close (h : SocketHandler S) (s : S) : (h.close s).delete s = h.delete s := by
  rw [delete, delete, close_close, close_pool]

theorem remove_eq (h : SocketHandler S) (s : S) : h.remove s = h.delete s := delete_close h s

@[simp] theorem delete_pool (h : SocketHandler S) (s : S) :
    (h.delete s).pool = h.pool.delete s := rfl
@[simp] theorem delete_epoll (h : SocketHandler S) (s : S) :
    (h.delete s).epoll = (h.close s).epoll := rfl
@[simp] theorem delete_sockfd (h : SocketHandler S) (s : S) :
    (h.delete s).sockfd = (h.close s).sockfd := rfl
@[simp] theorem delete_opened (h : SocketHandler S) (s : S) :
    (h.delete s).opened = (h.close s).opened := rfl

/-! ## The events of one `epoll_wait` -/

/-- What happens next while the loop goes through a batch: it comes to an event, or a task
makes its closing call. -/
inductive Turn (S : Type)
  | event (e : Event S)
  | attached (s : S) (admits : Bool)
  | removed (s : S)
  deriving DecidableEq

/-- What the loop does. -/
inductive Action (S : Type)
  | accepted (fd : ℤ)
  | allocated (s : S)
  | detached (s : S)
  | removed (s : S)
  | queued (s : S)
  deriving DecidableEq, Repr

/-- Where a batch ends: the state, what the loop did, and whether it goes on to its next
`wait`. -/
structure Outcome (S : Type) where
  handler : SocketHandler S
  log : List (Action S)
  returns : Bool

def Outcome.after (o : Outcome S) (log : List (Action S)) : Outcome S :=
  { o with log := log ++ o.log }

/-- What the loop does with the event of a client. -/
def serve (h : SocketHandler S) (s : S) (ready : Ready) : SocketHandler S × List (Action S) :=
  if ready.hup then ((h.detach s).remove s, [.detached s, .removed s])
  else if ready.err then ((h.detach s).remove s, [.detached s, .removed s])
  else if ready.input then (h.detach s, [.detached s, .queued s])
  else (h, [])

/-- The loop over `m_events`, with the answers of the kernel to `::accept` and to the
`epoll_ctl` behind it. -/
def handle (answer : ℤ) (admits : Bool) : SocketHandler S → List (Turn S) → Outcome S
  | h, [] => ⟨h, [], true⟩
  | h, .event .listening :: turns =>
    let fd := Socket.accept answer
    let h := h.accepted answer
    match h.pool.allocate with
    -- `break`: the events behind are not looked at
    | .null => ⟨h, [.accepted fd], true⟩
    | .stuck => ⟨h, [.accepted fd], false⟩
    | .slot s pool =>
      (handle answer admits ((h.construct s pool fd).attach s admits) turns).after
        [.accepted fd, .allocated s]
  | h, .event (.client s ready) :: turns =>
    (handle answer admits (h.serve s ready).1 turns).after (h.serve s ready).2
  | h, .attached s room :: turns => handle answer admits (h.attach s room) turns
  | h, .removed s :: turns => handle answer admits (h.remove s) turns

end SocketHandler

end Calabash
