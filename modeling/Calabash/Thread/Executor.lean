import Calabash.Lib.Transition

/-!
# What a task queue is for

An executor accepts tasks, takes them out in the order in which they came, starts what it
took out, and is done with a task when the task ends. This is the purpose of the thread
pool, with no threads, no lock and no condition variable in it; `accounts` says that no
task is lost, reordered or run twice.
-/

namespace Calabash

/-- The tasks of an executor: waiting, taken out and not yet started, and running. -/
structure Executor (T : Type) where
  queue : List T
  inHand : Multiset T
  running : Multiset T

namespace Executor
variable {T : Type}

/-- What can happen to a task. -/
inductive Action (T : Type)
  | accept (t : T)
  | dequeue (t : T)
  | start (t : T)
  | finish (t : T)

namespace Action

/-- The task that the action accepts, if any; likewise for the others. -/
def accepts : Action T → List T
  | .accept t => [t]
  | _ => []

def dequeues : Action T → List T
  | .dequeue t => [t]
  | _ => []

def starts : Action T → List T
  | .start t => [t]
  | _ => []

def finishes : Action T → List T
  | .finish t => [t]
  | _ => []

end Action

inductive Step : Executor T → Action T → Executor T → Prop
  | accept (q : List T) (h r : Multiset T) (t : T) :
      Step ⟨q, h, r⟩ (.accept t) ⟨q ++ [t], h, r⟩
  | dequeue (q : List T) (h r : Multiset T) (t : T) :
      Step ⟨t :: q, h, r⟩ (.dequeue t) ⟨q, t ::ₘ h, r⟩
  | start (q : List T) (h r : Multiset T) (t : T) :
      Step ⟨q, t ::ₘ h, r⟩ (.start t) ⟨q, h, t ::ₘ r⟩
  | finish (q : List T) (h r : Multiset T) (t : T) :
      Step ⟨q, h, t ::ₘ r⟩ (.finish t) ⟨q, h, r⟩

/-- An executor starts with no tasks. -/
def system (T : Type) : System (Executor T) (Action T) where
  init s := s = ⟨[], 0, 0⟩
  step := Step

/-- What was accepted is what was taken out, in this order, and then what is queued;
what was taken out was started or is in hand; what was started is finished or runs. -/
structure Accounts (tr : List (Action T)) (s : Executor T) : Prop where
  order : tr.flatMap Action.accepts = tr.flatMap Action.dequeues ++ s.queue
  taken : (tr.flatMap Action.dequeues : Multiset T) = tr.flatMap Action.starts + s.inHand
  begun : (tr.flatMap Action.starts : Multiset T) = tr.flatMap Action.finishes + s.running

theorem order {tr : List (Action T)} {s : Executor T} (h : (system T).Trace tr s) :
    tr.flatMap Action.accepts = tr.flatMap Action.dequeues ++ s.queue := by
  refine h.invariant (P := fun tr s =>
    tr.flatMap Action.accepts = tr.flatMap Action.dequeues ++ s.queue) ?_ ?_
  · rintro s rfl
    rfl
  · intro tr s a t hs hstep
    cases hstep with
    | accept q h r t => simp [Action.accepts, Action.dequeues, hs]
    | dequeue q h r t => simp [Action.accepts, Action.dequeues, hs]
    | start q h r t => simpa [Action.accepts, Action.dequeues] using hs
    | finish q h r t => simpa [Action.accepts, Action.dequeues] using hs

theorem accounts {tr : List (Action T)} {s : Executor T} (h : (system T).Trace tr s) :
    Accounts tr s where
  order := order h
  taken := by
    refine h.balance Executor.inHand Action.dequeues Action.starts (by rintro s rfl; rfl) ?_
    intro s a t hstep
    cases hstep <;> simp [Action.dequeues, Action.starts, ← Multiset.singleton_add, add_comm]
  begun := by
    refine h.balance Executor.running Action.starts Action.finishes (by rintro s rfl; rfl) ?_
    intro s a t hstep
    cases hstep <;> simp [Action.starts, Action.finishes, ← Multiset.singleton_add, add_comm]

end Executor
end Calabash
