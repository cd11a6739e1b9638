import Mathlib.Algebra.BigOperators.Group.Finset.Piecewise
import Mathlib.Algebra.Order.BigOperators.Group.Finset
import Mathlib.Data.List.Enum

/-!
# Chains of handlers

A chain is a list of handlers with one cursor in front of the first that has not been
invoked. Every handler gets a `next` it may call any number of times; a call moves the
cursor over one handler and invokes it, wherever in the tree of nested calls it is made.
A handler is a strategy: what it does next depends on what it was invoked with and on how
its own calls of `next` have ended, so it may catch what they raise, or call for ever.

`call` runs a call down to a bounded depth and keeps a trace of what happened, also when
the depth was not enough. The results hold for every depth.

## Main results

* `call_mono` — a call that ends at one depth ends in the same way at a greater one.
* `call_state` — what each handler keeps of the state, a whole call keeps.
* `call_orderly` — the handlers invoked are those the cursor has passed, in order, and
  the cursor is as far as there were calls of `next`, or at the end.
* `exists_ended` — if each body ends after finitely many calls, the whole call ends.
-/

namespace Calabash
namespace Chain

/-- What the body of a handler does next. -/
inductive Move (σ : Type)
  | returns (s : σ)
  | raises (s : σ)
  /-- The body goes on for ever by itself. -/
  | hangs
  | next (s : σ)

/-- A handler: its next move, from the state it was invoked in and how its calls of
`next` have ended so far, with `true` for those that returned. -/
abbrev Handler (σ : Type) := σ → List (Bool × σ) → Move σ

/-- What a trace shows: a call of `next`, by the handler at a place or from outside, and
the invocation of a handler, with its place. -/
inductive Event (σ : Type)
  | next (caller : Option ℕ)
  | invoke (entry : Handler σ × ℕ)

/-- How a call stands. -/
inductive Status
  | returned
  | raised
  | hung
  /-- The depth did not suffice. -/
  | running
  deriving DecidableEq, Repr

/-- What the caller of `next` gets to know: whether it returned, once it has ended. -/
def Status.answer : Status → Option Bool
  | .returned => some true
  | .raised => some false
  | .hung | .running => none

variable {σ : Type}

/-- A call of `next`, or the rest of the body of the handler at a place. -/
inductive Call (σ : Type)
  | next (caller : Option ℕ)
  | body (place : ℕ) (handler : Handler σ) (entry : σ) (answers : List (Bool × σ))

/-- Who calls `next` on behalf of a call. -/
def Call.caller : Call σ → Option ℕ
  | .next caller => caller
  | .body place _ _ _ => some place

/-- The state of a run: the cursor, and how many calls were made past the end. -/
structure Run (σ : Type) where
  state : σ
  cursor : ℕ := 0
  beyond : ℕ := 0
  trace : List (Event σ) := []

namespace Run

/-- A call of `next` is noted. -/
def called (r : Run σ) (caller : Option ℕ) : Run σ := { r with trace := r.trace ++ [.next caller] }

/-- The cursor passes the handler it stands in front of. -/
def invoked (r : Run σ) (h : Handler σ) : Run σ :=
  { r with cursor := r.cursor + 1, trace := r.trace ++ [.invoke (h, r.cursor)] }

end Run

/-- Runs a call of depth up to `fuel`. The `k`-th call past the end of the chain returns
if `atEnd k`, and raises otherwise. -/
def call (handlers : List (Handler σ)) (atEnd : ℕ → Bool) :
    ℕ → Call σ → Run σ → Status × Run σ
  | 0, _, r => (.running, r)
  | fuel + 1, .next caller, r =>
    let r := r.called caller
    match handlers[r.cursor]? with
    | some h => call handlers atEnd fuel (.body r.cursor h r.state []) (r.invoked h)
    | none => (if atEnd r.beyond then .returned else .raised, { r with beyond := r.beyond + 1 })
  | fuel + 1, .body place h entry answers, r =>
    match h entry answers with
    | .returns s => (.returned, { r with state := s })
    | .raises s => (.raised, { r with state := s })
    | .hangs => (.hung, r)
    | .next s =>
      let (status, r) := call handlers atEnd fuel (.next (some place)) { r with state := s }
      match status.answer with
      | some ok => call handlers atEnd fuel (.body place h entry (answers ++ [(ok, r.state)])) r
      | none => (status, r)

/-- The handlers invoked, with their places. -/
def invocations (trace : List (Event σ)) : List (Handler σ × ℕ) :=
  trace.filterMap fun
    | .invoke entry => some entry
    | .next _ => none

/-- How many calls of `next` were made. -/
def calls (trace : List (Event σ)) : ℕ :=
  trace.countP fun
    | .next _ => true
    | .invoke _ => false

/-- The places of the handlers that called `next`, call by call. -/
def callers (trace : List (Event σ)) : List ℕ :=
  trace.filterMap fun
    | .next caller => caller
    | .invoke _ => none

@[simp] theorem invocations_append (t₁ t₂ : List (Event σ)) :
    invocations (t₁ ++ t₂) = invocations t₁ ++ invocations t₂ := List.filterMap_append

@[simp] theorem calls_append (t₁ t₂ : List (Event σ)) :
    calls (t₁ ++ t₂) = calls t₁ + calls t₂ := List.countP_append

@[simp] theorem callers_append (t₁ t₂ : List (Event σ)) :
    callers (t₁ ++ t₂) = callers t₁ ++ callers t₂ := List.filterMap_append

section
variable (caller : Option ℕ) (entry : Handler σ × ℕ)

@[simp] theorem invocations_next : invocations [Event.next (σ := σ) caller] = [] := rfl
@[simp] theorem invocations_invoke : invocations [Event.invoke entry] = [entry] := rfl
@[simp] theorem calls_next : calls [Event.next (σ := σ) caller] = 1 := rfl
@[simp] theorem calls_invoke : calls [Event.invoke entry] = 0 := rfl
@[simp] theorem callers_next : callers [Event.next (σ := σ) caller] = caller.toList := by
  cases caller <;> rfl
@[simp] theorem callers_invoke : callers [Event.invoke entry] = [] := rfl

end

/-! ## One call -/

section
variable {handlers : List (Handler σ)} {atEnd : ℕ → Bool} {fuel : ℕ} {r : Run σ}

theorem call_next_invoke {h : Handler σ} (hat : handlers[r.cursor]? = some h)
    (caller : Option ℕ) :
    call handlers atEnd (fuel + 1) (.next caller) r =
      call handlers atEnd fuel (.body r.cursor h r.state []) ((r.called caller).invoked h) := by
  simp only [call, Run.called, hat]

theorem call_next_over (hat : handlers[r.cursor]? = none) (caller : Option ℕ) :
    call handlers atEnd (fuel + 1) (.next caller) r =
      (if atEnd r.beyond then .returned else .raised,
        { r.called caller with beyond := r.beyond + 1 }) := by
  simp only [call, Run.called, hat]
  rfl

theorem call_body_next {place : ℕ} {h : Handler σ} {entry s : σ} {answers : List (Bool × σ)}
    (hmove : h entry answers = .next s) {status : Status} {r' : Run σ}
    (hcall : call handlers atEnd fuel (.next (some place)) { r with state := s } = (status, r')) :
    call handlers atEnd (fuel + 1) (.body place h entry answers) r =
      match status.answer with
      | some ok => call handlers atEnd fuel (.body place h entry (answers ++ [(ok, r'.state)])) r'
      | none => (status, r') := by
  simp only [call, hmove, hcall]

/-- What each step keeps, a whole call keeps. `C` is what is known of the callers. -/
theorem call_keeps {P : Run σ → Prop} {C : Option ℕ → Prop}
    (hplace : ∀ i < handlers.length, C (some i))
    (hstate : ∀ r s, P r → P { r with state := s })
    (hinvoke : ∀ r caller h, handlers[r.cursor]? = some h → C caller → P r →
      P ((r.called caller).invoked h))
    (hover : ∀ r caller, handlers[r.cursor]? = none → C caller → P r →
      P { r.called caller with beyond := r.beyond + 1 }) :
    ∀ (fuel : ℕ) (c : Call σ) (r : Run σ), C c.caller → P r →
      P (call handlers atEnd fuel c r).2 := by
  intro fuel
  induction fuel with
  | zero => exact fun _ _ _ hr => hr
  | succ fuel ih =>
    intro c r hc hr
    cases c with
    | next caller =>
      cases hat : handlers[r.cursor]? with
      | none =>
        rw [call_next_over hat]
        exact hover r caller hat hc hr
      | some h =>
        rw [call_next_invoke hat]
        have hlt : r.cursor < handlers.length := (List.getElem?_eq_some_iff.mp hat).1
        exact ih _ _ (hplace _ hlt) (hinvoke r caller h hat hc hr)
    | body place h entry answers =>
      cases hmove : h entry answers with
      | returns s | raises s =>
        simp only [call, hmove]
        exact hstate r s hr
      | hangs =>
        simp only [call, hmove]
        exact hr
      | next s =>
        rcases hcall : call handlers atEnd fuel (.next (some place)) { r with state := s } with
          ⟨status, r'⟩
        have hnext : P r' := by
          have hkept := ih (.next (some place)) _ hc (hstate r s hr)
          rw [hcall] at hkept
          exact hkept
        rw [call_body_next hmove hcall]
        cases status.answer with
        | none => exact hnext
        | some ok => exact ih _ _ hc hnext

/-- A property of the state that a move leaves. -/
def Move.All (Q : σ → Prop) : Move σ → Prop
  | .returns s | .raises s | .next s => Q s
  | .hangs => True

/-- A handler that finds a property of the state when it is invoked and behind each of its calls
leaves it at each of its moves. -/
def Handler.Keeps (Q : σ → Prop) (h : Handler σ) : Prop :=
  ∀ entry answers, Q entry → (∀ answer ∈ answers, Q answer.2) → (h entry answers).All Q

/-- What is asked of a call: the rest of a body is that of a handler which keeps the property, and
has found it so far. -/
def Call.Keeps (Q : σ → Prop) : Call σ → Prop
  | .next _ => True
  | .body _ h entry answers => h.Keeps Q ∧ Q entry ∧ ∀ answer ∈ answers, Q answer.2

/-- What each handler keeps of the state, a whole call keeps. -/
theorem call_state {Q : σ → Prop} (hhandlers : ∀ h ∈ handlers, Handler.Keeps Q h) :
    ∀ (fuel : ℕ) (c : Call σ) (r : Run σ), c.Keeps Q → Q r.state →
      Q (call handlers atEnd fuel c r).2.state := by
  intro fuel
  induction fuel with
  | zero => exact fun _ _ _ hr => hr
  | succ fuel ih =>
    intro c r hc hr
    cases c with
    | next caller =>
      cases hat : handlers[r.cursor]? with
      | none =>
        rw [call_next_over hat]
        exact hr
      | some h =>
        rw [call_next_invoke hat]
        exact ih _ _ ⟨hhandlers h (List.mem_of_getElem? hat), hr, nofun⟩ hr
    | body place h entry answers =>
      obtain ⟨hkeeps, hentry, hanswers⟩ := hc
      have hmoved := hkeeps entry answers hentry hanswers
      cases hmove : h entry answers with
      | returns s | raises s =>
        rw [hmove] at hmoved
        simp only [call, hmove]
        exact hmoved
      | hangs =>
        simp only [call, hmove]
        exact hr
      | next s =>
        rw [hmove] at hmoved
        rcases hcall : call handlers atEnd fuel (.next (some place)) { r with state := s } with
          ⟨status, r'⟩
        have hnext : Q r'.state := by
          have hkept := ih (.next (some place)) { r with state := s } trivial hmoved
          rw [hcall] at hkept
          exact hkept
        rw [call_body_next hmove hcall]
        cases status.answer with
        | none => exact hnext
        | some ok =>
          refine ih _ _ ⟨hkeeps, hentry, fun answer hin => ?_⟩ hnext
          rcases List.mem_append.mp hin with hin | hlast
          · exact hanswers answer hin
          · rw [List.mem_singleton.mp hlast]
            exact hnext

/-- A call that ends, or hangs, does so at every greater depth. -/
theorem call_mono : ∀ (fuel : ℕ) (c : Call σ) (r : Run σ),
    (call handlers atEnd fuel c r).1 ≠ .running →
      call handlers atEnd (fuel + 1) c r = call handlers atEnd fuel c r := by
  intro fuel
  induction fuel with
  | zero => exact fun _ _ h => absurd rfl h
  | succ fuel ih =>
    intro c r h
    cases c with
    | next caller =>
      cases hat : handlers[r.cursor]? with
      | none => rw [call_next_over hat, call_next_over hat]
      | some g =>
        rw [call_next_invoke hat] at h
        rw [call_next_invoke hat, call_next_invoke hat, ih _ _ h]
    | body place g entry answers =>
      cases hmove : g entry answers with
      | returns s | raises s | hangs => simp only [call, hmove]
      | next s =>
        rcases hcall : call handlers atEnd fuel (.next (some place)) { r with state := s } with
          ⟨status, r'⟩
        rw [call_body_next hmove hcall] at h
        have hstatus : status ≠ .running := by
          intro hrun
          rw [hrun] at h
          exact h rfl
        have hcall' : call handlers atEnd (fuel + 1) (.next (some place)) { r with state := s } =
            (status, r') := by
          rw [ih _ _ (by rw [hcall]; exact hstatus), hcall]
        rw [call_body_next hmove hcall, call_body_next hmove hcall']
        cases hanswer : status.answer with
        | none => rfl
        | some ok =>
          rw [hanswer] at h
          exact ih _ _ h

theorem call_mono_le {more : ℕ} (hle : fuel ≤ more) {c : Call σ}
    (h : (call handlers atEnd fuel c r).1 ≠ .running) :
    call handlers atEnd more c r = call handlers atEnd fuel c r := by
  induction hle with
  | refl => rfl
  | step _ ih => rw [call_mono _ _ _ (by rw [ih]; exact h), ih]

/-! ## The handlers invoked -/

/-- The handlers invoked are those the cursor has passed, in order, and the cursor is as
far as there were calls, or at the end. -/
structure Orderly (handlers : List (Handler σ)) (r : Run σ) : Prop where
  invocations_eq : invocations r.trace = handlers.zipIdx.take r.cursor
  cursor_eq : r.cursor = min handlers.length (calls r.trace)

theorem orderly_start (handlers : List (Handler σ)) (s : σ) (beyond : ℕ) :
    Orderly handlers { state := s, beyond := beyond } := ⟨by simp [invocations], by simp [calls]⟩

theorem call_orderly (c : Call σ) (h : Orderly handlers r) :
    Orderly handlers (call handlers atEnd fuel c r).2 := by
  refine call_keeps (C := fun _ => True) (fun _ _ => trivial)
    (fun r s hr => ⟨hr.invocations_eq, hr.cursor_eq⟩) ?_ ?_ fuel c r trivial h
  · intro r caller g hat _ hr
    have hlt : r.cursor < handlers.length := (List.getElem?_eq_some_iff.mp hat).1
    have hcursor := hr.cursor_eq
    constructor
    · simp only [Run.called, Run.invoked, invocations_append, invocations_next,
        invocations_invoke, List.append_nil, hr.invocations_eq, List.take_add_one,
        List.getElem?_zipIdx, hat]
      simp
    · simp only [Run.called, Run.invoked, calls_append, calls_next, calls_invoke]
      omega
  · intro r caller hat _ hr
    have hle : handlers.length ≤ r.cursor := List.getElem?_eq_none_iff.mp hat
    have hcursor := hr.cursor_eq
    constructor
    · simp [Run.called, hr.invocations_eq]
    · simp only [Run.called, calls_append, calls_next]
      omega

/-! ## When a call ends -/

theorem calls_le (c : Call σ) : calls r.trace ≤ calls (call handlers atEnd fuel c r).2.trace := by
  refine call_keeps (P := fun q => calls r.trace ≤ calls q.trace) (C := fun _ => True)
    (fun _ _ => trivial) (fun _ _ hq => hq) ?_ ?_ fuel c r trivial (le_refl _)
  · intro q caller g _ _ hq
    simp only [Run.called, Run.invoked, calls_append]
    omega
  · intro q caller _ _ hq
    simp only [Run.called, calls_append]
    omega

/-- A call of `next` that is run at all is noted. -/
theorem calls_lt (caller : Option ℕ) :
    calls r.trace < calls (call handlers atEnd (fuel + 1) (.next caller) r).2.trace := by
  cases hat : handlers[r.cursor]? with
  | none =>
    rw [call_next_over hat]
    simp [Run.called]
  | some h =>
    rw [call_next_invoke hat]
    refine lt_of_lt_of_le ?_ (calls_le _)
    simp only [Run.called, Run.invoked, calls_append, calls_next]
    omega

/-- What the start of a body adds to the depth. -/
def Call.slack : Call σ → ℕ
  | .next _ => 0
  | .body _ _ _ _ => 1

/-- Where the depth does not suffice, many calls have been made. -/
theorem fuel_le_of_running : ∀ (fuel : ℕ) (c : Call σ) (r : Run σ),
    (call handlers atEnd fuel c r).1 = .running →
      fuel + 2 * calls r.trace ≤
        2 * calls (call handlers atEnd fuel c r).2.trace + c.slack := by
  intro fuel
  induction fuel with
  | zero =>
    intro c r _
    simp [call]
  | succ fuel ih =>
    intro c r h
    cases c with
    | next caller =>
      cases hat : handlers[r.cursor]? with
      | none =>
        rw [call_next_over hat] at h
        simp only at h
        split at h <;> cases h
      | some g =>
        rw [call_next_invoke hat] at h ⊢
        have hbody := ih _ _ h
        simp only [Run.called, Run.invoked, calls_append, calls_next, calls_invoke,
          Call.slack] at hbody ⊢
        omega
    | body place g entry answers =>
      cases hmove : g entry answers with
      | returns s | raises s | hangs => simp [call, hmove] at h
      | next s =>
        rcases hcall : call handlers atEnd fuel (.next (some place)) { r with state := s } with
          ⟨status, r'⟩
        rw [call_body_next hmove hcall] at h ⊢
        cases hanswer : status.answer with
        | none =>
          rw [hanswer] at h
          have hnext := ih (.next (some place)) { r with state := s } (by rw [hcall]; exact h)
          rw [hcall] at hnext
          simp only [Call.slack] at hnext ⊢
          omega
        | some ok =>
          rw [hanswer] at h
          have hbody := ih _ _ h
          obtain ⟨f, rfl⟩ : ∃ f, fuel = f + 1 := by
            cases fuel with
            | zero => cases hcall; cases hanswer
            | succ f => exact ⟨f, rfl⟩
          have hlt := @calls_lt _ handlers atEnd f { r with state := s } (some place)
          rw [hcall] at hlt
          simp only [Call.slack] at hlt hbody ⊢
          omega

/-- All callers are places of the chain, and all calls but the first are theirs. -/
theorem call_callers {s : σ} {beyond : ℕ} :
    (∀ i ∈ callers (call handlers atEnd (fuel + 1) (.next none)
        { state := s, beyond := beyond }).2.trace, i < handlers.length) ∧
      calls (call handlers atEnd (fuel + 1) (.next none) { state := s, beyond := beyond }).2.trace =
        1 + (callers (call handlers atEnd (fuel + 1) (.next none)
          { state := s, beyond := beyond }).2.trace).length := by
  set start : Run σ := { state := s, beyond := beyond }
  cases hat : handlers[start.cursor]? with
  | none =>
    rw [call_next_over hat]
    simp [Run.called, start, callers, calls]
  | some h =>
    rw [call_next_invoke hat]
    refine call_keeps (P := fun q => (∀ i ∈ callers q.trace, i < handlers.length) ∧
        calls q.trace = 1 + (callers q.trace).length)
      (C := fun caller => ∃ i < handlers.length, caller = some i)
      (fun i hi => ⟨i, hi, rfl⟩) (fun _ _ hq => hq) ?_ ?_ fuel _ _ ?_ ?_
    · rintro q _ g - ⟨i, hi, rfl⟩ ⟨hplaces, hcalls⟩
      constructor
      · intro j hj
        simp only [Run.called, Run.invoked, callers_append, callers_next, callers_invoke,
          Option.toList_some, List.append_nil, List.mem_append, List.mem_singleton] at hj
        rcases hj with hj | rfl
        · exact hplaces j hj
        · exact hi
      · simp only [Run.called, Run.invoked, callers_append, callers_next, callers_invoke,
          calls_append, calls_next, calls_invoke, Option.toList_some, List.length_append,
          List.length_singleton, List.length_nil]
        omega
    · rintro q _ - ⟨i, hi, rfl⟩ ⟨hplaces, hcalls⟩
      constructor
      · intro j hj
        simp only [Run.called, callers_append, callers_next, Option.toList_some,
          List.mem_append, List.mem_singleton] at hj
        rcases hj with hj | rfl
        · exact hplaces j hj
        · exact hi
      · simp only [Run.called, callers_append, callers_next, calls_append, calls_next,
          Option.toList_some, List.length_append, List.length_singleton]
        omega
    · exact ⟨start.cursor, (List.getElem?_eq_some_iff.mp hat).1, rfl⟩
    · simp [Run.called, Run.invoked, start, callers, calls]

/-- Each body ends: none goes on for ever by itself, and none calls `next` without
bound. -/
structure BodiesEnd (handlers : List (Handler σ)) (atEnd : ℕ → Bool) (start : Run σ) : Prop where
  not_hung : ∀ fuel, (call handlers atEnd fuel (.next none) start).1 ≠ .hung
  bounded : ∀ i, ∃ n, ∀ fuel,
    (callers (call handlers atEnd fuel (.next none) start).2.trace).count i ≤ n

/-- When each body ends, so does the call that invoked them all. -/
theorem exists_ended {s : σ} {beyond : ℕ}
    (h : BodiesEnd handlers atEnd { state := s, beyond := beyond }) :
    ∃ fuel, (call handlers atEnd fuel (.next none)
      { state := s, beyond := beyond }).1.answer.isSome = true := by
  choose bound hbound using h.bounded
  set total := ∑ i ∈ Finset.range handlers.length, bound i with htotal
  set fuel := 2 * (1 + total) with hfuel
  refine ⟨fuel + 1, ?_⟩
  obtain ⟨hplaces, hcalls⟩ := @call_callers _ handlers atEnd fuel s beyond
  set run := call handlers atEnd (fuel + 1) (.next none) { state := s, beyond := beyond } with hrun
  have hlength : (callers run.2.trace).length ≤ total := by
    have hsum := Multiset.sum_count_eq_card (s := Finset.range handlers.length)
      (m := (callers run.2.trace : Multiset ℕ)) (by simpa using hplaces)
    rw [Multiset.coe_card] at hsum
    rw [← hsum]
    refine Finset.sum_le_sum fun i _ => ?_
    rw [Multiset.coe_count]
    exact hbound i (fuel + 1)
  cases hstatus : run.1 with
  | returned | raised => rfl
  | hung => exact absurd hstatus (h.not_hung (fuel + 1))
  | running =>
    have hdeep := fuel_le_of_running (fuel + 1) (.next none) _ (by rw [← hrun]; exact hstatus)
    rw [← hrun] at hdeep
    simp only [calls, List.countP_nil, Call.slack] at hdeep hcalls
    omega

end

end Chain
end Calabash
