import Calabash.Lib.Chain

/-!
# Handlers that call `next` at most once

Such a handler is a layer around the rest of the chain: what it does before, and what it makes of
how the rest has ended. A chain of layers is a function, put together from the outside to the
inside.

## Main definitions

* `Layer`, `compose` — a layer, and the function that a list of them is.
* `call_layers` — a call into a chain of layers computes that function.
-/

namespace Calabash
namespace Chain

variable {σ : Type}

/-- What a handler does before `next`, and behind it. -/
structure Layer (σ : Type) where
  /-- Goes on to `next` in a state, or returns (`true`) or raises (`false`) in one. -/
  enter : σ → Option Bool × σ
  /-- Returns or raises, depending on how `next` has ended. -/
  leave : σ → Bool × σ → Bool × σ

/-- The move with which a body ends. -/
def Move.ended : Bool × σ → Move σ
  | (true, s) => .returns s
  | (false, s) => .raises s

def Layer.handler (l : Layer σ) : Handler σ := fun entry answers =>
  match answers with
  | [] =>
    match l.enter entry with
    | (none, s) => .next s
    | (some ok, s) => .ended (ok, s)
  | answer :: _ => .ended (l.leave entry answer)

/-- What a list of layers does, where the end of the chain returns or raises. -/
def compose (last : Bool) : List (Layer σ) → σ → Bool × σ
  | [], s => (last, s)
  | l :: ls, s =>
    match l.enter s with
    | (none, t) => l.leave s (compose last ls t)
    | (some ok, t) => (ok, t)

/-- How a call stands that has ended. -/
def Status.ended (ok : Bool) : Status := if ok then .returned else .raised

@[simp] theorem Status.answer_ended (ok : Bool) : (Status.ended ok).answer = some ok := by
  cases ok <;> rfl

variable {ls : List (Layer σ)} {atEnd : ℕ → Bool}

/-- A body that ends. -/
theorem call_body_ended {handlers : List (Handler σ)} {place : ℕ} {h : Handler σ} {entry : σ}
    {answers : List (Bool × σ)} {result : Bool × σ} (hmove : h entry answers = .ended result)
    (fuel : ℕ) (r : Run σ) : call handlers atEnd (fuel + 1) (.body place h entry answers) r =
      (.ended result.1, { r with state := result.2 }) := by
  obtain ⟨ok, s⟩ := result
  cases ok <;> simp [call, hmove, Move.ended, Status.ended]

/-- A call into a chain of layers does what the layers do that the cursor has not passed. -/
theorem call_layers {rest : List (Layer σ)} {fuel : ℕ} (hfuel : 2 * rest.length < fuel)
    (caller : Option ℕ) {r : Run σ} (hrest : ls.drop r.cursor = rest) :
    ∃ r', call (ls.map Layer.handler) atEnd fuel (.next caller) r =
        (.ended (compose (atEnd r.beyond) rest r.state).1, r') ∧
      r'.state = (compose (atEnd r.beyond) rest r.state).2 := by
  induction rest generalizing fuel caller r with
  | nil =>
    obtain ⟨fuel, rfl⟩ := Nat.exists_eq_succ_of_ne_zero (Nat.ne_zero_of_lt hfuel)
    have hover : (ls.map Layer.handler)[r.cursor]? = none := by
      rw [List.getElem?_eq_none_iff, List.length_map]
      exact List.drop_eq_nil_iff.mp hrest
    rw [call_next_over hover]
    exact ⟨_, rfl, rfl⟩
  | cons l rest ih =>
    rw [List.length_cons] at hfuel
    obtain ⟨fuel, rfl⟩ : ∃ f, fuel = f + 3 := ⟨fuel - 3, by omega⟩
    have hat : (ls.map Layer.handler)[r.cursor]? = some l.handler := by
      rw [List.getElem?_map, ← List.head?_drop, hrest]
      rfl
    have hnext : ls.drop (r.cursor + 1) = rest := by
      rw [← List.tail_drop, hrest]
      rfl
    rw [call_next_invoke hat, compose]
    rcases henter : l.enter r.state with ⟨_ | ok, s⟩
    · have hmove : l.handler r.state [] = .next s := by simp [Layer.handler, henter]
      obtain ⟨r', hcall, hstate⟩ := @ih (fuel + 1) (by omega) (some r.cursor)
        { (r.called caller).invoked l.handler with state := s } hnext
      change _ = (Status.ended (compose (atEnd r.beyond) rest s).1, r') at hcall
      change r'.state = (compose (atEnd r.beyond) rest s).2 at hstate
      have hleave : l.handler r.state ([] ++ [((compose (atEnd r.beyond) rest s).1, r'.state)]) =
          .ended (l.leave r.state (compose (atEnd r.beyond) rest s)) := by
        rw [hstate]
        rfl
      rw [call_body_next hmove hcall, Status.answer_ended]
      dsimp only
      rw [call_body_ended hleave]
      exact ⟨_, rfl, rfl⟩
    · have hmove : l.handler r.state [] = .ended (ok, s) := by simp [Layer.handler, henter]
      rw [call_body_ended hmove]
      exact ⟨_, rfl, rfl⟩

end Chain
end Calabash
