import Mathlib.Data.List.Basic
import Mathlib.Data.Nat.Notation

/-!
# Sinks

A sink is offered a run of elements and takes some of them, from the front. Whoever has
something to deliver offers what is left of it until nothing is.

## Main definitions

* `Sink.Takes` — sinks that take something of every offer.
* `Sink.Within` — sinks that take no more than they are offered.
* `Sink.recorded` — a sink together with the offers that were made to it.
* `Sink.feed` — the loop that delivers a list; `feed_recorded`, `feed_isSome` and `feed_mono` are
  its rules.
-/

namespace Calabash

/-- How many elements of an offer a sink takes, and its next state; `none` when it does not
come back. -/
abbrev Sink (S α : Type) := S → List α → Option (ℕ × S)

namespace Sink
variable {S α : Type}

/-- The sink takes at least one element of every offer that has one, and no more than there
are. -/
def Takes (func : Sink S α) : Prop :=
  ∀ s elems, elems ≠ [] → ∃ n s', func s elems = some (n, s') ∧ 1 ≤ n ∧ n ≤ elems.length

/-- The sink never takes more of an offer than there is. -/
def Within (func : Sink S α) : Prop :=
  ∀ s elems n s', elems ≠ [] → func s elems = some (n, s') → n ≤ elems.length

/-- An offer and how much of it was taken. -/
structure Offer (α : Type) where
  elems : List α
  taken : ℕ

/-- What was taken of a sequence of offers. -/
def accepted (log : List (Offer α)) : List α := log.flatMap fun o => o.elems.take o.taken

/-- The sink with a record of the offers it came back from. -/
def recorded (func : Sink S α) : Sink (S × List (Offer α)) α := fun p elems => do
  let (n, s) ← func p.1 elems
  return (n, s, p.2 ++ [⟨elems, n⟩])

/-- The loop that offers what is left of `data` until all of it is taken; `sent` elements are.
With `fuel` it is left after so many passes at the latest. -/
def feed (func : Sink S α) (data : List α) : ℕ → ℕ → S → Option (ℕ × S)
  | 0, _, _ => none
  | fuel + 1, sent, s =>
    if sent < data.length then do
      let (n, s) ← func s (data.drop sent)
      feed func data fuel (sent + n) s
    else some (sent, s)

/-- The sink that takes every offer whole. -/
def takeAll : Sink Unit α := fun s elems => some (elems.length, s)

@[simp] theorem accepted_nil : accepted ([] : List (Offer α)) = [] := rfl

@[simp] theorem accepted_cons (o : Offer α) (log : List (Offer α)) :
    accepted (o :: log) = o.elems.take o.taken ++ accepted log := List.flatMap_cons

@[simp] theorem accepted_append (log more : List (Offer α)) :
    accepted (log ++ more) = accepted log ++ accepted more := List.flatMap_append

theorem recorded_eq_some {func : Sink S α} {p p' : S × List (Offer α)} {elems : List α} {n : ℕ} :
    func.recorded p elems = some (n, p') ↔
      func p.1 elems = some (n, p'.1) ∧ p'.2 = p.2 ++ [⟨elems, n⟩] := by
  rw [recorded]
  cases func p.1 elems with
  | none => simp
  | some r => grind

theorem Takes.recorded {func : Sink S α} (h : func.Takes) : func.recorded.Takes := by
  intro p elems helems
  obtain ⟨n, s', hfunc, hn⟩ := h p.1 elems helems
  exact ⟨n, (s', p.2 ++ [⟨elems, n⟩]), recorded_eq_some.mpr ⟨hfunc, rfl⟩, hn⟩

theorem Takes.within {func : Sink S α} (h : func.Takes) : func.Within := by
  intro s elems n s' helems hfunc
  obtain ⟨n', s'', htakes, -, hle⟩ := h s elems helems
  rw [htakes] at hfunc
  cases hfunc
  exact hle

theorem takes_takeAll : (takeAll : Sink Unit α).Takes := by
  intro s elems helems
  exact ⟨elems.length, s, rfl, List.length_pos_iff.mpr helems, Nat.le_refl _⟩

theorem drop_ne_nil {data : List α} {sent : ℕ} (h : sent < data.length) : data.drop sent ≠ [] := by
  rw [ne_eq, List.drop_eq_nil_iff]
  omega

/-! ## The loop -/

theorem feed_of_le {func : Sink S α} {data : List α} {sent : ℕ} (h : data.length ≤ sent)
    (fuel : ℕ) (s : S) : func.feed data (fuel + 1) sent s = some (sent, s) := by
  rw [feed, if_neg (by omega)]

theorem feed_of_lt {func : Sink S α} {data : List α} {sent : ℕ} (h : sent < data.length)
    (fuel : ℕ) (s : S) : func.feed data (fuel + 1) sent s =
      (func s (data.drop sent)).bind fun r => func.feed data fuel (sent + r.1) r.2 := by
  rw [feed, if_pos h]
  rfl

/-- A greater bound, and a sink that comes back more often, change nothing about a loop that
ends. -/
theorem feed_mono {func func' : Sink S α}
    (hfunc : ∀ s elems r, func s elems = some r → func' s elems = some r) {data : List α}
    {fuel more sent : ℕ} (hle : fuel ≤ more) {s : S} {result : ℕ × S}
    (h : func.feed data fuel sent s = some result) :
    func'.feed data more sent s = some result := by
  induction fuel generalizing more sent s with
  | zero => cases h
  | succ fuel ih =>
    obtain ⟨more, rfl⟩ : ∃ m, more = m + 1 := ⟨more - 1, by omega⟩
    by_cases hlt : sent < data.length
    · rw [feed_of_lt hlt] at h
      obtain ⟨r, hr, hrest⟩ := Option.bind_eq_some_iff.mp h
      rw [feed_of_lt hlt, hfunc _ _ _ hr]
      exact ih (by omega) hrest
    · rw [feed_of_le (by omega)] at h ⊢
      exact h

/-- A loop that ends has delivered what was left once and in order, and made no empty offer. -/
theorem feed_recorded {func : Sink S α} (h : func.Within) {data : List α} {fuel sent : ℕ}
    (hsent : sent ≤ data.length) {p : S × List (Offer α)} {result : ℕ × S × List (Offer α)}
    (hfeed : func.recorded.feed data fuel sent p = some result) :
    result.1 = data.length ∧ ∃ more, result.2.2 = p.2 ++ more ∧
      accepted more = data.drop sent ∧ ∀ o ∈ more, o.elems ≠ [] := by
  induction fuel generalizing sent p with
  | zero => cases hfeed
  | succ fuel ih =>
    rcases Nat.eq_or_lt_of_le hsent with rfl | hlt
    · rw [feed_of_le (Nat.le_refl _)] at hfeed
      cases hfeed
      exact ⟨rfl, [], by simp, by simp, by simp⟩
    · rw [feed_of_lt hlt] at hfeed
      obtain ⟨⟨n, p'⟩, hfunc, hrest⟩ := Option.bind_eq_some_iff.mp hfeed
      obtain ⟨hfunc, hlog⟩ := recorded_eq_some.mp hfunc
      have hle := h p.1 (data.drop sent) n p'.1 (drop_ne_nil hlt) hfunc
      rw [List.length_drop] at hle
      obtain ⟨hcount, more, hmore, hacc, hne⟩ := ih (by omega) hrest
      refine ⟨hcount, ⟨data.drop sent, n⟩ :: more, ?_, ?_, ?_⟩
      · rw [hmore, hlog, List.append_assoc]
        rfl
      · rw [accepted_cons, hacc, ← List.drop_drop]
        exact List.take_append_drop n _
      · intro o ho
        rcases List.mem_cons.mp ho with rfl | ho
        · exact drop_ne_nil hlt
        · exact hne o ho

/-- On a sink that takes the loop ends. -/
theorem feed_isSome {func : Sink S α} (h : func.Takes) {data : List α} {fuel sent : ℕ}
    (hfuel : data.length - sent < fuel) (s : S) : ∃ result, func.feed data fuel sent s =
      some result := by
  induction fuel generalizing sent s with
  | zero => omega
  | succ fuel ih =>
    by_cases hlt : sent < data.length
    · obtain ⟨n, s', hfunc, hpos, -⟩ := h s (data.drop sent) (drop_ne_nil hlt)
      rw [feed_of_lt hlt, hfunc]
      exact ih (by simp only; omega) s'
    · exact ⟨_, feed_of_le (by omega) fuel s⟩

end Sink
end Calabash
