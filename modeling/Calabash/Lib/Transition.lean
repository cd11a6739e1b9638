import Mathlib.Algebra.BigOperators.Group.Finset.Piecewise
import Mathlib.Data.List.Destutter
import Mathlib.Data.Multiset.Basic
import Mathlib.Tactic.Abel

/-!
# Labelled transition systems

Runs of a transition system, the rule that carries an invariant along a trace, the rule
that carries a simulation along one, and the rule that bounds runs by a measure. A system
of many threads keeps a program point for each of them; `total_update` says what a step of
one thread does to a sum over all, and `count_update` to a number of threads.

## Main definitions

* `System`, `System.Run`, `System.Trace` — systems, runs and initialized runs.
* `System.Trace.invariant` — what holds at the start and is kept by steps, holds.
* `System.Trace.balance` — what came in is what went out and what is still there.
* `System.Simulation` — every step of one system is a run of another.
* `System.Run.length_add_le` — a measure that every step lowers bounds the run.
* `System.ends_of_lower` — a measure in a well-founded order ends it.
* `System.Visits.path` — what a run shows of another system is a run of it.
-/

namespace Calabash

/-- A labelled transition system: its initial states and its steps. -/
structure System (σ ℓ : Type) where
  init : σ → Prop
  step : σ → ℓ → σ → Prop

namespace System
variable {σ τ ℓ μ : Type}

/-- A finite run, with the labels of its steps in order. -/
inductive Run (S : System σ ℓ) : σ → List ℓ → σ → Prop
  | nil (s : σ) : Run S s [] s
  | snoc {s t u : σ} {tr : List ℓ} {a : ℓ} : Run S s tr t → S.step t a u → Run S s (tr ++ [a]) u

/-- A run from an initial state. -/
def Trace (S : System σ ℓ) (tr : List ℓ) (s : σ) : Prop := ∃ s₀, S.init s₀ ∧ S.Run s₀ tr s

/-- A state that some run reaches. -/
def Reachable (S : System σ ℓ) (s : σ) : Prop := ∃ tr, S.Trace tr s

variable {S : System σ ℓ}

theorem Run.trans {s t u : σ} {tr more : List ℓ} (h : S.Run s tr t) (h' : S.Run t more u) :
    S.Run s (tr ++ more) u := by
  induction h' with
  | nil => simpa using h
  | snoc _ hstep ih =>
    rw [← List.append_assoc]
    exact .snoc ih hstep

/-- A run is one of any system that has its steps. -/
theorem Run.mono {T : System σ ℓ} (hsteps : ∀ s a t, S.step s a t → T.step s a t) {s t : σ}
    {tr : List ℓ} (h : S.Run s tr t) : T.Run s tr t := by
  induction h with
  | nil => exact .nil _
  | snoc _ hstep ih => exact .snoc ih (hsteps _ _ _ hstep)

theorem Trace.nil {s : σ} (h : S.init s) : S.Trace [] s := ⟨s, h, .nil s⟩

theorem Trace.snoc {s t : σ} {tr : List ℓ} {a : ℓ} (h : S.Trace tr s) (hstep : S.step s a t) :
    S.Trace (tr ++ [a]) t := by
  obtain ⟨s₀, hinit, hrun⟩ := h
  exact ⟨s₀, hinit, .snoc hrun hstep⟩

theorem Trace.reachable {s : σ} {tr : List ℓ} (h : S.Trace tr s) : S.Reachable s := ⟨tr, h⟩

theorem Reachable.snoc {s t : σ} {a : ℓ} (h : S.Reachable s) (hstep : S.step s a t) :
    S.Reachable t := by
  obtain ⟨tr, htr⟩ := h
  exact (htr.snoc hstep).reachable

theorem Trace.run {s t : σ} {tr more : List ℓ} (h : S.Trace tr s) (hrun : S.Run s more t) :
    S.Trace (tr ++ more) t := by
  obtain ⟨s₀, hinit, hrun₀⟩ := h
  exact ⟨s₀, hinit, hrun₀.trans hrun⟩

/-- A property of the labels so far and the state that holds initially and is kept by
every step holds along every trace. -/
theorem Trace.invariant {P : List ℓ → σ → Prop} (hinit : ∀ s, S.init s → P [] s)
    (hstep : ∀ tr s a t, P tr s → S.step s a t → P (tr ++ [a]) t) {tr : List ℓ} {s : σ}
    (h : S.Trace tr s) : P tr s := by
  obtain ⟨s₀, h₀, hrun⟩ := h
  induction hrun with
  | nil => exact hinit _ h₀
  | snoc _ ha ih => exact hstep _ _ _ _ ih ha

/-- The same for a property of the state alone. -/
theorem Reachable.invariant {P : σ → Prop} (hinit : ∀ s, S.init s → P s)
    (hstep : ∀ s a t, P s → S.step s a t → P t) {s : σ} (h : S.Reachable s) : P s := by
  obtain ⟨tr, htr⟩ := h
  exact htr.invariant (P := fun _ s => P s) hinit fun _ s a t => hstep s a t

/-- A run of a function whose steps are steps of the system. -/
theorem Trace.of_foldlM {f : σ → ℓ → Option σ} (hstep : ∀ s a t, f s a = some t → S.step s a t)
    {s₀ t : σ} (hinit : S.init s₀) {tr : List ℓ} (h : tr.foldlM f s₀ = some t) : S.Trace tr t := by
  induction tr using List.reverseRecOn generalizing t with
  | nil =>
    cases h
    exact .nil hinit
  | append_singleton tr a ih =>
    rw [List.foldlM_append] at h
    obtain ⟨s, hs, hlast⟩ := Option.bind_eq_some_iff.mp h
    obtain ⟨t', ht', heq⟩ := Option.bind_eq_some_iff.mp hlast
    cases heq
    exact (ih hs).snoc (hstep _ _ _ ht')

/-- A stock that every step raises by what comes in and lowers by what goes out is, on a
trace that starts without one, what has come in and not gone out. -/
theorem Trace.balance {α : Type} {tr : List ℓ} {s : σ} (h : S.Trace tr s) (stock : σ → Multiset α)
    (inc out : ℓ → List α) (hinit : ∀ s, S.init s → stock s = 0)
    (hstep : ∀ s a t, S.step s a t → stock t + out a = stock s + inc a) :
    (tr.flatMap inc : Multiset α) = tr.flatMap out + stock s := by
  refine h.invariant (P := fun tr s => (tr.flatMap inc : Multiset α) = tr.flatMap out + stock s)
    ?_ ?_
  · intro s hs
    simp [hinit s hs]
  · intro tr s a t hs ha
    simp only [List.flatMap_append, List.flatMap_singleton, ← Multiset.coe_add, hs]
    rw [add_assoc, ← hstep s a t ha]
    abel

/-- Under an invariant of the state, a measure that every step lowers bounds the length
of a run. -/
theorem Run.length_add_le {P : σ → Prop} {f : σ → ℕ}
    (hkeep : ∀ s a t, P s → S.step s a t → P t)
    (hlower : ∀ s a t, P s → S.step s a t → f t + 1 ≤ f s) {s t : σ} {tr : List ℓ}
    (h : S.Run s tr t) (hs : P s) : P t ∧ tr.length + f t ≤ f s := by
  induction h with
  | nil => exact ⟨hs, by simp⟩
  | snoc _ ha ih =>
    obtain ⟨ht, hle⟩ := ih
    have hlow := hlower _ _ _ ht ha
    refine ⟨hkeep _ _ _ ht ha, ?_⟩
    rw [List.length_append, List.length_singleton]
    omega

/-- No run from the state goes on for ever. -/
def Ends (S : System σ ℓ) (s : σ) : Prop := Acc (fun t s => ∃ a, S.step s a t) s

/-- Under an invariant of the state, a measure in a well-founded order that every step lowers
ends all runs. -/
theorem ends_of_lower {α : Type} {r : α → α → Prop} (hr : WellFounded r) {P : σ → Prop}
    {f : σ → α} (hkeep : ∀ s a t, P s → S.step s a t → P t)
    (hlower : ∀ s a t, P s → S.step s a t → r (f t) (f s)) {s : σ} (hs : P s) : S.Ends s := by
  generalize hx : f s = x
  induction x using hr.induction generalizing s with
  | _ x ih =>
    subst hx
    refine .intro s fun t ⟨a, ha⟩ => ?_
    exact ih (f t) (hlower s a t hs ha) (hkeep s a t hs ha) rfl

/-- The steps of `S` that `C` allows. -/
def guarded (S : System σ ℓ) (C : σ → ℓ → Prop) : System σ ℓ where
  init := S.init
  step s a t := S.step s a t ∧ C s a

/-- A map of states under which a step of `S` is a run of `T`, with the labels `label`
gives. -/
structure Simulation (S : System σ ℓ) (T : System τ μ) where
  abs : σ → τ
  label : ℓ → List μ
  init : ∀ s, S.init s → T.init (abs s)
  step : ∀ s a t, S.Reachable s → S.step s a t → T.Run (abs s) (label a) (abs t)

theorem Simulation.trace {T : System τ μ} (R : Simulation S T) {tr : List ℓ} {s : σ}
    (h : S.Trace tr s) : T.Trace (tr.flatMap R.label) (R.abs s) := by
  obtain ⟨s₀, h₀, hrun⟩ := h
  induction hrun with
  | nil => exact .nil (R.init _ h₀)
  | @snoc t u tr a hrun ha ih =>
    have hreach : S.Reachable t := ⟨tr, s₀, h₀, hrun⟩
    simpa using ih.run (R.step _ _ _ hreach ha)

/-! ## Runs that are looked at -/

/-- A run from an initial state, with its labels and the states that it goes through. -/
inductive Visits (S : System σ ℓ) : List ℓ → List σ → σ → Prop
  | start {s : σ} : S.init s → Visits S [] [s] s
  | snoc {s t : σ} {tr : List ℓ} {states : List σ} {a : ℓ} : Visits S tr states s →
      S.step s a t → Visits S (tr ++ [a]) (states ++ [t]) t

/-- States that begin with an initial one, each one step behind the one in front of it. -/
def Path (S : System σ ℓ) (states : List σ) : Prop :=
  (∃ s ∈ states.head?, S.init s) ∧ states.IsChain fun s t => ∃ a, S.step s a t

theorem Visits.trace {tr : List ℓ} {states : List σ} {s : σ} (h : S.Visits tr states s) :
    S.Trace tr s := by
  induction h with
  | start hinit => exact .nil hinit
  | snoc _ hstep ih => exact ih.snoc hstep

theorem Trace.visits {tr : List ℓ} {s : σ} (h : S.Trace tr s) : ∃ states, S.Visits tr states s := by
  obtain ⟨s₀, hinit, hrun⟩ := h
  induction hrun with
  | nil => exact ⟨[s₀], .start hinit⟩
  | snoc _ hstep ih =>
    obtain ⟨states, hstates⟩ := ih
    exact ⟨_, hstates.snoc hstep⟩

/-- Where nothing repeats itself any more, everything that was not repeated is in its place. -/
theorem isChain_destutter' {R : τ → τ → Prop} [DecidableEq τ] {l : List τ} {x : τ}
    (h : (x :: l).IsChain fun y z => z = y ∨ R y z) :
    ∃ rest, l.destutter' (· ≠ ·) x = x :: rest ∧ (x :: rest).IsChain R := by
  induction l generalizing x with
  | nil => exact ⟨[], rfl, .singleton x⟩
  | cons y l ih =>
    obtain ⟨hhead, htail⟩ := List.isChain_cons_cons.mp h
    by_cases hxy : x = y
    · subst hxy
      rw [List.destutter'_cons_neg _ (by simp)]
      exact ih htail
    · obtain ⟨rest, hrest, hchain⟩ := ih htail
      rw [List.destutter'_cons_pos _ hxy, hrest]
      exact ⟨y :: rest, rfl, hchain.cons_cons (hhead.resolve_left fun heq => hxy heq.symm)⟩

/-- A view under which a step is one of `T`, or does not show, makes a run of `T` of a run, when
what does not show is left out. -/
theorem Visits.path [DecidableEq τ] {T : System τ μ} {view : σ → τ} {tr : List ℓ} {states : List σ}
    {s : σ} (h : S.Visits tr states s) (hinit : ∀ s, S.init s → T.init (view s))
    (hstep : ∀ tr s a t, S.Trace tr s → S.step s a t →
      view t = view s ∨ ∃ b, T.step (view s) b (view t)) :
    T.Path ((states.map view).destutter (· ≠ ·)) := by
  have hviews : (∃ x ∈ (states.map view).head?, T.init x) ∧ (view s) ∈ (states.map view).getLast? ∧
      (states.map view).IsChain fun x y => y = x ∨ ∃ b, T.step x b y := by
    induction h with
    | start hs => exact ⟨⟨_, rfl, hinit _ hs⟩, rfl, .singleton _⟩
    | @snoc s t tr states a hvisits ha ih =>
      obtain ⟨⟨x, hx, hxinit⟩, hlast, hchain⟩ := ih
      rw [List.map_append, List.map_singleton]
      refine ⟨⟨x, ?_, hxinit⟩, by simp, ?_⟩
      · rw [List.head?_append]
        simp [Option.mem_def.mp hx]
      · refine List.isChain_append.mpr ⟨hchain, .singleton _, fun y hy z hz => ?_⟩
        obtain rfl : y = view s := Option.mem_unique hy hlast
        obtain rfl : view t = z := by simpa using hz
        exact hstep tr s a t hvisits.trace ha
  obtain ⟨⟨x, hx, hxinit⟩, -, hchain⟩ := hviews
  generalize states.map view = views at hx hchain
  cases views with
  | nil => cases hx
  | cons y views =>
    obtain rfl : y = x := by simpa using hx
    obtain ⟨rest, hrest, hpath⟩ := isChain_destutter' hchain
    rw [List.destutter_cons', hrest]
    exact ⟨⟨y, rfl, hxinit⟩, hpath⟩

end System

/-- Of three numbers, the first that is not the same goes down. -/
def Lowers (p q : ℕ × ℕ × ℕ) : Prop :=
  p.1 < q.1 ∨ p.1 ≤ q.1 ∧ (p.2.1 < q.2.1 ∨ p.2.1 ≤ q.2.1 ∧ p.2.2 < q.2.2)

theorem wellFounded_lowers : WellFounded Lowers := by
  have hlex := (Prod.lex Nat.lt_wfRel (Prod.lex Nat.lt_wfRel Nat.lt_wfRel)).wf
  refine Subrelation.wf (fun {p q} h => ?_) hlex
  obtain ⟨a, b, c⟩ := p
  obtain ⟨a', b', c'⟩ := q
  rcases h with h | ⟨hle, h | ⟨hle', h⟩⟩
  · exact Prod.Lex.left _ _ h
  · rcases Nat.lt_or_eq_of_le hle with hlt | rfl
    · exact Prod.Lex.left _ _ hlt
    · exact Prod.Lex.right _ (Prod.Lex.left _ _ h)
  · rcases Nat.lt_or_eq_of_le hle with hlt | rfl
    · exact Prod.Lex.left _ _ hlt
    · rcases Nat.lt_or_eq_of_le hle' with hlt | rfl
      · exact Prod.Lex.right _ (Prod.Lex.left _ _ hlt)
      · exact Prod.Lex.right _ (Prod.Lex.right _ h)

/-! ## Sums over threads -/

section
variable {ι α M : Type} [Fintype ι] [AddCommMonoid M]

/-- The sum of `g` over what is at each index. -/
def total (g : α → M) (f : ι → α) : M := ∑ i, g (f i)

/-- What an update at one index does to a total: the old summand goes and the new one
comes. -/
theorem total_update [DecidableEq ι] (g : α → M) (f : ι → α) (i : ι) (a : α) :
    total g (Function.update f i a) + g (f i) = total g f + g a := by
  have hupdate := Finset.add_sum_erase Finset.univ (fun x => g (Function.update f i a x))
    (Finset.mem_univ i)
  have hold := Finset.add_sum_erase Finset.univ (fun x => g (f x)) (Finset.mem_univ i)
  have hrest : ∑ x ∈ Finset.univ.erase i, g (Function.update f i a x) =
      ∑ x ∈ Finset.univ.erase i, g (f x) := by
    apply Finset.sum_congr rfl
    intro x hx
    rw [Function.update_of_ne (Finset.ne_of_mem_erase hx)]
  rw [total, total, ← hupdate, ← hold, hrest]
  simp only [Function.update_self]
  abel

theorem total_eq_zero {g : α → M} {f : ι → α} (h : ∀ i, g (f i) = 0) : total g f = 0 :=
  Finset.sum_eq_zero fun i _ => h i

end

/-- A thread that moves between values of the same weight changes no total. -/
theorem total_same {ι α β : Type} [Fintype ι] [DecidableEq ι] (g : α → Multiset β) {f : ι → α}
    {i : ι} {a a' : α} (hi : f i = a) (h : g a' = g a) :
    total g (Function.update f i a') = total g f := by
  have htotal := total_update g f i a'
  rw [hi, h] at htotal
  exact add_right_cancel htotal

theorem total_gain {ι α β : Type} [Fintype ι] [DecidableEq ι] (g : α → Multiset β) {f : ι → α}
    {i : ι} {a a' : α} {b : β} (hi : f i = a) (h : g a = 0) (h' : g a' = {b}) :
    total g (Function.update f i a') = b ::ₘ total g f := by
  have htotal := total_update g f i a'
  rw [hi, h, h', add_zero] at htotal
  rw [htotal, add_comm, Multiset.singleton_add]

theorem total_lose {ι α β : Type} [Fintype ι] [DecidableEq ι] (g : α → Multiset β) {f : ι → α}
    {i : ι} {a a' : α} {b : β} (hi : f i = a) (h : g a = {b}) (h' : g a' = 0) :
    total g f = b ::ₘ total g (Function.update f i a') := by
  have htotal := total_update g f i a'
  rw [hi, h, h', add_zero] at htotal
  rw [← htotal, add_comm, Multiset.singleton_add]

/-- How many indices have a value that satisfies `g`. -/
def count {ι α : Type} [Fintype ι] (g : α → Bool) (f : ι → α) : ℕ :=
  (Finset.univ.filter fun i => g (f i) = true).card

theorem count_eq_total {ι α : Type} [Fintype ι] (g : α → Bool) (f : ι → α) :
    count g f = total (fun a => (g a).toNat) f := by
  rw [count, total, Finset.card_filter]
  apply Finset.sum_congr rfl
  intro i _
  cases g (f i) <;> rfl

theorem count_update {ι α : Type} [Fintype ι] [DecidableEq ι] (g : α → Bool) (f : ι → α) (i : ι)
    (a : α) : count g (Function.update f i a) + (g (f i)).toNat = count g f + (g a).toNat := by
  rw [count_eq_total, count_eq_total]
  exact total_update (fun a => (g a).toNat) f i a

end Calabash
