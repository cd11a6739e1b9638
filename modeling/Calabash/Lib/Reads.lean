import Mathlib.Data.List.TakeWhile
import Mathlib.Order.MinMax

/-!
# Computations that read one object in memory

A program that walks a pointer through an array is a function of the array's
contents, but a safety statement about it is not: what matters there is which
cells it looked at. `Reads β ε α` is a computation over one object, the list of
its `β`-cells, that ends in a value or in a fault `ε` and reports one more than
the highest index it read.

A computation is `Local` when cells it did not read cannot influence it. Every
primitive is local and sequencing keeps locality, so a whole scanner is local by
composition. A local computation that stays inside a prefix of its object gives
the same outcome whatever follows that prefix, which is what makes statements of
the form "for arbitrary bytes after the first `n`" provable from one run.

## Main definitions

* `Reads` — computations over one object, with their reach.
* `Reads.scanWhile` — the loop `while (ptr != end && p(*ptr)) ptr++`.
* `Reads.peek`, `Reads.copy` — one cell, and the cells of a subrange.
* `Reads.Local` — unread cells do not matter.
-/

namespace Calabash

/-- A computation over an object of `β`-cells: its outcome, and one more than the
highest index it read. -/
def Reads (β ε α : Type) := List β → Except ε α × ℕ

namespace Reads
variable {β ε α γ : Type}

/-- What the computation ends in. -/
def result (x : Reads β ε α) (mem : List β) : Except ε α := (x mem).1

/-- One more than the highest index read; zero when nothing was read. -/
def reach (x : Reads β ε α) (mem : List β) : ℕ := (x mem).2

/-- Return a value without reading. -/
def pure (a : α) : Reads β ε α := fun _ => (.ok a, 0)

/-- Run the continuation on the same object; a fault ends the computation. -/
def bind (x : Reads β ε α) (f : α → Reads β ε γ) : Reads β ε γ := fun mem =>
  match x mem with
  | (.ok a, n) => (((f a) mem).1, max n ((f a) mem).2)
  | (.error e, n) => (.error e, n)

instance : Monad (Reads β ε) where
  pure := pure
  bind := bind

/-- End in a fault without reading. -/
def throw (e : ε) : Reads β ε α := fun _ => (.error e, 0)

/-- An outcome computed away from the object. -/
def lift (r : Except ε α) : Reads β ε α := fun _ => (r, 0)

@[simp] theorem run_pure (a : α) (mem : List β) :
    (Pure.pure a : Reads β ε α) mem = (.ok a, 0) := rfl
@[simp] theorem run_throw (e : ε) (mem : List β) :
    (throw e : Reads β ε α) mem = (.error e, 0) := rfl
@[simp] theorem run_lift (r : Except ε α) (mem : List β) :
    (lift r : Reads β ε α) mem = (r, 0) := rfl

theorem run_bind_ok {x : Reads β ε α} {mem : List β} {a : α} {n : ℕ}
    (h : x mem = (.ok a, n)) (f : α → Reads β ε γ) :
    (x >>= f) mem = ((f a mem).1, max n (f a mem).2) := by
  change bind x f mem = _
  simp [bind, h]

theorem run_bind_error {x : Reads β ε α} {mem : List β} {e : ε} {n : ℕ}
    (h : x mem = (.error e, n)) (f : α → Reads β ε γ) :
    (x >>= f) mem = (.error e, n) := by
  change bind x f mem = _
  simp [bind, h]

theorem bind_assoc {δ : Type} (x : Reads β ε α) (f : α → Reads β ε γ) (g : γ → Reads β ε δ) :
    (x >>= f) >>= g = x >>= fun a => f a >>= g := by
  funext mem
  rcases hx : x mem with ⟨e | a, n⟩
  · rw [run_bind_error (run_bind_error hx f), run_bind_error hx]
  · rw [run_bind_ok hx]
    rcases hf : f a mem with ⟨e | c, m⟩
    · have hxf : (x >>= f) mem = (.error e, max n m) := by rw [run_bind_ok hx, hf]
      rw [run_bind_error hxf, run_bind_error hf]
    · have hxf : (x >>= f) mem = (.ok c, max n m) := by rw [run_bind_ok hx, hf]
      rw [run_bind_ok hxf, run_bind_ok hf, max_assoc]

/-- Sequencing never forgets a read. -/
theorem reach_le_bind (x : Reads β ε α) (f : α → Reads β ε γ) (mem : List β) :
    (x mem).2 ≤ ((x >>= f) mem).2 := by
  rcases h : x mem with ⟨e | a, n⟩
  · rw [run_bind_error h]
  · rw [run_bind_ok h]
    exact le_max_left _ _

/-- A sequence that ends in a value passed through a value of its first part. -/
theorem bind_eq_ok {x : Reads β ε α} {f : α → Reads β ε γ} {mem : List β} {c : γ}
    (h : ((x >>= f) mem).1 = .ok c) :
    ∃ a n, x mem = (.ok a, n) ∧ (f a mem).1 = .ok c ∧
      ((x >>= f) mem).2 = max n (f a mem).2 := by
  rcases hx : x mem with ⟨e | a, n⟩
  · rw [run_bind_error hx] at h
    cases h
  · rw [run_bind_ok hx] at h ⊢
    exact ⟨a, n, rfl, h, rfl⟩

/-! ## The scanning loop -/

/-- The loop on the cells from `i` on: stop at `stop`, or at the first cell that
fails `p`; running off the object is the fault `e`. -/
def scanFrom (e : ε) (p : β → Bool) (stop : Option ℕ) : List β → ℕ → Except ε ℕ × ℕ
  | [], i => if stop = some i then (.ok i, 0) else (.error e, i + 1)
  | c :: cs, i =>
    if stop = some i then (.ok i, 0)
    else if p c then
      ((scanFrom e p stop cs (i + 1)).1, max (i + 1) (scanFrom e p stop cs (i + 1)).2)
    else (.ok i, i + 1)

/-- `while (ptr != stop && p(*ptr)) ptr++`, from index `i`; `stop = none` is a
null end pointer, which no index equals. -/
def scanWhile (e : ε) (p : β → Bool) (stop : Option ℕ) (i : ℕ) : Reads β ε ℕ :=
  fun mem => scanFrom e p stop (mem.drop i) i

/-- `scanFrom` without an end pointer stops at the first cell that fails `p`. -/
theorem scanFrom_append {e : ε} {p : β → Bool} {w : List β} (hw : ∀ c ∈ w, p c = true)
    {d : β} (hd : p d = false) (r : List β) (i : ℕ) :
    scanFrom e p none (w ++ d :: r) i = (.ok (i + w.length), i + w.length + 1) := by
  induction w generalizing i with
  | nil => simp [scanFrom, hd]
  | cons c w ih =>
    have hc : p c = true := hw c List.mem_cons_self
    have ht := ih (fun x hx => hw x (List.mem_cons_of_mem _ hx)) (i + 1)
    simp only [List.cons_append, scanFrom, hc, if_true, ht, List.length_cons, reduceCtorEq,
      if_false, Prod.mk.injEq, Except.ok.injEq]
    omega

/-- `scanFrom` without an end pointer runs off an object all of whose cells pass. -/
theorem scanFrom_overrun {e : ε} {p : β → Bool} {w : List β} (hw : ∀ c ∈ w, p c = true)
    (i : ℕ) : scanFrom e p none w i = (.error e, i + w.length + 1) := by
  induction w generalizing i with
  | nil => simp [scanFrom]
  | cons c w ih =>
    have hc : p c = true := hw c List.mem_cons_self
    have ht := ih (fun x hx => hw x (List.mem_cons_of_mem _ hx)) (i + 1)
    simp only [scanFrom, hc, if_true, ht, List.length_cons, reduceCtorEq, if_false,
      Prod.mk.injEq, true_and]
    omega

theorem scanWhile_eq {e : ε} {p : β → Bool} {mem w r : List β} {d : β} {i : ℕ}
    (hmem : mem.drop i = w ++ d :: r) (hw : ∀ c ∈ w, p c = true) (hd : p d = false) :
    scanWhile e p none i mem = (.ok (i + w.length), i + w.length + 1) := by
  rw [scanWhile, hmem, scanFrom_append hw hd]

theorem scanWhile_overrun {e : ε} {p : β → Bool} {mem : List β} {i : ℕ}
    (h : ∀ c ∈ mem.drop i, p c = true) :
    scanWhile e p none i mem = (.error e, i + (mem.length - i) + 1) := by
  rw [scanWhile, scanFrom_overrun h, List.length_drop]

/-- Either every cell of a list passes, or there is a first one that fails. -/
theorem exists_split (p : β → Bool) (l : List β) :
    (∀ c ∈ l, p c = true) ∨
      ∃ w d r, l = w ++ d :: r ∧ (∀ c ∈ w, p c = true) ∧ p d = false := by
  induction l with
  | nil => exact .inl (by simp)
  | cons c l ih =>
    cases hc : p c with
    | false => exact .inr ⟨[], c, l, by simp, by simp, hc⟩
    | true =>
      rcases ih with h | ⟨w, d, r, rfl, hw, hd⟩
      · exact .inl (by simpa [hc] using h)
      · exact .inr ⟨c :: w, d, r, by simp, by simpa [hc] using hw, hd⟩

/-! ## Single cells and subranges -/

/-- The cell at index `i`. -/
def peek (e : ε) (i : ℕ) : Reads β ε β := fun mem =>
  match mem[i]? with
  | some c => (.ok c, i + 1)
  | none => (.error e, i + 1)

theorem peek_eq {e : ε} {mem r : List β} {d : β} {i : ℕ} (hmem : mem.drop i = d :: r) :
    peek e i mem = (.ok d, i + 1) := by
  have hget : mem[i]? = some d := by
    rw [← List.head?_drop, hmem]
    rfl
  simp only [peek, hget]

/-- The `len` cells from index `i` on, all of which are read. -/
def copy (e : ε) (i len : ℕ) : Reads β ε (List β) := fun mem =>
  if i + len ≤ mem.length then (.ok ((mem.drop i).take len), i + len)
  else (.error e, mem.length + 1)

theorem copy_eq {e : ε} {mem w r : List β} {i : ℕ} (hmem : mem.drop i = w ++ r)
    (hi : i ≤ mem.length) : copy e i w.length mem = (.ok w, i + w.length) := by
  have hlen : mem.length - i = w.length + r.length := by
    rw [← List.length_drop, hmem, List.length_append]
  have hin : i + w.length ≤ mem.length := by omega
  simp [copy, hin, hmem]

/-! ## Locality -/

/-- Cells that were not read do not matter: a run that stays inside its object
is unchanged when the object is extended, and a run that leaves it also leaves
that prefix of every extension. -/
def Local (x : Reads β ε α) : Prop :=
  ∀ mem more : List β,
    ((x mem).2 ≤ mem.length → x (mem ++ more) = x mem) ∧
      (mem.length < (x mem).2 → mem.length < (x (mem ++ more)).2)

theorem local_pure (a : α) : Local (Pure.pure a : Reads β ε α) :=
  fun _ _ => ⟨fun _ => rfl, fun h => h⟩

theorem local_throw (e : ε) : Local (throw e : Reads β ε α) :=
  fun _ _ => ⟨fun _ => rfl, fun h => h⟩

theorem local_lift (r : Except ε α) : Local (lift r : Reads β ε α) :=
  fun _ _ => ⟨fun _ => rfl, fun h => h⟩

theorem Local.bind {x : Reads β ε α} {f : α → Reads β ε γ} (hx : Local x)
    (hf : ∀ a, Local (f a)) : Local (x >>= f) := by
  intro mem more
  rcases hrun : x mem with ⟨e | a, n⟩
  · rw [run_bind_error hrun]
    refine ⟨fun hn => ?_, fun hn => ?_⟩
    · have hsame : x (mem ++ more) = (.error e, n) := by
        rw [(hx mem more).1 (by rw [hrun]; exact hn), hrun]
      exact run_bind_error hsame f
    · exact lt_of_lt_of_le ((hx mem more).2 (by rw [hrun]; exact hn)) (reach_le_bind _ _ _)
  · rw [run_bind_ok hrun]
    by_cases hn : n ≤ mem.length
    · have hsame : x (mem ++ more) = (.ok a, n) := by
        rw [(hx mem more).1 (by rw [hrun]; exact hn), hrun]
      rw [run_bind_ok hsame]
      refine ⟨fun hm => ?_, fun hm => ?_⟩
      · rw [(hf a mem more).1 (le_trans (le_max_right _ _) hm)]
      · have hlt : mem.length < (f a mem).2 := by
          simp only [lt_max_iff] at hm
          omega
        exact lt_of_lt_of_le ((hf a mem more).2 hlt) (le_max_right _ _)
    · refine ⟨fun hm => absurd (le_trans (le_max_left _ _) hm) hn, fun _ => ?_⟩
      have hlt : mem.length < (x mem).2 := by
        rw [hrun]
        omega
      exact lt_of_lt_of_le ((hx mem more).2 hlt) (reach_le_bind _ _ _)

theorem local_scanWhile (e : ε) (p : β → Bool) (i : ℕ) : Local (scanWhile e p none i) := by
  intro mem more
  rcases exists_split p (mem.drop i) with hall | ⟨w, d, r, hsplit, hw, hd⟩
  · -- The run leaves `mem`; on the extension it passes the same cells at least.
    have hreach : mem.length < (scanWhile e p none i mem).2 := by
      rw [scanWhile_overrun hall]
      simp only
      omega
    refine ⟨fun h => absurd hreach (not_lt.mpr h), fun _ => ?_⟩
    by_cases hi : i ≤ mem.length
    · rcases exists_split p ((mem ++ more).drop i) with hall' | ⟨w', d', r', hsplit', hw', hd'⟩
      · rw [scanWhile_overrun hall']
        simp only [List.length_append]
        omega
      · rw [scanWhile_eq hsplit' hw' hd']
        have hlong : (mem.drop i).length ≤ w'.length := by
          by_contra hshort
          have hget : (mem.drop i ++ more)[w'.length]? = some d' := by
            rw [← List.drop_append_of_le_length hi, hsplit']
            simp
          rw [List.getElem?_append_left (by omega)] at hget
          have hmem := List.mem_of_getElem? hget
          rw [hall d' hmem] at hd'
          cases hd'
        rw [List.length_drop] at hlong
        simp only
        omega
    · -- The pointer itself is past the end: the loop reads at `i` or beyond.
      have hbig : i < (scanWhile e p none i (mem ++ more)).2 := by
        rcases exists_split p ((mem ++ more).drop i) with h' | ⟨w', d', r', h', hw', hd'⟩
        · rw [scanWhile_overrun h']
          simp only
          omega
        · rw [scanWhile_eq h' hw' hd']
          simp only
          omega
      omega
  · have hlen : i + w.length + 1 ≤ mem.length := by
      have := congrArg List.length hsplit
      simp only [List.length_drop, List.length_append, List.length_cons] at this
      omega
    have hext : (mem ++ more).drop i = w ++ d :: (r ++ more) := by
      rw [List.drop_append_of_le_length (by omega), hsplit]
      simp
    rw [scanWhile_eq hsplit hw hd, scanWhile_eq hext hw hd]
    exact ⟨fun _ => rfl, fun h => h⟩

theorem local_peek (e : ε) (i : ℕ) : Local (peek e i : Reads β ε β) := by
  intro mem more
  by_cases hi : i < mem.length
  · have hsame : peek e i (mem ++ more) = peek e i mem := by
      simp only [peek, List.getElem?_append_left hi]
    rw [hsame]
    exact ⟨fun _ => rfl, fun h => h⟩
  · have hreach : ∀ m : List β, (peek e i m).2 = i + 1 := by
      intro m
      simp only [peek]
      split <;> rfl
    rw [hreach, hreach]
    exact ⟨fun h => absurd h (by omega), fun h => h⟩

theorem local_copy (e : ε) (i len : ℕ) : Local (copy e i len : Reads β ε (List β)) := by
  intro mem more
  by_cases hin : i + len ≤ mem.length
  · have htake : ((mem ++ more).drop i).take len = (mem.drop i).take len := by
      rw [List.drop_append_of_le_length (by omega), List.take_append_of_le_length]
      rw [List.length_drop]
      omega
    have hin' : i + len ≤ (mem ++ more).length := by
      rw [List.length_append]
      omega
    have hsame : copy e i len (mem ++ more) = copy e i len mem := by
      simp only [copy, if_pos hin, if_pos hin', htake]
    rw [hsame]
    exact ⟨fun _ => rfl, fun h => h⟩
  · simp only [copy, if_neg hin]
    refine ⟨fun h => absurd h (by omega), fun _ => ?_⟩
    split
    · simp only
      omega
    · simp only [List.length_append]
      omega

/-- Two extensions of a prefix that the run on the prefix never leaves give the
same run. -/
theorem Local.extend_eq {x : Reads β ε α} (hx : Local x) {mem : List β}
    (hin : (x mem).2 ≤ mem.length) (more : List β) : x (mem ++ more) = x mem :=
  (hx mem more).1 hin

/-- A run on an extension that stays inside the prefix is the run on the prefix. -/
theorem Local.prefix_eq {x : Reads β ε α} (hx : Local x) {mem more : List β}
    (hin : (x (mem ++ more)).2 ≤ mem.length) : x mem = x (mem ++ more) := by
  by_cases h : (x mem).2 ≤ mem.length
  · exact ((hx mem more).1 h).symm
  · exact absurd hin (not_le.mpr ((hx mem more).2 (not_le.mp h)))

end Reads
end Calabash
