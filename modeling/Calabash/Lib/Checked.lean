import Mathlib.Data.List.Basic

/-!
# Accesses that are checked

Arrays as lists, with an access behind the end as an error. A computation of such accesses that
ends in a value has stayed inside its arrays, and as long as the indices are in bounds it is the
computation without the checks.

## Main definitions

* `Checked.get`, `Checked.modify` — one cell read, and one replaced.
* `Checked.window` — consecutive cells read.
* `Checked.foldlM_eq` — a loop whose passes succeed.
-/

namespace Calabash
namespace Checked

variable {α β ε : Type}

/-- `a[i]`. -/
def get (e : ε) (l : List α) (i : ℕ) : Except ε α :=
  match l[i]? with
  | some x => .ok x
  | none => .error e

/-- `a[i] = f(a[i])`. -/
def modify (e : ε) (l : List α) (i : ℕ) (f : α → α) : Except ε (List α) :=
  if i < l.length then .ok (l.modify i f) else .error e

/-- The `n` cells from `i` on, one after the other. -/
def window (e : ε) (l : List α) (i n : ℕ) : Except ε (List α) :=
  (List.range n).mapM fun j => get e l (i + j)

@[simp] theorem ok_bind (a : α) (f : α → Except ε β) : (Except.ok a >>= f) = f a := rfl

/-- A computation that ends in a value has come through its first part. -/
theorem bind_eq_ok {x : Except ε α} {f : α → Except ε β} {b : β} :
    (x >>= f) = .ok b ↔ ∃ a, x = .ok a ∧ f a = .ok b := by
  cases x with
  | error e => simp [bind, Except.bind]
  | ok a => simp [bind, Except.bind]

theorem get_eq (e : ε) {l : List α} {i : ℕ} (h : i < l.length) : get e l i = .ok l[i] := by
  rw [get, List.getElem?_eq_getElem h]

theorem modify_eq (e : ε) {l : List α} {i : ℕ} (h : i < l.length) (f : α → α) :
    modify e l i f = .ok (l.modify i f) := if_pos h

/-- The loop whose passes all succeed. -/
theorem foldlM_eq {f : β → α → Except ε β} {g : β → α → β} {l : List α}
    (h : ∀ b, ∀ a ∈ l, f b a = .ok (g b a)) (b : β) : l.foldlM f b = .ok (l.foldl g b) := by
  induction l generalizing b with
  | nil => rfl
  | cons a l ih =>
    rw [List.foldlM_cons, h b a List.mem_cons_self, List.foldl_cons]
    exact ih (fun b x hx => h b x (List.mem_cons_of_mem _ hx)) _

/-- A window that is inside. -/
theorem window_eq (e : ε) {l : List α} {i n : ℕ} (h : i + n ≤ l.length) :
    window e l i n = .ok ((l.drop i).take n) := by
  induction n with
  | zero => rfl
  | succ n ih =>
    have hlast : (l.drop i)[n]? = some l[i + n] := by
      rw [List.getElem?_drop, List.getElem?_eq_getElem (by omega)]
    have hwindow : (List.range n).mapM (fun j => get e l (i + j)) = .ok ((l.drop i).take n) :=
      ih (by omega)
    rw [window, List.range_succ, List.mapM_append, hwindow, List.take_add_one, hlast,
      List.mapM_cons, get_eq e (by omega)]
    rfl

end Checked
end Calabash
