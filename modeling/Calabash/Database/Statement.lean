import Mathlib.Data.Fin.Basic
import Mathlib.Logic.Function.Basic

/-!
# Prepared statements of sqlite

What the C interface documents of `sqlite3_bind_*`, `sqlite3_step`, `sqlite3_column_*` and
`sqlite3_reset` on one statement: parameters keep their values through a reset, a statement
that has been stepped takes no new ones, a step runs the statement to its next row, and a
step after the last row starts over. How a query is run is a parameter, `Program`.
-/

namespace Calabash
namespace Sqlite

/-- The values of columns and parameters; a `double` is kept as its bits. -/
inductive Value
  | null
  | integer (v : Int64)
  | real (bits : UInt64)
  | text (bytes : List UInt8)
  | blob (bytes : List UInt8)
  deriving DecidableEq, Repr, Inhabited

/-- How a step of the virtual machine ends. -/
inductive Progress (V : Type)
  | row (v : V)
  | done
  | error

/-- A compiled query over databases `D`, with virtual machine states `V`. A value can be
too big to be bound (`SQLITE_TOOBIG`). -/
structure Program (D V : Type) where
  params : ℕ
  columns : ℕ
  accepts : Value → Bool
  start : (Fin params → Value) → V
  step : V → D → Progress V × D
  column : V → ℕ → Value

/-- Where a statement is: not stepped since its last reset, at a row, or at its end. -/
inductive Cursor (V : Type)
  | ready
  | row (v : V)
  | halted

variable {D V : Type}

def Cursor.isReady : Cursor V → Bool
  | ready => true
  | _ => false

structure Statement (p : Program D V) where
  bindings : Fin p.params → Value
  cursor : Cursor V

namespace Statement
variable {p : Program D V}

/-- A statement as `sqlite3_prepare_v2` makes it. -/
def prepared (p : Program D V) : Statement p := ⟨fun _ => .null, .ready⟩

/-- `sqlite3_bind_*`. It fails and changes nothing after a step without a reset
(`SQLITE_MISUSE`), at an index that is no parameter's (`SQLITE_RANGE`), and for a value
that is too big. -/
def bind (s : Statement p) (index : ℕ) (v : Value) : Statement p :=
  if h : s.cursor.isReady = true ∧ p.accepts v = true ∧ 1 ≤ index ∧ index ≤ p.params then
    { s with bindings := Function.update s.bindings ⟨index - 1, by omega⟩ v }
  else s

theorem bind_eq {s : Statement p} {index : ℕ} {v : Value} (hready : s.cursor = .ready)
    (hv : p.accepts v = true) (hpos : 1 ≤ index) (hle : index ≤ p.params) :
    s.bind index v =
      { s with bindings := Function.update s.bindings ⟨index - 1, by omega⟩ v } := by
  rw [bind, dif_pos ⟨by rw [hready]; rfl, hv, hpos, hle⟩]

theorem bind_of_params_lt {s : Statement p} {index : ℕ} (v : Value) (h : p.params < index) :
    s.bind index v = s := by
  rw [bind, dif_neg (by omega)]

/-- The virtual machine that the next step runs. -/
def machine (s : Statement p) : V :=
  match s.cursor with
  | .row v => v
  | .ready | .halted => p.start s.bindings

/-- `sqlite3_step`. -/
def step (s : Statement p) (d : D) : Progress V × Statement p × D :=
  match p.step s.machine d with
  | (.row v', d') => (.row v', { s with cursor := .row v' }, d')
  | (.done, d') => (.done, { s with cursor := .halted }, d')
  | (.error, d') => (.error, { s with cursor := .halted }, d')

/-- `sqlite3_column_*`; without a row a column is null. -/
def column (s : Statement p) (index : ℕ) : Value :=
  match s.cursor with
  | .row v => p.column v index
  | .ready | .halted => .null

/-- `sqlite3_reset`. -/
def reset (s : Statement p) : Statement p := { s with cursor := .ready }

end Statement

end Sqlite

end Calabash
