import Calabash.Database.Statement
import Calabash.Lib.Transition

/-!
# `Sqlite3`

`CallCompiledSQL` on one name: every thread binds, steps, reads and resets the one
statement that `sql_map_` has under it. Each call of the C interface is a step of the
system; so is each column that `FmtData` reads.
-/

namespace Calabash

open Sqlite

/-- `Sqlite3Data`, with `type` as the constructor sqlite gives. -/
inductive DataType
  | integer
  | double
  | blob
  | null
  | text
  deriving DecidableEq, Repr

structure Sqlite3Data where
  textData : List UInt8
  doubleData : UInt64
  intData : Int32
  type : DataType
  deriving DecidableEq, Repr

/-- `FmtData` of a column with this value; `sqlite3_column_int` keeps the low 32 bits. -/
def Sqlite3.fmtData : Value → Sqlite3Data
  | .null => ⟨[], 0, 0, .null⟩
  | .integer v => ⟨[], 0, v.toInt32, .integer⟩
  | .real bits => ⟨[], bits, 0, .double⟩
  | .text bytes => ⟨bytes, 0, 0, .text⟩
  | .blob bytes => ⟨bytes, 0, 0, .blob⟩

/-- An argument of `CallCompiledSQL`, by its overload of `BindCompiledSQLParam`. -/
inductive Sqlite3.Arg
  | int (v : Int32)
  | double (bits : UInt64)
  | string (bytes : List UInt8)
  | pointer (isNull : Bool)
  deriving DecidableEq, Repr

namespace Sqlite3

/-- The text that `sqlite3_bind_text` takes from a string: the size goes through an `int`,
and a negative one means up to the first NUL. -/
def boundText (bytes : List UInt8) : List UInt8 :=
  let n := (BitVec.ofNat 32 bytes.length).toInt
  if n < 0 then bytes.takeWhile (· ≠ 0) else bytes.take n.toNat

/-- The value that the argument binds; a pointer that is not null binds nothing. -/
def Arg.value? : Arg → Option Value
  | .int v => some (.integer v.toInt64)
  | .double bits => some (.real bits)
  | .string bytes => some (.text (boundText bytes))
  | .pointer isNull => if isNull then some .null else none

abbrev Row := List Sqlite3Data

/-- Where a thread is in `CallCompiledSQL`. -/
inductive Pc
  /-- Not in it. -/
  | idle
  /-- The first `done` arguments are bound. -/
  | binding (args : List Arg) (done : ℕ)
  /-- In the loop of `GetDataFromStmt`, in front of `sqlite3_step`. -/
  | stepping (args : List Arg) (rows : List Row)
  /-- In the loop over the columns. -/
  | reading (args : List Arg) (rows : List Row) (row : Row)
  /-- In front of `sqlite3_reset`. -/
  | resetting (args : List Arg) (rows : List Row)
  deriving DecidableEq, Repr

/-- Whether the thread is between its first call of the C interface and its last. -/
def Pc.busy : Pc → Bool
  | .idle | .binding _ 0 => false
  | _ => true

/-- A thread calls `CallCompiledSQL`, uses the C interface, or gets its rows. -/
inductive Event (T : Type)
  | call (t : T) (args : List Arg)
  | api (t : T)
  | finish (t : T) (args : List Arg) (rows : List Row)
  deriving DecidableEq

end Sqlite3

/-- The statement, the database, and where each thread is. -/
structure Sqlite3 (T : Type) {D V : Type} (p : Program D V) where
  stmt : Statement p
  db : D
  thread : T → Sqlite3.Pc

namespace Sqlite3
variable {T D V : Type} [DecidableEq T] {p : Program D V}

open Function (update)

/-- The arguments and the rows with which a thread can call `sqlite3_step`: the first time
when everything is bound. -/
def Pc.steps? : Pc → Option (List Arg × List Row)
  | .binding args done => if done = args.length then some (args, []) else none
  | .stepping args rows => some (args, rows)
  | _ => none

/-- `GetDataFromStmt` behind `sqlite3_step`: an error loses the rows read so far. -/
def afterStep (args : List Arg) (rows : List Row) : Progress V → Pc
  | .row _ => .reading args rows []
  | .done => .resetting args rows
  | .error => .resetting args []

inductive Step (σ : Sqlite3 T p) : Event T → Sqlite3 T p → Prop
  | call (t : T) (args : List Arg) : σ.thread t = .idle →
      Step σ (.call t args) { σ with thread := update σ.thread t (.binding args 0) }
  | bind (t : T) (args : List Arg) (done : ℕ) (a : Arg) : σ.thread t = .binding args done →
      args[done]? = some a →
      Step σ (.api t) { σ with
        stmt := a.value?.elim σ.stmt fun v => σ.stmt.bind (done + 1) v
        thread := update σ.thread t (.binding args (done + 1)) }
  | step (t : T) (args : List Arg) (rows : List Row) (answer : Progress V) (stmt : Statement p)
      (db : D) : (σ.thread t).steps? = some (args, rows) → σ.stmt.step σ.db = (answer, stmt, db) →
      Step σ (.api t) ⟨stmt, db, update σ.thread t (afterStep args rows answer)⟩
  | read (t : T) (args : List Arg) (rows : List Row) (row : Row) :
      σ.thread t = .reading args rows row → row.length < p.columns →
      Step σ (.api t) { σ with
        thread := update σ.thread t
          (.reading args rows (row ++ [fmtData (σ.stmt.column row.length)])) }
  | push (t : T) (args : List Arg) (rows : List Row) (row : Row) :
      σ.thread t = .reading args rows row → row.length = p.columns →
      Step σ (.api t) { σ with thread := update σ.thread t (.stepping args (rows ++ [row])) }
  | reset (t : T) (args : List Arg) (rows : List Row) : σ.thread t = .resetting args rows →
      Step σ (.finish t args rows) { σ with
        stmt := σ.stmt.reset, thread := update σ.thread t .idle }

/-- Any number of threads on a statement that has just been compiled, and a database. -/
def system (T : Type) [DecidableEq T] (p : Program D V) (d : D) :
    System (Sqlite3 T p) (Event T) where
  init σ := σ = ⟨.prepared p, d, fun _ => .idle⟩
  step := Step

end Sqlite3

end Calabash
