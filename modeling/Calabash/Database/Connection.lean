import Calabash.Database.Registry
import Mathlib.Data.List.Sort

/-!
# The life of a `Sqlite3`

A `Sqlite3` from its constructor to its destructor, with the log that can throw between two calls
of the C interface. A `sqlite3_stmt *` is the number of its preparation; sqlite keeps what was not
finalized, and `sqlite3_close` fails as long as it keeps anything.

## Main results

* `owns_run` — what each member function does to the statements that sqlite keeps.
* `closes_iff` — which lives end with a database that is closed.
-/

namespace Calabash
namespace Sqlite3

open Sqlite
open Function (update)

/-- A statement as sqlite keeps it, and whether its last step failed. -/
structure Held (D V : Type) where
  prepared : Prepared D V
  failed : Bool

/-- What ends a member function before it returns. -/
inductive Fault
  /-- The log throws. -/
  | log
  /-- A finalized statement is used. -/
  | finalized
  /-- It has not returned within the bound. -/
  | running

/-- The members and what sqlite keeps for them; `prepared` statements were made so far, and
`lines` log lines were asked for. -/
structure Connection (D V : Type) where
  sqlMap : List (Bytes × Option ℕ)
  stmts : ℕ → Option (Held D V)
  prepared : ℕ
  db : D
  lines : ℕ

/-- Code that uses the connection. -/
abbrev Run (D V α : Type) := ExceptT Fault (StateM (Connection D V)) α

variable {D V α β : Type}

namespace Connection

/-! ## The C interface -/

/-- `sqlite3_prepare_v2`: whether it answers `SQLITE_OK`, and `sql_res`. -/
def prepareV2 (c : Compiled D V) : Run D V (Bool × Option ℕ) := fun σ =>
  match c with
  | .error => (.ok (false, none), σ)
  | .empty => (.ok (true, none), σ)
  | .statement p => (.ok (true, some σ.prepared), { σ with
      stmts := update σ.stmts σ.prepared (some ⟨⟨p, .prepared p⟩, false⟩)
      prepared := σ.prepared + 1 })

theorem prepareV2_statement (p : Program D V) (σ : Connection D V) :
    prepareV2 (.statement p) σ = (.ok (true, some σ.prepared), { σ with
      stmts := update σ.stmts σ.prepared (some ⟨⟨p, .prepared p⟩, false⟩)
      prepared := σ.prepared + 1 }) := rfl

/-- A call with a statement, which is not to be a finalized one. -/
def onStmt (k : ℕ) (f : Held D V → D → α × Held D V × D) : Run D V α := fun σ =>
  match σ.stmts k with
  | none => (.error .finalized, σ)
  | some s => (.ok (f s σ.db).1, { σ with
      stmts := update σ.stmts k (some (f s σ.db).2.1), db := (f s σ.db).2.2 })

/-- `sqlite3_bind_*`; a null statement is `SQLITE_MISUSE`. -/
def bind (stmt : Option ℕ) (index : ℕ) (v : Value) : Run D V Bool :=
  match stmt with
  | none => pure false
  | some k => onStmt k fun s d =>
    (s.prepared.stmt.cursor.isReady && s.prepared.program.accepts v && decide (1 ≤ index) &&
        decide (index ≤ s.prepared.program.params),
      { s with prepared := { s.prepared with stmt := s.prepared.stmt.bind index v } }, d)

/-- `sqlite3_step`, and `FmtData` of every column of a row. -/
def step (stmt : Option ℕ) : Run D V (Progress Row) :=
  match stmt with
  | none => pure .error
  | some k => onStmt k fun s d =>
    match s.prepared.stmt.step d with
    | (.row _, stmt, d) => (.row ((List.range s.prepared.program.columns).map fun i =>
        fmtData (stmt.column i)), ⟨{ s.prepared with stmt := stmt }, false⟩, d)
    | (.done, stmt, d) => (.done, ⟨{ s.prepared with stmt := stmt }, false⟩, d)
    | (.error, stmt, d) => (.error, ⟨{ s.prepared with stmt := stmt }, true⟩, d)

/-- `sqlite3_reset` answers with the error of the last step; a null statement has none. -/
def reset (stmt : Option ℕ) : Run D V Bool :=
  match stmt with
  | none => pure true
  | some k => onStmt k fun s d =>
    (!s.failed, ⟨{ s.prepared with stmt := s.prepared.stmt.reset }, false⟩, d)

/-- `sqlite3_finalize`, likewise. -/
def finalize (stmt : Option ℕ) : Run D V Bool :=
  match stmt with
  | none => pure true
  | some k => fun σ =>
    match σ.stmts k with
    | none => (.error .finalized, σ)
    | some s => (.ok (!s.failed), { σ with stmts := update σ.stmts k none })

/-- `sqlite3_close`, which fails while there are statements. -/
def close : Run D V Bool := fun σ =>
  (.ok ((List.range σ.prepared).all fun k => (σ.stmts k).isNone), σ)

/-! ## `Sqlite3` -/

variable (logs : ℕ → Bool)

/-- A line for the log. -/
def log : Run D V Unit := fun σ =>
  (if logs σ.lines then .ok () else .error .log, { σ with lines := σ.lines + 1 })

/-- The line for an answer that is not `SQLITE_OK`. -/
def logUnless (ok : Bool) : Run D V Unit := if ok then pure () else log logs

/-- The first call of `BindCompiledSQLParam`; a pointer that is not null calls nothing. -/
def bindArg (stmt : Option ℕ) (index : ℕ) (a : Arg) : Run D V Bool :=
  match a.value? with
  | none => pure true
  | some v => bind stmt index v

/-- `BindCompiledSQLParam`, from the parameter `index` on. -/
def bindCompiledSQLParam (stmt : Option ℕ) (index : ℕ) : List Arg → Run D V Unit
  | [] => pure ()
  | a :: args => do
    let bound ← bindArg stmt index a
    logUnless logs bound
    bindCompiledSQLParam stmt (index + 1) args

/-- `GetDataFromStmt` with the rows so far. -/
def getDataFromStmt : ℕ → Option ℕ → List Row → Run D V (List Row)
  | 0, _, _ => throw .running
  | fuel + 1, stmt, ret => do
    match ← step stmt with
    | .row column => getDataFromStmt fuel stmt (ret ++ [column])
    | .done => return ret
    | .error =>
      log logs
      return []

/-- `SQL`, with `CompileSQL`. -/
def sql (fuel : ℕ) (c : Compiled D V) : Run D V (List Row) := do
  let (ok, sqlProgram) ← prepareV2 c
  logUnless logs ok
  match sqlProgram with
  | none => return []
  | some k =>
    let ret ← getDataFromStmt logs fuel (some k) []
    let deleted ← finalize (some k)
    logUnless logs deleted
    return ret

/-- `BindCompiledSQL`, which writes one line or the other. -/
def bindCompiledSQL (b : Bind D V) : Run D V Unit := do
  let (_, sqlRes) ← prepareV2 b.sql
  log logs
  modify fun σ => { σ with sqlMap := σ.sqlMap ++ [(b.sqlName, sqlRes)] }

/-- `CallCompiledSQL`, with one line or the other at its end. -/
def callCompiledSQL (fuel : ℕ) (sqlName : Bytes) (args : List Arg) : Run D V (List Row) := do
  match (← get).sqlMap.find? fun e => e.1 == sqlName with
  | none =>
    log logs
    return []
  | some (_, stmt) =>
    bindCompiledSQLParam logs stmt 1 args
    let res ← getDataFromStmt logs fuel stmt []
    let _ ← reset stmt
    log logs
    return res

/-- The loop of the destructor. What the log throws here ends the program. -/
def finalizeAll : List (Bytes × Option ℕ) → Run D V Unit
  | [] => pure ()
  | e :: entries => do
    let deleted ← finalize e.2
    logUnless logs deleted
    finalizeAll entries

/-- The destructor up to the answer of `sqlite3_close`; the multimap is in the order of its keys. -/
def destroy : Run D V Bool := do
  finalizeAll logs ((← get).sqlMap.mergeSort fun a b => decide (a.1 ≤ b.1))
  close

/-! ## Code that uses a statement -/

variable {logs}

theorem bind_ok {x : Run D V α} {f : α → Run D V β} {σ τ : Connection D V} {a : α}
    (h : x σ = (.ok a, τ)) : (x >>= f) σ = f a τ := by
  simp only [Bind.bind, ExceptT.bind, ExceptT.mk, StateT.bind, h]
  rfl

theorem bind_error {x : Run D V α} {f : α → Run D V β} {σ τ : Connection D V} {e : Fault}
    (h : x σ = (.error e, τ)) : (x >>= f) σ = (.error e, τ) := by
  simp only [Bind.bind, ExceptT.bind, ExceptT.mk, StateT.bind, h]
  rfl

/-- The same statements are kept, whatever was done with them. -/
structure Frame (σ τ : Connection D V) : Prop where
  sqlMap : τ.sqlMap = σ.sqlMap
  prepared : τ.prepared = σ.prepared
  kept : ∀ k, (τ.stmts k).isSome = (σ.stmts k).isSome

theorem Frame.refl (σ : Connection D V) : Frame σ σ := ⟨rfl, rfl, fun _ => rfl⟩

theorem Frame.trans {σ τ υ : Connection D V} (h : Frame σ τ) (h' : Frame τ υ) : Frame σ υ :=
  ⟨h'.sqlMap.trans h.sqlMap, h'.prepared.trans h.prepared,
    fun k => (h'.kept k).trans (h.kept k)⟩

/-- A pointer is null or to a statement that sqlite keeps. -/
def Valid (σ : Connection D V) (stmt : Option ℕ) : Prop :=
  ∀ k, stmt = some k → (σ.stmts k).isSome = true

theorem Frame.valid {σ τ : Connection D V} (h : Frame σ τ) {stmt : Option ℕ} (hv : σ.Valid stmt) :
    τ.Valid stmt := fun k hk => (h.kept k).trans (hv k hk)

/-- Code that uses at most this statement and finalizes none. -/
def Uses (stmt : Option ℕ) (x : Run D V α) : Prop :=
  ∀ σ, σ.Valid stmt → Frame σ (x σ).2 ∧ (x σ).1 ≠ .error .finalized

theorem uses_pure (stmt : Option ℕ) (a : α) : Uses stmt (pure a : Run D V α) :=
  fun σ _ => ⟨.refl σ, nofun⟩

theorem Uses.bind {stmt : Option ℕ} {x : Run D V α} {f : α → Run D V β} (hx : Uses stmt x)
    (hf : ∀ a, Uses stmt (f a)) : Uses stmt (x >>= f) := by
  intro σ hσ
  obtain ⟨hframe, hfault⟩ := hx σ hσ
  rcases hrun : x σ with ⟨_ | a, τ⟩
  · rw [bind_error hrun]
    rw [hrun] at hframe hfault
    exact ⟨hframe, fun heq => hfault (by cases heq; rfl)⟩
  · rw [hrun] at hframe
    obtain ⟨hnext, hnone⟩ := hf a τ (hframe.valid hσ)
    rw [bind_ok hrun]
    exact ⟨hframe.trans hnext, hnone⟩

theorem uses_onStmt (k : ℕ) (f : Held D V → D → α × Held D V × D) :
    Uses (some k) (onStmt k f) := by
  intro σ hσ
  obtain ⟨s, hs⟩ := Option.isSome_iff_exists.mp (hσ k rfl)
  simp only [onStmt, hs]
  refine ⟨⟨rfl, rfl, fun j => ?_⟩, nofun⟩
  by_cases hj : j = k
  · subst hj
    simp [hs]
  · simp [hj]

theorem uses_bindArg (stmt : Option ℕ) (index : ℕ) (a : Arg) :
    Uses stmt (bindArg stmt index a : Run D V Bool) := by
  rw [bindArg]
  cases a.value? with
  | none => exact uses_pure stmt true
  | some v =>
    cases stmt with
    | none => exact uses_pure none false
    | some k => exact uses_onStmt k _

theorem uses_step (stmt : Option ℕ) : Uses stmt (step stmt : Run D V (Progress Row)) := by
  cases stmt with
  | none => exact uses_pure none _
  | some k => exact uses_onStmt k _

theorem uses_reset (stmt : Option ℕ) : Uses stmt (reset stmt : Run D V Bool) := by
  cases stmt with
  | none => exact uses_pure none true
  | some k => exact uses_onStmt k _

theorem uses_log (stmt : Option ℕ) (logs : ℕ → Bool) : Uses stmt (log logs : Run D V Unit) := by
  intro σ _
  refine ⟨⟨rfl, rfl, fun _ => rfl⟩, ?_⟩
  rw [log]
  split <;> nofun

theorem uses_logUnless (stmt : Option ℕ) (logs : ℕ → Bool) (ok : Bool) :
    Uses stmt (logUnless logs ok : Run D V Unit) := by
  cases ok with
  | false => exact uses_log stmt logs
  | true => exact uses_pure stmt ()

theorem uses_bindCompiledSQLParam (logs : ℕ → Bool) (stmt : Option ℕ) (index : ℕ)
    (args : List Arg) : Uses stmt (bindCompiledSQLParam logs stmt index args : Run D V Unit) := by
  induction args generalizing index with
  | nil => exact uses_pure stmt ()
  | cons a args ih =>
    exact (uses_bindArg stmt index a).bind fun bound =>
      (uses_logUnless stmt logs bound).bind fun _ => ih (index + 1)

theorem uses_getDataFromStmt (logs : ℕ → Bool) (fuel : ℕ) (stmt : Option ℕ) (ret : List Row) :
    Uses stmt (getDataFromStmt logs fuel stmt ret : Run D V (List Row)) := by
  induction fuel generalizing ret with
  | zero => exact fun σ _ => ⟨.refl σ, nofun⟩
  | succ fuel ih =>
    refine (uses_step stmt).bind fun progress => ?_
    cases progress with
    | row column => exact ih _
    | done => exact uses_pure stmt ret
    | error => exact (uses_log stmt logs).bind fun _ => uses_pure stmt []

/-! ## The statements that are kept -/

/-- The statements in `sql_map_`. -/
def handles (entries : List (Bytes × Option ℕ)) : List ℕ := entries.filterMap Prod.snd

/-- sqlite keeps the statements of `sql_map_` and those that were lost, and no others. -/
structure Owns (σ : Connection D V) (lost : List ℕ) : Prop where
  once : (handles σ.sqlMap ++ lost).Nodup
  kept : ∀ k, (σ.stmts k).isSome = true ↔ k ∈ handles σ.sqlMap ++ lost
  known : ∀ k ∈ handles σ.sqlMap ++ lost, k < σ.prepared

namespace Owns
variable {σ τ : Connection D V} {lost : List ℕ}

theorem frame (H : σ.Owns lost) (h : Frame σ τ) : τ.Owns lost where
  once := by rw [h.sqlMap]; exact H.once
  kept k := by rw [h.sqlMap, h.kept k]; exact H.kept k
  known k hk := by
    rw [h.sqlMap] at hk
    rw [h.prepared]
    exact H.known k hk

theorem valid (H : σ.Owns lost) {e : Bytes × Option ℕ} (he : e ∈ σ.sqlMap) : σ.Valid e.2 :=
  fun k hk => (H.kept k).mpr (List.mem_append_left _ (List.mem_filterMap.mpr ⟨e, he, hk⟩))

/-- A new statement is in no place yet. -/
theorem prepare (H : σ.Owns lost) (s : Held D V) :
    Owns { σ with stmts := update σ.stmts σ.prepared (some s), prepared := σ.prepared + 1 }
      (σ.prepared :: lost) where
  once := by
    refine List.nodup_middle.mpr (List.nodup_cons.mpr ⟨fun hmem => ?_, H.once⟩)
    exact Nat.lt_irrefl _ (H.known _ hmem)
  kept k := by
    rw [List.perm_middle.mem_iff, List.mem_cons]
    by_cases hk : k = σ.prepared
    · simp [hk]
    · simp [hk, H.kept k]
  known k hk := by
    rcases List.mem_cons.mp (List.perm_middle.mem_iff.mp hk) with rfl | hk
    · exact Nat.lt_succ_self _
    · exact Nat.lt_succ_of_lt (H.known k hk)

theorem finalize {k : ℕ} (H : σ.Owns (k :: lost)) :
    Owns { σ with stmts := update σ.stmts k none } lost where
  once := (List.nodup_cons.mp (List.nodup_middle.mp H.once)).2
  kept j := by
    have hkept := H.kept j
    rw [List.perm_middle.mem_iff, List.mem_cons] at hkept
    by_cases hj : j = k
    · subst hj
      simpa using (List.nodup_cons.mp (List.nodup_middle.mp H.once)).1
    · simpa [hj] using hkept
  known j hj := H.known j (List.perm_middle.mem_iff.mpr (List.mem_cons_of_mem k hj))

/-- The map takes a statement over. -/
theorem insert {k : ℕ} (H : σ.Owns (k :: lost)) (sqlName : Bytes) :
    Owns { σ with sqlMap := σ.sqlMap ++ [(sqlName, some k)] } lost := by
  have hsame : handles (σ.sqlMap ++ [(sqlName, some k)]) ++ lost =
      handles σ.sqlMap ++ k :: lost := by
    simp [handles]
  exact ⟨hsame ▸ H.once, hsame ▸ H.kept, hsame ▸ H.known⟩

theorem insert_null (H : σ.Owns lost) (sqlName : Bytes) :
    Owns { σ with sqlMap := σ.sqlMap ++ [(sqlName, none)] } lost := by
  have hsame : handles (σ.sqlMap ++ [(sqlName, none)]) = handles σ.sqlMap := by
    simp [handles]
  exact ⟨hsame ▸ H.once, hsame ▸ H.kept, hsame ▸ H.known⟩

end Owns

/-! ## A statement that is run -/

/-- The steps of `GetDataFromStmt` end with an error. -/
def fails {p : Program D V} : ℕ → Statement p → D → Bool
  | 0, _, _ => false
  | fuel + 1, stmt, d =>
    match stmt.step d with
    | (.row _, stmt, d) => fails fuel stmt d
    | (.done, _, _) => false
    | (.error, _, _) => true

theorem log_bind (f : Unit → Run D V α) (σ : Connection D V) : (log logs >>= f) σ =
    if logs σ.lines then f () { σ with lines := σ.lines + 1 }
    else (.error .log, { σ with lines := σ.lines + 1 }) := by
  by_cases h : logs σ.lines = true
  · rw [if_pos h]
    exact bind_ok (by rw [log, if_pos h])
  · rw [if_neg h]
    exact bind_error (by rw [log, if_neg h])

section
variable {p : Program D V} {fuel : ℕ} {stmt stmt' : Statement p} {d d' : D} {ret rows : List Row}
  {σ : Connection D V} {k : ℕ} {failed : Bool}

theorem step_row (hs : σ.stmts k = some ⟨⟨p, stmt⟩, failed⟩) {v : V}
    (hstep : stmt.step σ.db = (.row v, stmt', d')) : step (some k) σ =
      (.ok (.row ((List.range p.columns).map fun i => fmtData (stmt'.column i))),
        { σ with stmts := update σ.stmts k (some ⟨⟨p, stmt'⟩, false⟩), db := d' }) := by
  simp only [step, onStmt, hs, hstep]

theorem step_done (hs : σ.stmts k = some ⟨⟨p, stmt⟩, failed⟩)
    (hstep : stmt.step σ.db = (.done, stmt', d')) : step (some k) σ = (.ok .done,
      { σ with stmts := update σ.stmts k (some ⟨⟨p, stmt'⟩, false⟩), db := d' }) := by
  simp only [step, onStmt, hs, hstep]

theorem step_error (hs : σ.stmts k = some ⟨⟨p, stmt⟩, failed⟩)
    (hstep : stmt.step σ.db = (.error, stmt', d')) : step (some k) σ = (.ok .error,
      { σ with stmts := update σ.stmts k (some ⟨⟨p, stmt'⟩, true⟩), db := d' }) := by
  simp only [step, onStmt, hs, hstep]

variable (logs) in
/-- On a statement that is kept, `GetDataFromStmt` does what it does on the statement. -/
theorem getDataFromStmt_eq (hs : σ.stmts k = some ⟨⟨p, stmt⟩, failed⟩)
    (hrun : Sqlite3.getDataFromStmt fuel stmt σ.db ret = some (rows, stmt', d')) :
    getDataFromStmt logs fuel (some k) ret σ =
      if fails fuel stmt σ.db then
        (if logs σ.lines then .ok rows else .error .log, { σ with
          stmts := update σ.stmts k (some ⟨⟨p, stmt'⟩, true⟩), db := d', lines := σ.lines + 1 })
      else (.ok rows, { σ with
        stmts := update σ.stmts k (some ⟨⟨p, stmt'⟩, false⟩), db := d' }) := by
  induction fuel generalizing stmt ret σ failed with
  | zero => cases hrun
  | succ fuel ih =>
    rw [Sqlite3.getDataFromStmt] at hrun
    rw [fails, getDataFromStmt]
    rcases hstep : stmt.step σ.db with ⟨v | _ | _, stmt₁, d₁⟩
    · simp only [hstep] at hrun
      have hnext := ih (σ := { σ with
        stmts := update σ.stmts k (some ⟨⟨p, stmt₁⟩, false⟩), db := d₁ })
        (Function.update_self k _ σ.stmts) hrun
      rw [bind_ok (step_row hs hstep)]
      simpa only [Function.update_idem] using hnext
    · simp only [hstep] at hrun
      rw [bind_ok (step_done hs hstep)]
      cases hrun
      rfl
    · simp only [hstep] at hrun
      rw [bind_ok (step_error hs hstep)]
      cases hrun
      simp only [if_true, log_bind]
      split <;> rfl

variable (logs) in
/-- And while that has not returned, neither has this. -/
theorem getDataFromStmt_none (hs : σ.stmts k = some ⟨⟨p, stmt⟩, failed⟩)
    (hrun : Sqlite3.getDataFromStmt fuel stmt σ.db ret = none) :
    (getDataFromStmt logs fuel (some k) ret σ).1 = .error .running := by
  induction fuel generalizing stmt ret σ failed with
  | zero => rfl
  | succ fuel ih =>
    rw [Sqlite3.getDataFromStmt] at hrun
    rw [getDataFromStmt]
    rcases hstep : stmt.step σ.db with ⟨v | _ | _, stmt₁, d₁⟩
    · simp only [hstep] at hrun
      rw [bind_ok (step_row hs hstep)]
      exact ih (Function.update_self k _ σ.stmts) hrun
    · simp only [hstep, reduceCtorEq] at hrun
    · simp only [hstep, reduceCtorEq] at hrun

end

end Connection

/-! ## Lives -/

/-- A call of a public member function. -/
inductive Op (D V : Type)
  | sql (c : Compiled D V)
  | bindCompiledSQL (b : Bind D V)
  | callCompiledSQL (sqlName : Bytes) (args : List Arg)

namespace Op

def run (logs : ℕ → Bool) (fuel : ℕ) : Op D V → Run D V (List Row)
  | sql c => Connection.sql logs fuel c
  | bindCompiledSQL b => do
    Connection.bindCompiledSQL logs b
    return []
  | callCompiledSQL sqlName args => Connection.callCompiledSQL logs fuel sqlName args

/-- The log throws where only the call has the statement: behind the preparation in
`BindCompiledSQL`, and when the steps of `SQL` end with an error. -/
def leaks (logs : ℕ → Bool) (fuel : ℕ) (σ : Connection D V) : Op D V → Bool
  | sql (.statement p) => Connection.fails fuel (.prepared p) σ.db && !logs σ.lines
  | bindCompiledSQL ⟨_, .statement _⟩ => !logs σ.lines
  | _ => false

end Op

/-- Calls one after the other on a `Sqlite3` that was constructed, with the statements that they
leaked. What is thrown may be caught. Other code uses the database and the log in between. -/
inductive Life (logs : ℕ → Bool) (d₀ : D) : List (Op D V) → List ℕ → Connection D V → Prop
  | opened (lines : ℕ) : Life logs d₀ [] [] ⟨[], fun _ => none, 0, d₀, lines⟩
  | call {ops : List (Op D V)} {lost : List ℕ} {σ : Connection D V} (op : Op D V) (fuel : ℕ) :
      Life logs d₀ ops lost σ → (op.run logs fuel σ).1 ≠ .error .running →
      Life logs d₀ (ops ++ [op]) (if op.leaks logs fuel σ then σ.prepared :: lost else lost)
        (op.run logs fuel σ).2
  | other {ops : List (Op D V)} {lost : List ℕ} {σ : Connection D V} (d : D) (lines : ℕ) :
      Life logs d₀ ops lost σ → Life logs d₀ ops lost { σ with db := d, lines := lines }

namespace Connection
variable {logs : ℕ → Bool} {σ : Connection D V} {lost : List ℕ}

/-- What a call makes of the statements that are kept. -/
def Settles (σ : Connection D V) (lost : List ℕ) (leaks : Bool)
    (r : Except Fault α × Connection D V) : Prop :=
  r.1 ≠ .error .finalized ∧
    (r.1 ≠ .error .running → r.2.Owns (if leaks then σ.prepared :: lost else lost))

theorem settles_uses {stmt : Option ℕ} {x : Run D V α} (hx : Uses stmt x) (hv : σ.Valid stmt)
    (H : σ.Owns lost) : Settles σ lost false (x σ) := by
  obtain ⟨hframe, hfault⟩ := hx σ hv
  exact ⟨hfault, fun _ => H.frame hframe⟩

theorem settles_callCompiledSQL (fuel : ℕ) (sqlName : Bytes) (args : List Arg) (H : σ.Owns lost) :
    Settles σ lost false (callCompiledSQL logs fuel sqlName args σ) := by
  have hget : (get : Run D V (Connection D V)) σ = (.ok σ, σ) := rfl
  rw [callCompiledSQL, bind_ok hget]
  cases hfind : σ.sqlMap.find? fun e => e.1 == sqlName with
  | none =>
    exact settles_uses ((uses_log none logs).bind fun _ => uses_pure none []) nofun H
  | some e =>
    refine settles_uses ?_ (H.valid (List.mem_of_find?_eq_some hfind)) H
    exact (uses_bindCompiledSQLParam logs e.2 1 args).bind fun _ =>
      (uses_getDataFromStmt logs fuel e.2 []).bind fun res =>
        (uses_reset e.2).bind fun _ => (uses_log e.2 logs).bind fun _ => uses_pure e.2 res

theorem Owns.logged (H : σ.Owns lost) (lines : ℕ) : Owns { σ with lines := lines } lost :=
  H.frame ⟨rfl, rfl, fun _ => rfl⟩

variable (logs) in
theorem settles_bindCompiledSQL (fuel : ℕ) (b : Bind D V) (H : σ.Owns lost) :
    Settles σ lost ((Op.bindCompiledSQL b).leaks logs fuel σ) (bindCompiledSQL logs b σ) := by
  obtain ⟨sqlName, c⟩ := b
  have hnull : ∀ ok, prepareV2 c σ = (.ok (ok, none), σ) →
      Settles σ lost false (bindCompiledSQL logs ⟨sqlName, c⟩ σ) := by
    intro ok hprepare
    rw [bindCompiledSQL, bind_ok hprepare]
    simp only [log_bind]
    split
    · exact ⟨nofun, fun _ => (H.logged _).insert_null sqlName⟩
    · exact ⟨nofun, fun _ => H.logged _⟩
  cases c with
  | error => exact hnull false rfl
  | empty => exact hnull true rfl
  | statement p =>
    have hnew := H.prepare ⟨⟨p, .prepared p⟩, false⟩
    rw [bindCompiledSQL, bind_ok (prepareV2_statement p σ), Op.leaks]
    simp only [log_bind]
    by_cases hlog : logs σ.lines = true
    · rw [if_pos hlog, hlog]
      exact ⟨nofun, fun _ => (hnew.logged _).insert sqlName⟩
    · rw [if_neg hlog, Bool.eq_false_of_not_eq_true hlog]
      exact ⟨nofun, fun _ => hnew.logged _⟩

/-- The end of `SQL`. -/
theorem settles_finalize {k : ℕ} {τ : Connection D V} (H : τ.Owns (k :: lost)) (ret : List Row) :
    Settles σ lost false
      ((do
        let deleted ← finalize (some k)
        logUnless logs deleted
        return ret : Run D V (List Row)) τ) := by
  obtain ⟨s, hs⟩ := Option.isSome_iff_exists.mp
    ((H.kept k).mpr (List.perm_middle.mem_iff.mpr List.mem_cons_self))
  have hfinalize : finalize (some k) τ =
      (.ok (!s.failed), { τ with stmts := update τ.stmts k none }) := by
    simp only [finalize, hs]
  rw [bind_ok hfinalize]
  exact settles_uses ((uses_logUnless none logs _).bind fun _ => uses_pure none ret) nofun
    H.finalize

theorem settles_sql (fuel : ℕ) (c : Compiled D V) (H : σ.Owns lost) :
    Settles σ lost ((Op.sql c).leaks logs fuel σ) (sql logs fuel c σ) := by
  have hnull : ∀ ok, prepareV2 c σ = (.ok (ok, none), σ) →
      Settles σ lost false (sql logs fuel c σ) := by
    intro ok hprepare
    rw [sql, bind_ok hprepare]
    exact settles_uses ((uses_logUnless none logs ok).bind fun _ => uses_pure none []) nofun H
  cases c with
  | error => exact hnull false rfl
  | empty => exact hnull true rfl
  | statement p =>
    have hpure : logUnless logs true = (pure () : Run D V Unit) := rfl
    have hnew := H.prepare ⟨⟨p, .prepared p⟩, false⟩
    rw [sql, bind_ok (prepareV2_statement p σ), Op.leaks]
    simp only [hpure, pure_bind]
    generalize hσ₁ : { σ with
      stmts := update σ.stmts σ.prepared (some ⟨⟨p, .prepared p⟩, false⟩)
      prepared := σ.prepared + 1 } = σ₁ at hnew ⊢
    have hs : σ₁.stmts σ.prepared = some ⟨⟨p, .prepared p⟩, false⟩ := by simp [← hσ₁]
    have hdb : σ₁.db = σ.db := by simp [← hσ₁]
    have hlines : σ₁.lines = σ.lines := by simp [← hσ₁]
    have hvalid : σ₁.Valid (some σ.prepared) := fun k hk => by
      cases hk
      rw [hs]
      rfl
    have hframe := (uses_getDataFromStmt logs fuel (some σ.prepared) [] σ₁ hvalid).1
    cases hrun : Sqlite3.getDataFromStmt fuel (.prepared p) σ₁.db [] with
    | none =>
      have hnone := getDataFromStmt_none logs hs hrun
      rcases hget : getDataFromStmt logs fuel (some σ.prepared) [] σ₁ with ⟨fault | rows, τ⟩
      · rw [hget] at hnone
        cases hnone
        rw [bind_error hget]
        exact ⟨nofun, fun hne => absurd rfl hne⟩
      · rw [hget] at hnone
        cases hnone
    | some r =>
      obtain ⟨rows, stmt', d'⟩ := r
      have hget := getDataFromStmt_eq logs hs hrun
      rw [hdb, hlines] at hget
      by_cases hfails : fails fuel (.prepared p) σ.db = true
      · rw [if_pos hfails] at hget
        by_cases hlog : logs σ.lines = true
        · rw [if_pos hlog] at hget
          rw [hget] at hframe
          rw [bind_ok hget, hfails, hlog]
          exact settles_finalize (hnew.frame hframe) rows
        · rw [if_neg hlog] at hget
          rw [hget] at hframe
          rw [bind_error hget, hfails, Bool.eq_false_of_not_eq_true hlog]
          exact ⟨nofun, fun _ => hnew.frame hframe⟩
      · rw [if_neg hfails] at hget
        rw [hget] at hframe
        rw [bind_ok hget, Bool.eq_false_of_not_eq_true hfails]
        exact settles_finalize (hnew.frame hframe) rows

variable (logs) in
/-- No member function uses a statement that has been finalized, and one that leaks adds one
statement to those that nobody has. -/
theorem owns_run (op : Op D V) (fuel : ℕ) (H : σ.Owns lost) :
    Settles σ lost (op.leaks logs fuel σ) (op.run logs fuel σ) := by
  cases op with
  | sql c => exact settles_sql fuel c H
  | bindCompiledSQL b =>
    obtain ⟨hfault, hkept⟩ := settles_bindCompiledSQL logs fuel b H
    rw [Op.run]
    rcases hrun : bindCompiledSQL logs b σ with ⟨fault | u, τ⟩
    · rw [hrun] at hfault hkept
      rw [bind_error hrun]
      exact ⟨fun heq => hfault (by cases heq; rfl),
        fun hne => hkept fun heq => hne (by cases heq; rfl)⟩
    · rw [hrun] at hkept
      rw [bind_ok hrun]
      exact ⟨nofun, fun _ => hkept nofun⟩
  | callCompiledSQL sqlName args => exact settles_callCompiledSQL fuel sqlName args H

theorem owns_life {d₀ : D} {ops : List (Op D V)} (h : Life logs d₀ ops lost σ) :
    σ.Owns lost := by
  induction h with
  | opened => exact ⟨List.nodup_nil, by simp [handles], by simp [handles]⟩
  | call op fuel _ hreturned H => exact (owns_run logs op fuel H).2 hreturned
  | other d lines _ H => exact H.frame ⟨rfl, rfl, fun _ => rfl⟩

/-! ## The destructor -/

theorem logUnless_of_logs (hlogs : ∀ i, logs i = true) (ok : Bool) (σ : Connection D V) :
    ∃ lines, logUnless logs ok σ = (.ok (), { σ with lines := lines }) := by
  cases ok with
  | false => exact ⟨σ.lines + 1, by rw [logUnless, if_neg nofun, log, if_pos (hlogs _)]⟩
  | true => exact ⟨σ.lines, rfl⟩

theorem finalize_spec {stmt : Option ℕ} (hv : σ.Valid stmt) : ∃ ok τ,
    finalize stmt σ = (.ok ok, τ) ∧ τ.prepared = σ.prepared ∧
      ∀ k, (τ.stmts k).isSome = true ↔ (σ.stmts k).isSome = true ∧ stmt ≠ some k := by
  cases stmt with
  | none => exact ⟨true, σ, rfl, rfl, by simp⟩
  | some j =>
    obtain ⟨s, hs⟩ := Option.isSome_iff_exists.mp (hv j rfl)
    refine ⟨!s.failed, { σ with stmts := update σ.stmts j none }, by simp only [finalize, hs], rfl,
      fun k => ?_⟩
    by_cases hk : k = j
    · subst hk
      simp
    · simp [hk, Ne.symm hk]

theorem mem_handles_cons {e : Bytes × Option ℕ} {entries : List (Bytes × Option ℕ)} {k : ℕ} :
    k ∈ handles (e :: entries) ↔ e.2 = some k ∨ k ∈ handles entries := by
  simp [handles, List.mem_filterMap]

variable (logs) in
/-- The loop of the destructor finalizes each of its statements, once. -/
theorem finalizeAll_spec {entries : List (Bytes × Option ℕ)} (honce : (handles entries).Nodup)
    (hkept : ∀ k ∈ handles entries, (σ.stmts k).isSome = true) :
    (finalizeAll logs entries σ).1 ≠ .error .finalized ∧
      ((∀ i, logs i = true) → (finalizeAll logs entries σ).1 = .ok ()) ∧
      ∀ τ, finalizeAll logs entries σ = (.ok (), τ) → τ.prepared = σ.prepared ∧
        ∀ k, (τ.stmts k).isSome = true ↔ (σ.stmts k).isSome = true ∧ k ∉ handles entries := by
  induction entries generalizing σ with
  | nil =>
    refine ⟨nofun, fun _ => rfl, fun τ hτ => ?_⟩
    cases hτ
    exact ⟨rfl, by simp [handles]⟩
  | cons e entries ih =>
    have hvalid : σ.Valid e.2 := fun k hk => hkept k (mem_handles_cons.mpr (.inl hk))
    obtain ⟨ok, σ₁, hrun, hprepared, hleft⟩ := finalize_spec hvalid
    obtain ⟨hframe, hfault⟩ := uses_logUnless none logs ok σ₁ nofun
    rw [finalizeAll, bind_ok hrun]
    rcases hlog : logUnless logs ok σ₁ with ⟨fault | u, σ₂⟩
    · rw [hlog] at hfault
      rw [bind_error hlog]
      refine ⟨fun heq => hfault (by cases heq; rfl), fun hlogs => ?_, nofun⟩
      obtain ⟨lines, hok⟩ := logUnless_of_logs hlogs ok σ₁
      rw [hlog] at hok
      cases hok
    · rw [hlog] at hframe
      rw [bind_ok hlog]
      have honce' : (handles entries).Nodup ∧ ∀ k ∈ handles entries, e.2 ≠ some k := by
        obtain ⟨sqlName, _ | j⟩ := e
        · exact ⟨honce, nofun⟩
        · obtain ⟨hnot, hnodup⟩ := List.nodup_cons.mp honce
          refine ⟨hnodup, fun k hk heq => ?_⟩
          cases heq
          exact hnot hk
      have hstay : ∀ k, (σ₂.stmts k).isSome = true ↔
          (σ.stmts k).isSome = true ∧ e.2 ≠ some k := fun k => by
        rw [hframe.kept k]
        exact hleft k
      obtain ⟨hnone, hcomes, hall⟩ := @ih σ₂ honce'.1 fun k hk =>
        (hstay k).mpr ⟨hkept k (mem_handles_cons.mpr (.inr hk)), honce'.2 k hk⟩
      refine ⟨hnone, hcomes, fun τ hτ => ?_⟩
      obtain ⟨hsame, hrest⟩ := hall τ hτ
      refine ⟨hsame.trans (hframe.prepared.trans hprepared), fun k => ?_⟩
      rw [hrest k, hstay k, mem_handles_cons, not_or, and_assoc]

/-- Without an exception out of the log nothing leaks, and the destructor comes to its end. -/
theorem leaks_of_logs (hlogs : ∀ i, logs i = true) (op : Op D V) (fuel : ℕ) :
    op.leaks logs fuel σ = false := by
  rcases op with (_ | _ | p) | ⟨_, _ | _ | p⟩ | _ <;> simp [Op.leaks, hlogs]

theorem life_of_logs (hlogs : ∀ i, logs i = true) {d₀ : D} {ops : List (Op D V)}
    (h : Life logs d₀ ops lost σ) : lost = [] := by
  induction h with
  | opened => rfl
  | call op fuel _ _ ih => rw [ih, leaks_of_logs hlogs, if_neg (by simp)]
  | other _ _ _ ih => exact ih

/-- `sqlite3_close` with these statements left. -/
theorem close_lost {τ : Connection D V} (hkept : ∀ k, (τ.stmts k).isSome = true ↔ k ∈ lost)
    (hknown : ∀ k ∈ lost, k < τ.prepared) :
    ((List.range τ.prepared).all fun k => (τ.stmts k).isNone) = true ↔ lost = [] := by
  rw [List.all_eq_true, List.eq_nil_iff_forall_not_mem]
  refine ⟨fun hclosed k hk => ?_, fun hnone k _ => ?_⟩
  · have hsome := (hkept k).mpr hk
    rw [Option.isNone_iff_eq_none.mp (hclosed k (List.mem_range.mpr (hknown k hk)))] at hsome
    cases hsome
  · have hgone : ¬ (τ.stmts k).isSome = true := fun hsome => hnone k ((hkept k).mp hsome)
    simpa using hgone

theorem destroy_eq (σ : Connection D V) : destroy logs σ =
    (finalizeAll logs (σ.sqlMap.mergeSort fun a b => decide (a.1 ≤ b.1)) >>= fun _ => close) σ :=
  bind_ok rfl

/-- What a `Sqlite3` does on which calls have leaked these statements. -/
structure Closes (logs : ℕ → Bool) (lost : List ℕ) (σ : Connection D V) : Prop where
  calls : ∀ (op : Op D V) fuel, (op.run logs fuel σ).1 ≠ .error .finalized
  destroys : (destroy logs σ).1 ≠ .error .finalized
  /-- With a log that does not throw the destructor closes the database. -/
  comes : (∀ i, logs i = true) → (destroy logs σ).1 = .ok true
  kept : ∀ closed τ, destroy logs σ = (.ok closed, τ) →
    ∀ k, (τ.stmts k).isSome = true ↔ k ∈ lost
  closed : ∀ closed τ, destroy logs σ = (.ok closed, τ) → (closed = true ↔ lost = [])

/-- After any life no call uses a finalized statement, and neither does the destructor. What sqlite
still keeps at `sqlite3_close` are the statements that calls have leaked; so the database is closed
exactly when none did. -/
theorem closes_iff {d₀ : D} {ops : List (Op D V)} (h : Life logs d₀ ops lost σ) :
    Closes logs lost σ := by
  have H := owns_life h
  have hcalls := fun (op : Op D V) fuel => (owns_run logs op fuel H).1
  have hperm : (handles (σ.sqlMap.mergeSort fun a b => decide (a.1 ≤ b.1))).Perm
      (handles σ.sqlMap) := (List.mergeSort_perm _ _).filterMap _
  obtain ⟨honce, -, hapart⟩ := List.nodup_append.mp H.once
  obtain ⟨hfault, hcomes, hall⟩ := finalizeAll_spec logs (hperm.nodup_iff.mpr honce)
    fun k hk => (H.kept k).mpr (List.mem_append_left _ (hperm.mem_iff.mp hk))
  rcases hrun : finalizeAll logs (σ.sqlMap.mergeSort fun a b => decide (a.1 ≤ b.1)) σ with
    ⟨fault | u, σ₁⟩
  · have hdestroy : destroy logs σ = (.error fault, σ₁) := by
      rw [destroy_eq]
      exact bind_error hrun
    rw [hrun] at hfault hcomes
    refine ⟨hcalls, ?_, fun hlogs => ?_, ?_, ?_⟩
    · rw [hdestroy]
      exact fun heq => hfault (by cases heq; rfl)
    · cases hcomes hlogs
    all_goals
      intro closed τ hτ
      rw [hdestroy] at hτ
      cases hτ
  · obtain ⟨hprepared, hleft⟩ := hall σ₁ hrun
    have hkept : ∀ k, (σ₁.stmts k).isSome = true ↔ k ∈ lost := by
      intro k
      rw [hleft k, H.kept k, hperm.mem_iff, List.mem_append]
      constructor
      · rintro ⟨hk | hk, hnot⟩
        · exact absurd hk hnot
        · exact hk
      · exact fun hk => ⟨.inr hk, fun hin => hapart k hin k hk rfl⟩
    have hclose := close_lost hkept fun k hk => by
      rw [hprepared]
      exact H.known k (List.mem_append_right _ hk)
    have hdestroy : destroy logs σ =
        (.ok ((List.range σ₁.prepared).all fun k => (σ₁.stmts k).isNone), σ₁) := by
      rw [destroy_eq]
      exact bind_ok hrun
    refine ⟨hcalls, by simp [hdestroy], fun hlogs => ?_, ?_, ?_⟩
    · rw [hdestroy]
      exact congrArg Except.ok (hclose.mpr (life_of_logs hlogs h))
    all_goals
      intro closed τ hτ
      rw [hdestroy] at hτ
      cases hτ
    · exact hkept
    · exact hclose

/-- A text is compiled under a name, and the line that says so cannot be written. -/
theorem closes_iff_leak : ∃ σ : Connection Unit Unit, (destroy (fun _ => false) σ).1 = .ok false ∧
    Closes (fun _ => false) [0] σ := by
  let p : Program Unit Unit :=
    ⟨0, 0, fun _ => true, fun _ => (), fun _ _ => (.done, ()), fun _ _ => .null⟩
  let bind : Op Unit Unit := .bindCompiledSQL ⟨[], .statement p⟩
  have hlife := Life.call bind 0 (.opened 0 : Life (fun _ => false) () [] [] _) nofun
  refine ⟨_, ?_, closes_iff hlife⟩
  change (destroy (fun _ => false) ⟨[], _, 1, (), 1⟩).1 = .ok false
  rw [destroy_eq, List.mergeSort_nil]
  rfl

end Connection
end Sqlite3
end Calabash
