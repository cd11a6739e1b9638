import Calabash.Database.Connection

/-!
# Pointers to statements, and statements

`sql_map_` has pointers to statements that sqlite keeps. Without an exception out of the log it is
as if it had the statements themselves: no two entries share one, and no call touches the statement
of another.

## Main results

* `callByName_of_callCompiledSQL`, `runs_of_sql` — a call through the pointers is one on the
  statements, and a one-time text runs as a compiled one without arguments.
* `runs_on_statements` — so is every life.
-/

namespace Calabash
namespace Sqlite3
namespace Connection

open Sqlite
open Function (update)

variable {D V : Type} {logs : ℕ → Bool} {σ τ : Connection D V} {lost : List ℕ}

/-- The statements in the place of the pointers. -/
def view (σ : Connection D V) : SqlMap D V :=
  σ.sqlMap.map fun e => (e.1, e.2.bind fun k => (σ.stmts k).map Held.prepared)

theorem view_congr (hmap : τ.sqlMap = σ.sqlMap)
    (h : ∀ k ∈ handles σ.sqlMap, τ.stmts k = σ.stmts k) : τ.view = σ.view := by
  rw [view, view, hmap]
  refine List.map_congr_left fun e he => ?_
  obtain ⟨sqlName, _ | k⟩ := e
  · rfl
  · rw [Option.bind_some, Option.bind_some, h k (List.mem_filterMap.mpr ⟨_, he, rfl⟩)]

/-! ## A call -/

/-- The statement under a pointer, as a call leaves it. -/
def put (σ : Connection D V) (k : ℕ) (s : Held D V) : Connection D V :=
  { σ with stmts := update σ.stmts k (some s) }

@[simp] theorem put_stmts_self (σ : Connection D V) (k : ℕ) (s : Held D V) :
    (σ.put k s).stmts k = some s := Function.update_self ..
@[simp] theorem put_sqlMap (σ : Connection D V) (k : ℕ) (s : Held D V) :
    (σ.put k s).sqlMap = σ.sqlMap := rfl
@[simp] theorem put_db (σ : Connection D V) (k : ℕ) (s : Held D V) : (σ.put k s).db = σ.db := rfl
@[simp] theorem put_put (σ : Connection D V) (k : ℕ) (s s' : Held D V) :
    (σ.put k s).put k s' = σ.put k s' := by
  simp only [put, Function.update_idem]

theorem put_self {k : ℕ} {s : Held D V} (hs : σ.stmts k = some s) : σ.put k s = σ := by
  rw [put, Function.update_eq_self_iff.mpr hs.symm]

section
variable {p : Program D V} {stmt stmt' : Statement p} {failed : Bool} {k : ℕ}

theorem bindArg_eq (hs : σ.stmts k = some ⟨⟨p, stmt⟩, failed⟩) (index : ℕ) (a : Arg) : ∃ ok,
    bindArg (some k) index a σ =
      (.ok ok, σ.put k ⟨⟨p, a.value?.elim stmt fun v => stmt.bind index v⟩, failed⟩) := by
  rw [bindArg]
  cases a.value? with
  | none => exact ⟨true, by rw [Option.elim_none, put_self hs]; rfl⟩
  | some v => exact ⟨_, by simp only [bind, onStmt, hs]; rfl⟩

/-- `BindCompiledSQLParam` binds to the statement of the pointer. -/
theorem bindCompiledSQLParam_eq (hlogs : ∀ i, logs i = true)
    (hs : σ.stmts k = some ⟨⟨p, stmt⟩, failed⟩) (index : ℕ) (args : List Arg) : ∃ lines,
    bindCompiledSQLParam logs (some k) index args σ = (.ok (), { σ.put k
      ⟨⟨p, Sqlite3.bindCompiledSQLParam stmt index args⟩, failed⟩ with lines := lines }) := by
  induction args generalizing σ stmt index with
  | nil =>
    refine ⟨σ.lines, ?_⟩
    rw [Sqlite3.bindCompiledSQLParam, put_self hs]
    rfl
  | cons a args ih =>
    obtain ⟨ok, hbind⟩ := bindArg_eq hs index a
    obtain ⟨lines, hlog⟩ := logUnless_of_logs hlogs ok
      (σ.put k ⟨⟨p, a.value?.elim stmt fun v => stmt.bind index v⟩, failed⟩)
    rw [bindCompiledSQLParam, bind_ok hbind, bind_ok hlog]
    obtain ⟨more, hrest⟩ := @ih { σ.put k
      ⟨⟨p, a.value?.elim stmt fun v => stmt.bind index v⟩, failed⟩ with lines := lines } _
      (put_stmts_self ..) (index + 1)
    refine ⟨more, ?_⟩
    rw [hrest, Sqlite3.bindCompiledSQLParam]
    simp only [put, Function.update_idem]

/-- `GetDataFromStmt` runs the statement of the pointer. -/
theorem getDataFromStmt_put (hlogs : ∀ i, logs i = true) {fuel : ℕ} {d' : D} {ret rows : List Row}
    (hs : σ.stmts k = some ⟨⟨p, stmt⟩, failed⟩)
    (hrun : Sqlite3.getDataFromStmt fuel stmt σ.db ret = some (rows, stmt', d')) :
    ∃ failed lines, getDataFromStmt logs fuel (some k) ret σ = (.ok rows, { σ.put k
      ⟨⟨p, stmt'⟩, failed⟩ with db := d', lines := lines }) := by
  rw [getDataFromStmt_eq logs hs hrun, if_pos (hlogs _)]
  split
  · exact ⟨true, σ.lines + 1, rfl⟩
  · exact ⟨false, σ.lines, rfl⟩

/-- `CallCompiledSQL` behind `find`, on the statement of the pointer. -/
theorem callStmt_eq (hlogs : ∀ i, logs i = true) {fuel : ℕ} {args : List Arg} {rows : List Row}
    (hs : σ.stmts k = some ⟨⟨p, stmt⟩, failed⟩)
    (hreturned : ((do
      bindCompiledSQLParam logs (some k) 1 args
      let res ← getDataFromStmt logs fuel (some k) []
      let _ ← reset (some k)
      log logs
      return res : Run D V (List Row)) σ) = (.ok rows, τ)) :
    ∃ stmt' d' lines, Sqlite3.callCompiledSQL fuel stmt σ.db args = some (rows, stmt', d') ∧
      τ = { σ.put k ⟨⟨p, stmt'⟩, false⟩ with db := d', lines := lines } := by
  obtain ⟨lines, hbind⟩ := bindCompiledSQLParam_eq hlogs hs 1 args
  rw [bind_ok hbind] at hreturned
  generalize hbound : ({ σ.put k ⟨⟨p, Sqlite3.bindCompiledSQLParam stmt 1 args⟩, failed⟩ with
    lines := lines } : Connection D V) = σ₁ at hreturned
  have hs₁ : σ₁.stmts k = some ⟨⟨p, Sqlite3.bindCompiledSQLParam stmt 1 args⟩, failed⟩ := by
    rw [← hbound]
    exact put_stmts_self ..
  have hdb : σ₁.db = σ.db := by rw [← hbound]; rfl
  cases hrun : Sqlite3.getDataFromStmt fuel (Sqlite3.bindCompiledSQLParam stmt 1 args) σ₁.db [] with
  | none =>
    have hnone := getDataFromStmt_none logs hs₁ hrun
    rcases hget : getDataFromStmt logs fuel (some k) [] σ₁ with ⟨fault | res, σ₂⟩
    · rw [bind_error hget] at hreturned
      cases hreturned
    · rw [hget] at hnone
      cases hnone
  | some r =>
    obtain ⟨res, stmt', d'⟩ := r
    obtain ⟨failed', lines', hget⟩ := getDataFromStmt_put hlogs hs₁ hrun
    rw [bind_ok hget] at hreturned
    have hreset : reset (some k) { σ₁.put k ⟨⟨p, stmt'⟩, failed'⟩ with
        db := d', lines := lines' } = (.ok (!failed'), { σ₁.put k ⟨⟨p, stmt'.reset⟩, false⟩ with
          db := d', lines := lines' }) := by
      simp only [reset, onStmt, put, Function.update_self, Function.update_idem]
    rw [bind_ok hreset, log_bind, if_pos (hlogs _)] at hreturned
    cases hreturned
    refine ⟨stmt'.reset, d', lines' + 1, ?_, ?_⟩
    · rw [hdb] at hrun
      rw [Sqlite3.callCompiledSQL, hrun]
      rfl
    · rw [← hbound]
      simp only [put, Function.update_idem]

end

/-! ## The map -/

theorem find?_view (σ : Connection D V) (sqlName : Bytes) :
    (σ.view.find? fun e => e.1 == sqlName) = (σ.sqlMap.find? fun e => e.1 == sqlName).map
      fun e => (e.1, e.2.bind fun k => (σ.stmts k).map Held.prepared) := by
  rw [view, List.find?_map]
  rfl

/-- Only the first entry of a name has its statement. -/
theorem store_entries (stmts : ℕ → Option (Held D V)) {sqlName n : Bytes} {k : ℕ} (s : Held D V)
    {entries : List (Bytes × Option ℕ)}
    (hfind : (entries.find? fun e => e.1 == sqlName) = some (n, some k))
    (honce : (handles entries).Nodup) :
    (entries.map fun e => (e.1, e.2.bind fun j => (update stmts k (some s) j).map Held.prepared)) =
      store sqlName s.prepared
        (entries.map fun e => (e.1, e.2.bind fun j => (stmts j).map Held.prepared)) := by
  induction entries with
  | nil => cases hfind
  | cons e entries ih =>
    rw [List.map_cons, List.map_cons, store]
    by_cases hname : e.1 = sqlName
    · rw [List.find?_cons_of_pos (by simpa using hname)] at hfind
      cases hfind
      rw [if_pos hname]
      have hnot : k ∉ handles entries := (List.nodup_cons.mp honce).1
      simp only [Option.bind_some, Function.update_self, Option.map_some, List.cons.injEq, true_and]
      refine List.map_congr_left fun e he => ?_
      obtain ⟨m, _ | j⟩ := e
      · rfl
      · have hne : j ≠ k := by
          rintro rfl
          exact hnot (List.mem_filterMap.mpr ⟨_, he, rfl⟩)
        simp [hne]
    · rw [List.find?_cons_of_neg (by simpa using hname)] at hfind
      have hk : k ∈ handles entries :=
        List.mem_filterMap.mpr ⟨_, List.mem_of_find?_eq_some hfind, rfl⟩
      rw [if_neg hname]
      obtain ⟨m, _ | j⟩ := e
      · rw [ih hfind honce]
        rfl
      · obtain ⟨hnot, hrest⟩ := List.nodup_cons.mp honce
        have hne : j ≠ k := by
          rintro rfl
          exact hnot hk
        rw [ih hfind hrest]
        simp [hne]

theorem bindCompiledSQLParam_null (hlogs : ∀ i, logs i = true) (index : ℕ) (args : List Arg)
    (σ : Connection D V) : ∃ lines,
    bindCompiledSQLParam logs none index args σ = (.ok (), { σ with lines := lines }) := by
  induction args generalizing σ index with
  | nil => exact ⟨σ.lines, rfl⟩
  | cons a args ih =>
    have hbind : ∃ ok, bindArg none index a σ = (.ok ok, σ) := by
      rw [bindArg]
      cases a.value? with
      | none => exact ⟨true, rfl⟩
      | some v => exact ⟨false, rfl⟩
    obtain ⟨ok, hbind⟩ := hbind
    obtain ⟨lines, hlog⟩ := logUnless_of_logs hlogs ok σ
    obtain ⟨more, hrest⟩ := ih (index + 1) { σ with lines := lines }
    exact ⟨more, by rw [bindCompiledSQLParam, bind_ok hbind, bind_ok hlog, hrest]⟩

theorem getDataFromStmt_null (hlogs : ∀ i, logs i = true) (fuel : ℕ) (ret : List Row)
    (σ : Connection D V) : getDataFromStmt logs (fuel + 1) none ret σ =
      (.ok [], { σ with lines := σ.lines + 1 }) := by
  have hstep : step none σ = (.ok .error, σ) := rfl
  rw [getDataFromStmt, bind_ok hstep]
  simp only [log_bind, if_pos (hlogs _)]
  rfl

/-- `CallCompiledSQL` through the pointers is one on the statements. -/
theorem callByName_of_callCompiledSQL (hlogs : ∀ i, logs i = true) (H : σ.Owns lost) {fuel : ℕ}
    {sqlName : Bytes} {args : List Arg} {rows : List Row}
    (h : callCompiledSQL logs fuel sqlName args σ = (.ok rows, τ)) :
    callByName fuel σ.view σ.db sqlName args = some (rows, τ.view, τ.db) := by
  have hget : (get : Run D V (Connection D V)) σ = (.ok σ, σ) := rfl
  have hview := find?_view σ sqlName
  rw [callCompiledSQL, bind_ok hget] at h
  cases hfind : σ.sqlMap.find? fun e => e.1 == sqlName with
  | none =>
    rw [hfind] at h hview
    simp only [log_bind, if_pos (hlogs _)] at h
    cases h
    rw [callByName, find, hview]
    rfl
  | some e =>
    obtain ⟨n, _ | k⟩ := e
    · rw [hfind] at h hview
      obtain ⟨lines, hbind⟩ := bindCompiledSQLParam_null hlogs 1 args σ
      simp only [bind_ok hbind] at h
      cases fuel with
      | zero => cases h
      | succ fuel =>
        have hreset : (reset none : Run D V Bool) { σ with lines := lines + 1 } = (.ok true, _) :=
          rfl
        rw [bind_ok (getDataFromStmt_null hlogs fuel [] _)] at h
        simp only [bind_ok hreset, log_bind, if_pos (hlogs _)] at h
        cases h
        rw [callByName, find, hview]
        rfl
    · rw [hfind] at h hview
      obtain ⟨⟨⟨p, stmt⟩, failed⟩, hs⟩ := Option.isSome_iff_exists.mp
        (H.valid (List.mem_of_find?_eq_some hfind) k rfl)
      obtain ⟨stmt', d', lines, hcall, rfl⟩ := callStmt_eq hlogs hs h
      rw [callByName, find, hview, Option.map_some, Option.bind_some, hs, Option.map_some]
      simp only [hcall, Option.map_some]
      have hstore := store_entries σ.stmts ⟨⟨p, stmt'⟩, false⟩ hfind
        (List.nodup_append.mp H.once).1
      rw [view, view, ← hstore]
      rfl

/-- The number of a new statement is under no name. -/
theorem Owns.fresh (H : σ.Owns lost) {k : ℕ} (hk : k ∈ handles σ.sqlMap) : k ≠ σ.prepared :=
  (H.known k (List.mem_append_left _ hk)).ne

theorem view_bindCompiledSQL (H : σ.Owns lost) {b : Bind D V}
    (h : bindCompiledSQL logs b σ = (.ok (), τ)) :
    τ.view = Sqlite3.bindCompiledSQL σ.view b ∧ τ.db = σ.db := by
  obtain ⟨sqlName, c⟩ := b
  have hnull : ∀ ok, prepareV2 c σ = (.ok (ok, none), σ) → c.sqlRes = none →
      τ.view = Sqlite3.bindCompiledSQL σ.view ⟨sqlName, c⟩ ∧ τ.db = σ.db := by
    intro ok hprepare hres
    rw [bindCompiledSQL, bind_ok hprepare] at h
    simp only [log_bind] at h
    split at h
    · cases h
      rw [Sqlite3.bindCompiledSQL, hres]
      exact ⟨List.map_append, rfl⟩
    · cases h
  cases c with
  | error => exact hnull false rfl rfl
  | empty => exact hnull true rfl rfl
  | statement p =>
    rw [bindCompiledSQL, bind_ok (prepareV2_statement p σ)] at h
    simp only [log_bind] at h
    split at h
    · cases h
      refine ⟨?_, rfl⟩
      have hold : (σ.put σ.prepared ⟨⟨p, .prepared p⟩, false⟩).view = σ.view :=
        view_congr rfl fun k hk => Function.update_of_ne (H.fresh hk) _ _
      rw [Sqlite3.bindCompiledSQL, ← hold, view, view, List.map_append]
      simp [put, Compiled.sqlRes, Compiled.program?]
    · cases h

/-- A one-time text runs as a compiled one without arguments, and touches no name. -/
theorem runs_of_sql (hlogs : ∀ i, logs i = true) (H : σ.Owns lost) {fuel : ℕ} {c : Compiled D V}
    {rows : List Row} (h : sql logs fuel c σ = (.ok rows, τ)) : τ.view = σ.view ∧
      match c with
      | .statement p => ∃ stmt,
          Sqlite3.callCompiledSQL fuel (.prepared p) σ.db [] = some (rows, stmt, τ.db)
      | _ => rows = [] ∧ τ.db = σ.db := by
  have hnull : ∀ ok, prepareV2 c σ = (.ok (ok, none), σ) →
      τ.view = σ.view ∧ rows = [] ∧ τ.db = σ.db := by
    intro ok hprepare
    obtain ⟨lines, hlog⟩ := logUnless_of_logs hlogs ok σ
    rw [sql, bind_ok hprepare] at h
    simp only [bind_ok hlog] at h
    cases h
    exact ⟨rfl, rfl, rfl⟩
  cases c with
  | error => exact hnull false rfl
  | empty => exact hnull true rfl
  | statement p =>
    have hpure : logUnless logs true = (pure () : Run D V Unit) := rfl
    rw [sql, bind_ok (prepareV2_statement p σ)] at h
    simp only [hpure, pure_bind] at h
    generalize hσ₁ : ({ σ.put σ.prepared ⟨⟨p, .prepared p⟩, false⟩ with
      prepared := σ.prepared + 1 } : Connection D V) = σ₁
    have hnew : ({ σ with
        stmts := update σ.stmts σ.prepared (some ⟨⟨p, .prepared p⟩, false⟩)
        prepared := σ.prepared + 1 } : Connection D V) = σ₁ := hσ₁
    rw [hnew] at h
    have hs : σ₁.stmts σ.prepared = some ⟨⟨p, .prepared p⟩, false⟩ := by
      rw [← hσ₁]
      exact put_stmts_self ..
    have hdb : σ₁.db = σ.db := by rw [← hσ₁]; rfl
    cases hrun : Sqlite3.getDataFromStmt fuel (.prepared p) σ₁.db [] with
    | none =>
      have hnone := getDataFromStmt_none logs hs hrun
      rcases hget : getDataFromStmt logs fuel (some σ.prepared) [] σ₁ with ⟨fault | res, σ₂⟩
      · rw [bind_error hget] at h
        cases h
      · rw [hget] at hnone
        cases hnone
    | some r =>
      obtain ⟨res, stmt', d'⟩ := r
      obtain ⟨failed, lines, hget⟩ := getDataFromStmt_put hlogs hs hrun
      rw [bind_ok hget] at h
      have hfinalize : finalize (some σ.prepared) { σ₁.put σ.prepared ⟨⟨p, stmt'⟩, failed⟩ with
          db := d', lines := lines } = (.ok (!failed), { σ₁ with
            stmts := update σ₁.stmts σ.prepared none, db := d', lines := lines }) := by
        simp only [finalize, put, Function.update_self, Function.update_idem]
      obtain ⟨more, hlog⟩ := logUnless_of_logs hlogs (!failed) { σ₁ with
        stmts := update σ₁.stmts σ.prepared none, db := d', lines := lines }
      rw [bind_ok hfinalize, bind_ok hlog] at h
      cases h
      refine ⟨view_congr (by rw [← hσ₁]; rfl) fun k hk => ?_, stmt'.reset, ?_⟩
      · rw [← hσ₁]
        simp [put, H.fresh hk]
      · rw [hdb] at hrun
        rw [Sqlite3.callCompiledSQL, Sqlite3.bindCompiledSQLParam, hrun]
        rfl

/-! ## Lives -/

/-- Code that the log throws no exception into. -/
def Unthrown {α : Type} (x : Run D V α) : Prop := ∀ σ, (x σ).1 ≠ .error .log

theorem Unthrown.bind {α β : Type} {x : Run D V α} {f : α → Run D V β} (hx : Unthrown x)
    (hf : ∀ a, Unthrown (f a)) : Unthrown (x >>= f) := by
  intro σ
  have hthrown := hx σ
  rcases hrun : x σ with ⟨fault | a, τ⟩
  · rw [hrun] at hthrown
    rw [bind_error hrun]
    exact fun heq => hthrown (by cases heq; rfl)
  · rw [bind_ok hrun]
    exact hf a τ

theorem unthrown_pure {α : Type} (a : α) : Unthrown (pure a : Run D V α) := by
  intro σ heq
  cases heq

theorem unthrown_onStmt {α : Type} (k : ℕ) (f : Held D V → D → α × Held D V × D) :
    Unthrown (onStmt k f) := by
  intro σ
  rw [onStmt]
  split <;> simp

section
variable (hlogs : ∀ i, logs i = true)
include hlogs

theorem unthrown_log : Unthrown (log logs : Run D V Unit) := by
  intro σ
  rw [log, if_pos (hlogs _)]
  simp

theorem unthrown_logUnless (ok : Bool) : Unthrown (logUnless logs ok : Run D V Unit) := by
  cases ok with
  | false => exact unthrown_log hlogs
  | true => exact unthrown_pure ()

theorem unthrown_bindCompiledSQLParam (stmt : Option ℕ) (index : ℕ) (args : List Arg) :
    Unthrown (bindCompiledSQLParam logs stmt index args : Run D V Unit) := by
  induction args generalizing index with
  | nil => exact unthrown_pure ()
  | cons a args ih =>
    have hbind : Unthrown (bindArg stmt index a : Run D V Bool) := by
      rw [bindArg]
      cases a.value? with
      | none => exact unthrown_pure true
      | some v =>
        cases stmt with
        | none => exact unthrown_pure false
        | some k => exact unthrown_onStmt k _
    exact hbind.bind fun ok => (unthrown_logUnless hlogs ok).bind fun _ => ih (index + 1)

theorem unthrown_getDataFromStmt (fuel : ℕ) (stmt : Option ℕ) (ret : List Row) :
    Unthrown (getDataFromStmt logs fuel stmt ret : Run D V (List Row)) := by
  induction fuel generalizing ret with
  | zero =>
    intro σ heq
    cases heq
  | succ fuel ih =>
    have hstep : Unthrown (step stmt : Run D V (Progress Row)) := by
      cases stmt with
      | none => exact unthrown_pure Progress.error
      | some k => exact unthrown_onStmt k _
    refine hstep.bind fun progress => ?_
    cases progress with
    | row column => exact ih _
    | done => exact unthrown_pure ret
    | error => exact (unthrown_log hlogs).bind fun _ => unthrown_pure []

theorem unthrown_run (op : Op D V) (fuel : ℕ) : Unthrown (op.run logs fuel) := by
  have hprepare : ∀ c : Compiled D V, Unthrown (prepareV2 c) := by
    intro c σ heq
    cases c <;> cases heq
  have hpure : ∀ rows, Unthrown (pure rows : Run D V (List Row)) := unthrown_pure
  cases op with
  | sql c =>
    refine (hprepare c).bind fun res => (unthrown_logUnless hlogs res.1).bind fun _ => ?_
    obtain ⟨ok, _ | k⟩ := res
    · exact hpure []
    · have hfinalize : Unthrown (finalize (some k) : Run D V Bool) := fun σ => by
        simp only [finalize]
        split <;> simp
      exact (unthrown_getDataFromStmt hlogs fuel (some k) []).bind fun ret =>
        hfinalize.bind fun deleted => (unthrown_logUnless hlogs deleted).bind fun _ => hpure ret
  | bindCompiledSQL b =>
    refine Unthrown.bind ?_ fun _ => hpure []
    exact (hprepare b.sql).bind fun _ => (unthrown_log hlogs).bind fun _ => unthrown_pure ()
  | callCompiledSQL sqlName args =>
    have hget : Unthrown (get : Run D V (Connection D V)) := by
      intro σ heq
      cases heq
    refine hget.bind fun σ => ?_
    cases σ.sqlMap.find? fun e => e.1 == sqlName with
    | none => exact (unthrown_log hlogs).bind fun _ => hpure []
    | some e =>
      have hreset : Unthrown (reset e.2 : Run D V Bool) := by
        cases e.2 with
        | none => exact unthrown_pure true
        | some k => exact unthrown_onStmt k _
      exact (unthrown_bindCompiledSQLParam hlogs e.2 1 args).bind fun _ =>
        (unthrown_getDataFromStmt hlogs fuel e.2 []).bind fun res =>
          hreset.bind fun _ => (unthrown_log hlogs).bind fun _ => hpure res

end

/-- The bind of a call, if it is one. -/
def bind? : Op D V → Option (Bind D V)
  | .bindCompiledSQL b => some b
  | _ => none

theorem reached_life (hlogs : ∀ i, logs i = true) {d₀ : D} {ops : List (Op D V)}
    (h : Life logs d₀ ops lost σ) : Reached d₀ (ops.filterMap bind?) σ.view σ.db := by
  induction h with
  | opened => exact .opened
  | other d lines _ ih => exact ih.other d
  | @call ops lost σ op fuel hlife hreturned ih =>
    have H := owns_life hlife
    obtain ⟨hfault, -⟩ := owns_run logs op fuel H
    have hthrown := unthrown_run hlogs op fuel σ
    rcases hrun : op.run logs fuel σ with ⟨(_ | _ | _) | rows, τ⟩
    · exact absurd (congrArg Prod.fst hrun) hthrown
    · exact absurd (congrArg Prod.fst hrun) hfault
    · exact absurd (congrArg Prod.fst hrun) hreturned
    · rw [List.filterMap_append]
      cases op with
      | sql c =>
        have hnone : [Op.sql c].filterMap bind? = [] := rfl
        rw [hnone, List.append_nil, (runs_of_sql hlogs H hrun).1]
        exact ih.other τ.db
      | bindCompiledSQL b =>
        rcases hbind : bindCompiledSQL logs b σ with ⟨fault | u, υ⟩
        · rw [Op.run, bind_error hbind] at hrun
          cases hrun
        · rw [Op.run, bind_ok hbind] at hrun
          cases hrun
          obtain ⟨hview, hdb⟩ := view_bindCompiledSQL H hbind
          rw [hview, hdb]
          exact ih.bind b
      | callCompiledSQL sqlName args =>
        have hnone : [(Op.callCompiledSQL sqlName args : Op D V)].filterMap bind? = [] := rfl
        rw [hnone, List.append_nil]
        exact ih.call fuel sqlName args (callByName_of_callCompiledSQL hlogs H hrun)

/-- Without an exception out of the log a life is one on the statements themselves: its map has
what the binds and calls by name make of a map of statements, and a call returns what it returns
there. -/
theorem runs_on_statements (hlogs : ∀ i, logs i = true) {d₀ : D} {ops : List (Op D V)}
    (h : Life logs d₀ ops lost σ) :
    Reached d₀ (ops.filterMap bind?) σ.view σ.db ∧
      (∀ fuel sqlName args rows τ, callCompiledSQL logs fuel sqlName args σ = (.ok rows, τ) →
        callByName fuel σ.view σ.db sqlName args = some (rows, τ.view, τ.db)) ∧
      ∀ fuel (p : Program D V) rows τ, sql logs fuel (.statement p) σ = (.ok rows, τ) →
        τ.view = σ.view ∧ ∃ stmt,
          Sqlite3.callCompiledSQL fuel (.prepared p) σ.db [] = some (rows, stmt, τ.db) := by
  have H := owns_life h
  exact ⟨reached_life hlogs h, fun _ _ _ _ _ hcall => callByName_of_callCompiledSQL hlogs H hcall,
    fun _ _ _ _ hsql => runs_of_sql hlogs H hsql⟩

/-- A text is compiled under a name and called, and a one-time text runs. -/
theorem runs_on_statements_bound : ∃ (b : Bind Unit Unit) (σ : Connection Unit Unit),
    Reached () ([.bindCompiledSQL b, .callCompiledSQL [] [], .sql b.sql].filterMap bind?)
      σ.view σ.db := by
  let p : Program Unit Unit :=
    ⟨0, 0, fun _ => true, fun _ => (), fun _ _ => (.done, ()), fun _ _ => .null⟩
  have hbound := Life.call (.bindCompiledSQL ⟨[], .statement p⟩) 0
    (.opened 0 : Life (fun _ => true) () [] [] _) nofun
  have hcalled := Life.call (.callCompiledSQL [] []) 1 hbound nofun
  have hran := Life.call (.sql (.statement p)) 1 hcalled nofun
  exact ⟨⟨[], .statement p⟩, _, (runs_on_statements (fun _ => rfl) hran).1⟩

end Connection
end Sqlite3
end Calabash
