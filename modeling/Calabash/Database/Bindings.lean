import Mathlib.Data.Option.Basic
import Calabash.Database.Isolation

/-!
# Parameters that keep their values

One thread calls `CallCompiledSQL`. The statement is reset behind each call, which leaves its
parameters as they are, so what a call does not bind has the value of an earlier call.

## Main results

* `bindings_bindCompiledSQLParam` — the values with which a call steps the statement.
* `runs_callCompiledSQL` — the call is what a thread does that calls alone.
* `bindings_callCompiledSQL` — a call leaves these values in the statement.
* `independent_iff` — when no call with these arguments depends on an earlier one.
-/

namespace Calabash
namespace Sqlite3

open Sqlite
open Function (update)

variable {D V : Type} {p : Program D V}

/-- `BindCompiledSQLParam`, from the parameter `index` on. -/
def bindCompiledSQLParam (stmt : Statement p) (index : ℕ) : List Arg → Statement p
  | [] => stmt
  | a :: args =>
    bindCompiledSQLParam (a.value?.elim stmt fun v => stmt.bind index v) (index + 1) args

/-- `GetDataFromStmt` with the rows so far: an error loses them. With `fuel` the loop is left after
so many steps at the latest. -/
def getDataFromStmt : ℕ → Statement p → D → List Row → Option (List Row × Statement p × D)
  | 0, _, _, _ => none
  | fuel + 1, stmt, d, ret =>
    match stmt.step d with
    | (.row _, stmt, d) =>
      getDataFromStmt fuel stmt d
        (ret ++ [(List.range p.columns).map fun i => fmtData (stmt.column i)])
    | (.done, stmt, d) => some (ret, stmt, d)
    | (.error, stmt, d) => some ([], stmt, d)

/-- `CallCompiledSQL` for a name that has this statement. It never returns when this is `none` for
every `fuel`. -/
def callCompiledSQL (fuel : ℕ) (stmt : Statement p) (d : D) (args : List Arg) :
    Option (List Row × Statement p × D) := do
  let (res, stmt, d) ← getDataFromStmt fuel (bindCompiledSQLParam stmt 1 args) d []
  return (res, stmt.reset, d)

/-- The statement and the database behind earlier calls; what else is done to the database in
between is not known. -/
inductive Earlier (p : Program D V) (d₀ : D) : Statement p → D → Prop
  | prepared : Earlier p d₀ (.prepared p) d₀
  | call {stmt stmt' : Statement p} {d d' : D} {args : List Arg} {res : List Row} (fuel : ℕ) :
      Earlier p d₀ stmt d → callCompiledSQL fuel stmt d args = some (res, stmt', d') →
      Earlier p d₀ stmt' d'
  | other {stmt : Statement p} {d : D} (d' : D) : Earlier p d₀ stmt d → Earlier p d₀ stmt d'

/-- The value that the arguments give to a parameter. -/
def given (p : Program D V) (args : List Arg) (i : ℕ) : Option Value :=
  ((args[i]?).bind Arg.value?).filter p.accepts

/-- No history leaves a value in the parameter. -/
def Untouched (p : Program D V) (i : Fin p.params) : Prop :=
  ∀ (d₀ d : D) (stmt : Statement p), Earlier p d₀ stmt d → stmt.bindings i = .null

/-- After any two histories that leave the same database, the statement is stepped with the same
values, and the call gives the same rows and makes the same of the database. -/
def Independent (p : Program D V) (args : List Arg) : Prop :=
  ∀ (d₀ d₀' d : D) (stmt stmt' : Statement p), Earlier p d₀ stmt d → Earlier p d₀' stmt' d →
    (bindCompiledSQLParam stmt 1 args).bindings = (bindCompiledSQLParam stmt' 1 args).bindings ∧
    ∀ fuel, (callCompiledSQL fuel stmt d args).map (fun r => (r.1, r.2.2)) =
      (callCompiledSQL fuel stmt' d args).map fun r => (r.1, r.2.2)

/-! ## The bound -/

theorem getDataFromStmt_mono {fuel more : ℕ} (hle : fuel ≤ more) {stmt : Statement p} {d : D}
    {ret : List Row} {r : List Row × Statement p × D}
    (h : getDataFromStmt fuel stmt d ret = some r) : getDataFromStmt more stmt d ret = some r := by
  induction fuel generalizing more stmt d ret with
  | zero => cases h
  | succ fuel ih =>
    obtain ⟨more, rfl⟩ : ∃ m, more = m + 1 := ⟨more - 1, by omega⟩
    rw [getDataFromStmt] at h ⊢
    generalize stmt.step d = answer at h ⊢
    obtain ⟨progress, stmt₁, d₁⟩ := answer
    cases progress with
    | row v => exact ih (by omega) h
    | done | error => exact h

/-- A greater bound changes nothing about a call that returns. -/
theorem callCompiledSQL_mono {fuel more : ℕ} (hle : fuel ≤ more) {stmt : Statement p} {d : D}
    {args : List Arg} {r : List Row × Statement p × D}
    (h : callCompiledSQL fuel stmt d args = some r) :
    callCompiledSQL more stmt d args = some r := by
  obtain ⟨q, hrows, hreset⟩ := Option.bind_eq_some_iff.mp h
  rw [callCompiledSQL, getDataFromStmt_mono hle hrows]
  exact hreset

/-! ## The values of the parameters -/

theorem cursor_bind (stmt : Statement p) (index : ℕ) (v : Value) :
    (stmt.bind index v).cursor = stmt.cursor := by
  rw [Statement.bind]
  split <;> rfl

theorem cursor_bindCompiledSQLParam (stmt : Statement p) (index : ℕ) (args : List Arg) :
    (bindCompiledSQLParam stmt index args).cursor = stmt.cursor := by
  induction args generalizing stmt index with
  | nil => rfl
  | cons a args ih =>
    rw [bindCompiledSQLParam, ih]
    cases a.value? with
    | none => rfl
    | some v => exact cursor_bind stmt index v

/-- What binding one argument does to a parameter. -/
theorem bindings_bind {stmt : Statement p} (hready : stmt.cursor = .ready) {a : Arg} {index : ℕ}
    (i : Fin p.params) : (a.value?.elim stmt fun v => stmt.bind (index + 1) v).bindings i =
      if i.val = index then (a.value?.filter p.accepts).getD (stmt.bindings i)
      else stmt.bindings i := by
  cases hvalue : a.value? with
  | none => simp
  | some v =>
    rw [Option.elim_some]
    by_cases hv : p.accepts v = true
    · by_cases hi : i.val = index
      · subst hi
        rw [Statement.bind_eq hready hv (by omega) i.isLt, if_pos rfl,
          Option.filter_some_pos hv]
        exact Function.update_self i v stmt.bindings
      · rw [if_neg hi, Statement.bind]
        split
        · next hbound =>
          have hne : i ≠ ⟨index + 1 - 1, by omega⟩ := fun heq => hi (congrArg Fin.val heq)
          exact Function.update_of_ne hne v stmt.bindings
        · rfl
    · rw [Statement.bind, dif_neg fun h => hv h.2.1, Option.filter_some_neg (by simpa using hv),
        Option.getD_none, ite_self]

/-- A call steps the statement with the values of its arguments, and where they give none, with
those that were there. -/
theorem bindings_bindCompiledSQLParam {stmt : Statement p} (hready : stmt.cursor = .ready)
    (args : List Arg) (i : Fin p.params) :
    (bindCompiledSQLParam stmt 1 args).bindings i =
      (given p args i.val).getD (stmt.bindings i) := by
  suffices hall : ∀ (index : ℕ) (stmt : Statement p), stmt.cursor = .ready →
      (bindCompiledSQLParam stmt (index + 1) args).bindings i =
        if index ≤ i.val then (given p args (i.val - index)).getD (stmt.bindings i)
        else stmt.bindings i by
    simpa using hall 0 stmt hready
  intro index stmt hready
  induction args generalizing index stmt with
  | nil => simp [bindCompiledSQLParam, given]
  | cons a args ih =>
    have hnext : (a.value?.elim stmt fun v => stmt.bind (index + 1) v).cursor = .ready := by
      cases a.value? with
      | none => exact hready
      | some v => rw [Option.elim_some, cursor_bind, hready]
    rw [bindCompiledSQLParam, ih (index + 1) _ hnext, bindings_bind hready]
    rcases Nat.lt_trichotomy i.val index with hlt | heq | hgt
    · rw [if_neg (by omega), if_neg (by omega), if_neg (by omega)]
    · subst heq
      simp [given]
    · have hsub : i.val - index = i.val - (index + 1) + 1 := by omega
      rw [if_pos (by omega), if_neg (by omega), if_pos (by omega), hsub]
      simp [given]

/-! ## A thread that is alone -/

section Thread
variable {T : Type} [DecidableEq T] {d₀ : D}

/-- A run in which these calls return. -/
def Runs (d₀ : D) (σ : Sqlite3 T p) (calls : List (Finished T)) (σ' : Sqlite3 T p) : Prop :=
  ∃ tr, (system T p d₀).Run σ tr σ' ∧ finished tr = calls

theorem Runs.refl (σ : Sqlite3 T p) : Runs d₀ σ [] σ := ⟨[], .nil σ, rfl⟩

theorem Runs.step {σ σ' : Sqlite3 T p} {a : Event T} (h : Step σ a σ') :
    Runs d₀ σ (finished [a]) σ' := ⟨[a], .snoc (.nil σ) h, rfl⟩

theorem Runs.trans {σ σ' σ'' : Sqlite3 T p} {calls more : List (Finished T)}
    (h : Runs d₀ σ calls σ') (h' : Runs d₀ σ' more σ'') : Runs d₀ σ (calls ++ more) σ'' := by
  obtain ⟨tr, hrun, rfl⟩ := h
  obtain ⟨tr', hrun', rfl⟩ := h'
  exact ⟨tr ++ tr', hrun.trans hrun', List.filterMap_append⟩

theorem runs_bind {t : T} {args : List Arg} {done : ℕ} (hdone : done ≤ args.length)
    (stmt : Statement p) (d : D) (thread : T → Pc) :
    Runs d₀ ⟨stmt, d, update thread t (.binding args done)⟩ []
      ⟨bindCompiledSQLParam stmt (done + 1) (args.drop done), d,
        update thread t (.binding args args.length)⟩ := by
  induction hleft : args.length - done generalizing done stmt with
  | zero =>
    obtain rfl : done = args.length := by omega
    rw [List.drop_length]
    exact .refl _
  | succ left ih =>
    have hlt : done < args.length := by omega
    have hbind := Step.bind (σ := ⟨stmt, d, update thread t (.binding args done)⟩) t args done
      args[done] (Function.update_self ..) (List.getElem?_eq_getElem hlt)
    rw [Function.update_idem] at hbind
    rw [List.drop_eq_getElem_cons hlt]
    exact (Runs.step hbind).trans (ih (by omega) _ (by omega))

theorem runs_read {t : T} {args : List Arg} {rows : List Row} {n : ℕ} (hn : n ≤ p.columns)
    (stmt : Statement p) (d : D) (thread : T → Pc) :
    Runs d₀ ⟨stmt, d, update thread t
        (.reading args rows ((List.range n).map fun i => fmtData (stmt.column i)))⟩ []
      ⟨stmt, d, update thread t (.stepping args
        (rows ++ [(List.range p.columns).map fun i => fmtData (stmt.column i)]))⟩ := by
  induction hleft : p.columns - n generalizing n with
  | zero =>
    obtain rfl : n = p.columns := by omega
    have hpush := Step.push (σ := ⟨stmt, d, update thread t
      (.reading args rows ((List.range p.columns).map fun i => fmtData (stmt.column i)))⟩)
      t args rows _ (Function.update_self ..) (by simp)
    rw [Function.update_idem] at hpush
    exact .step hpush
  | succ left ih =>
    have hread := Step.read (σ := ⟨stmt, d, update thread t
      (.reading args rows ((List.range n).map fun i => fmtData (stmt.column i)))⟩)
      t args rows _ (Function.update_self ..) (by simp; omega)
    have hlength : ((List.range n).map fun i => fmtData (stmt.column i)).length = n := by simp
    rw [Function.update_idem, hlength] at hread
    have hrest := @ih (n + 1) (by omega) (by omega)
    rw [List.range_succ, List.map_append] at hrest
    exact (Runs.step hread).trans hrest

theorem runs_getDataFromStmt {t : T} {args : List Arg} {rows res : List Row} {fuel : ℕ}
    {stmt stmt' : Statement p} {d d' : D} {pc : Pc} (hpc : pc.steps? = some (args, rows))
    (h : getDataFromStmt fuel stmt d rows = some (res, stmt', d')) (thread : T → Pc) :
    Runs d₀ ⟨stmt, d, update thread t pc⟩ []
      ⟨stmt', d', update thread t (.resetting args res)⟩ := by
  induction fuel generalizing stmt d rows pc with
  | zero => cases h
  | succ fuel ih =>
    rw [getDataFromStmt] at h
    have hstep := Step.step (σ := ⟨stmt, d, update thread t pc⟩) t args rows (stmt.step d).1
      (stmt.step d).2.1 (stmt.step d).2.2 (by simpa using hpc) rfl
    rw [Function.update_idem] at hstep
    generalize stmt.step d = answer at h hstep
    obtain ⟨progress, stmt₁, d₁⟩ := answer
    cases progress with
    | row v =>
      have hread := @runs_read _ _ p T _ d₀ t args rows 0 (Nat.zero_le _) stmt₁ d₁ thread
      exact ((Runs.step hstep).trans hread).trans (ih rfl h)
    | done =>
      cases h
      exact .step hstep
    | error =>
      cases h
      exact .step hstep

/-- What a thread does that calls `CallCompiledSQL` alone. -/
theorem runs_callCompiledSQL {fuel : ℕ} {σ : Sqlite3 T p} {t : T} (ht : σ.thread t = .idle)
    {args : List Arg} {res : List Row} {stmt' : Statement p} {d' : D}
    (h : callCompiledSQL fuel σ.stmt σ.db args = some (res, stmt', d')) :
    Runs d₀ σ [⟨t, args, res⟩] ⟨stmt', d', σ.thread⟩ := by
  obtain ⟨⟨rows, stmt₁, d₁⟩, hrows, hreset⟩ := Option.bind_eq_some_iff.mp h
  cases hreset
  have hcall : Runs d₀ σ [] _ := .step (.call t args ht)
  have hbind := @runs_bind _ _ p T _ d₀ t args 0 (Nat.zero_le _) σ.stmt σ.db σ.thread
  have hdata := @runs_getDataFromStmt _ _ p T _ d₀ t args [] res fuel _ _ _ _
    (.binding args args.length) (if_pos rfl) hrows σ.thread
  have hend := Step.reset (σ := ⟨stmt₁, d', update σ.thread t (.resetting args res)⟩) t args res
    (Function.update_self ..)
  rw [Function.update_idem, ← ht, Function.update_eq_self] at hend
  exact ((hcall.trans hbind).trans hdata).trans (.step hend)

end Thread
/-! ## Calls after different histories -/

theorem Earlier.ready {d₀ d : D} {stmt : Statement p} (h : Earlier p d₀ stmt d) :
    stmt.cursor = .ready := by
  induction h with
  | prepared => rfl
  | call _ _ hcall _ =>
    obtain ⟨r, -, hr⟩ := Option.bind_eq_some_iff.mp hcall
    cases hr
    rfl
  | other _ _ ih => exact ih

theorem bindings_step (stmt : Statement p) (d : D) :
    (stmt.step d).2.1.bindings = stmt.bindings := by
  rw [Statement.step]
  split <;> rfl

theorem bindings_getDataFromStmt {fuel : ℕ} {stmt stmt' : Statement p} {d d' : D}
    {ret res : List Row} (h : getDataFromStmt fuel stmt d ret = some (res, stmt', d')) :
    stmt'.bindings = stmt.bindings := by
  induction fuel generalizing stmt d ret with
  | zero => cases h
  | succ fuel ih =>
    rw [getDataFromStmt] at h
    have hstep := bindings_step stmt d
    generalize stmt.step d = answer at h hstep
    obtain ⟨progress, stmt₁, d₁⟩ := answer
    cases progress with
    | row v => exact (ih h).trans hstep
    | done =>
      cases h
      exact hstep
    | error =>
      cases h
      exact hstep

/-- A call leaves the values with which the statement was stepped. -/
theorem bindings_callCompiledSQL {fuel : ℕ} {stmt stmt' : Statement p} {d d' : D}
    {args : List Arg} {res : List Row}
    (h : callCompiledSQL fuel stmt d args = some (res, stmt', d')) :
    stmt'.bindings = (bindCompiledSQLParam stmt 1 args).bindings := by
  obtain ⟨⟨rows, stmt₁, d₁⟩, hrows, hreset⟩ := Option.bind_eq_some_iff.mp h
  cases hreset
  have hkept : stmt₁.bindings = _ := bindings_getDataFromStmt hrows
  exact hkept

/-- The parameters that the arguments do not give are as an earlier call left them. -/
theorem Independent.given_or_untouched {args : List Arg} (h : Independent p args)
    (i : Fin p.params) : (∃ v, given p args i.val = some v) ∨ Untouched p i := by
  rw [or_iff_not_imp_left]
  intro hnone d₀ d stmt hearlier
  have hgiven : given p args i.val = none := by
    rw [Option.eq_none_iff_forall_ne_some]
    exact fun v hv => hnone ⟨v, hv⟩
  have hsame := congrFun (h d₀ d d stmt _ hearlier .prepared).1 i
  rwa [bindings_bindCompiledSQLParam hearlier.ready, bindings_bindCompiledSQLParam rfl, hgiven,
    Option.getD_none, Option.getD_none] at hsame

/-- For every statement and every argument list: the call does not depend on earlier ones exactly
when each parameter has an argument that gives a value which can be bound, or is one in which no
calls leave a value. -/
theorem independent_iff (p : Program D V) (args : List Arg) :
    Independent p args ↔
      ∀ i : Fin p.params, (∃ v, given p args i.val = some v) ∨ Untouched p i := by
  refine ⟨Independent.given_or_untouched, fun h => ?_⟩
  intro d₀ d₀' d stmt stmt' hearlier hearlier'
  have hready := hearlier.ready
  have hready' := hearlier'.ready
  have hbindings : (bindCompiledSQLParam stmt 1 args).bindings =
      (bindCompiledSQLParam stmt' 1 args).bindings := by
    funext i
    rw [bindings_bindCompiledSQLParam hready, bindings_bindCompiledSQLParam hready']
    rcases h i with ⟨v, hv⟩ | huntouched
    · rw [hv, Option.getD_some, Option.getD_some]
    · rw [huntouched _ _ _ hearlier, huntouched _ _ _ hearlier']
  have hcursor : (bindCompiledSQLParam stmt 1 args).cursor =
      (bindCompiledSQLParam stmt' 1 args).cursor := by
    rw [cursor_bindCompiledSQLParam, cursor_bindCompiledSQLParam, hready, hready']
  have hstmt : bindCompiledSQLParam stmt 1 args = bindCompiledSQLParam stmt' 1 args :=
    congrArg₂ Statement.mk hbindings hcursor
  refine ⟨hbindings, fun fuel => ?_⟩
  rw [callCompiledSQL, callCompiledSQL, hstmt]

/-- A call that returns leaves the values of its arguments. -/
theorem not_untouched {fuel : ℕ} {d d' : D} {args : List Arg} {res : List Row}
    {stmt' : Statement p}
    (hcall : callCompiledSQL fuel (.prepared p) d args = some (res, stmt', d'))
    {i : Fin p.params} {v : Value} (hgiven : given p args i.val = some v) (hv : v ≠ .null) :
    ¬ Untouched p i := by
  intro huntouched
  have hnull := huntouched d d' stmt' (.call fuel .prepared hcall)
  rw [bindings_callCompiledSQL hcall, bindings_bindCompiledSQLParam rfl, hgiven] at hnull
  exact hv hnull

/-- A call without an argument for its parameter, after a call with one and after none. -/
theorem independent_fails : ¬ Independent selectParam [] := by
  intro h
  obtain ⟨res, stmt, d, hcall⟩ : ∃ res stmt d,
      callCompiledSQL 2 (.prepared selectParam) () [.int 1] = some (res, stmt, d) :=
    ⟨_, _, _, rfl⟩
  rcases h.given_or_untouched ⟨0, Nat.one_pos⟩ with ⟨v, hv⟩ | huntouched
  · cases hv
  · exact not_untouched hcall rfl (by decide) huntouched

end Sqlite3
end Calabash
