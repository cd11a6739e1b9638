import Mathlib.Data.List.Basic
import Calabash.Cpp
import Calabash.Database.Bindings

/-!
# Statements under their names

`BindCompiledSQL` puts into `sql_map_` whatever `sqlite3_prepare_v2` left in `sql_res`, so a text
that did not compile has an entry with a null pointer, in front of every later statement of the
same name.

## Main results

* `programs_of_reached` — what the map holds after any binds and calls.
* `earlier_of_reached` — its statements are as earlier calls left them.
* `served_iff` — when a call by name runs a statement of that name.
-/

namespace Calabash
namespace Sqlite3

open Sqlite

variable {D V : Type}

/-- What `sqlite3_prepare_v2` makes of a text; one without a statement in it is no error. -/
inductive Compiled (D V : Type)
  | error
  | empty
  | statement (p : Program D V)

def Compiled.program? : Compiled D V → Option (Program D V)
  | error | empty => none
  | statement p => some p

/-- A `sqlite3_stmt` with its program. -/
structure Prepared (D V : Type) where
  program : Program D V
  stmt : Statement program

/-- `sql_res`: a null pointer without a statement. -/
def Compiled.sqlRes (c : Compiled D V) : Option (Prepared D V) :=
  c.program?.map fun p => ⟨p, .prepared p⟩

/-- A call of `BindCompiledSQL`. -/
structure Bind (D V : Type) where
  sqlName : Bytes
  sql : Compiled D V

/-- `sql_map_`, its entries in the order of their insertion. -/
abbrev SqlMap (D V : Type) := List (Bytes × Option (Prepared D V))

/-- `BindCompiledSQL`. The status goes into the log only. -/
def bindCompiledSQL (sqlMap : SqlMap D V) (b : Bind D V) : SqlMap D V :=
  sqlMap ++ [(b.sqlName, b.sql.sqlRes)]

/-- What the C interface is called with. -/
inductive Handed (D V : Type)
  | nothing
  | null
  | statement (s : Prepared D V)

/-- `find` and the test of its result: a multimap gives the first entry that was inserted. -/
def find (sqlMap : SqlMap D V) (sqlName : Bytes) : Handed D V :=
  match sqlMap.find? fun e => e.1 == sqlName with
  | none => .nothing
  | some (_, none) => .null
  | some (_, some s) => .statement s

/-- The statement under a name, as a call leaves it. -/
def store (sqlName : Bytes) (s : Prepared D V) : SqlMap D V → SqlMap D V
  | [] => []
  | e :: sqlMap =>
    if e.1 = sqlName then (e.1, some s) :: sqlMap else e :: store sqlName s sqlMap

/-- `CallCompiledSQL` with a name. A null statement is `SQLITE_MISUSE` to every function that
gets it, which leaves no rows. -/
def callByName (fuel : ℕ) (sqlMap : SqlMap D V) (d : D) (sqlName : Bytes) (args : List Arg) :
    Option (List Row × SqlMap D V × D) :=
  match find sqlMap sqlName with
  | .nothing | .null => some ([], sqlMap, d)
  | .statement s => (callCompiledSQL fuel s.stmt d args).map fun (res, stmt, d) =>
      (res, store sqlName ⟨s.program, stmt⟩ sqlMap, d)

/-- The map and the database behind these binds, with any calls between them. What else is done
to the database is not known. -/
inductive Reached (d₀ : D) : List (Bind D V) → SqlMap D V → D → Prop
  | opened : Reached d₀ [] [] d₀
  | bind {binds : List (Bind D V)} {sqlMap : SqlMap D V} {d : D} (b : Bind D V) :
      Reached d₀ binds sqlMap d → Reached d₀ (binds ++ [b]) (bindCompiledSQL sqlMap b) d
  | call {binds : List (Bind D V)} {sqlMap sqlMap' : SqlMap D V} {d d' : D} {res : List Row}
      (fuel : ℕ) (sqlName : Bytes) (args : List Arg) : Reached d₀ binds sqlMap d →
      callByName fuel sqlMap d sqlName args = some (res, sqlMap', d') →
      Reached d₀ binds sqlMap' d'
  | other {binds : List (Bind D V)} {sqlMap : SqlMap D V} {d : D} (d' : D) :
      Reached d₀ binds sqlMap d → Reached d₀ binds sqlMap d'

/-- The programs that were compiled for a name. -/
def compiledAs (binds : List (Bind D V)) (sqlName : Bytes) : List (Program D V) :=
  (binds.filter fun b => b.sqlName == sqlName).filterMap fun b => b.sql.program?

/-- After these binds, a call by this name runs a statement that was compiled for it, and returns
as for an unknown name where there is none; it never hands over a null statement. -/
def Served (d₀ : D) (binds : List (Bind D V)) (sqlName : Bytes) : Prop :=
  ∀ (sqlMap : SqlMap D V) (d : D), Reached d₀ binds sqlMap d →
    find sqlMap sqlName ≠ .null ∧
    (compiledAs binds sqlName ≠ [] → ∃ s, find sqlMap sqlName = .statement s ∧
      s.program ∈ compiledAs binds sqlName ∧
      ∀ fuel args, (callByName fuel sqlMap d sqlName args).map (fun r => (r.1, r.2.2)) =
        (callCompiledSQL fuel s.stmt d args).map fun r => (r.1, r.2.2)) ∧
    (compiledAs binds sqlName = [] → find sqlMap sqlName = .nothing ∧
      ∀ fuel args, callByName fuel sqlMap d sqlName args = some ([], sqlMap, d))

/-! ## What the map holds -/

/-- The names and the programs of a map. -/
def programs (sqlMap : SqlMap D V) : List (Bytes × Option (Program D V)) :=
  sqlMap.map fun e => (e.1, e.2.map Prepared.program)

theorem program_sqlRes (c : Compiled D V) : c.sqlRes.map Prepared.program = c.program? := by
  cases c <;> rfl

theorem find_eq_statement {sqlMap : SqlMap D V} {sqlName : Bytes} {s : Prepared D V}
    (h : find sqlMap sqlName = .statement s) :
    sqlMap.find? (fun e => e.1 == sqlName) = some (sqlName, some s) := by
  rw [find] at h
  cases hentry : sqlMap.find? fun e => e.1 == sqlName with
  | none =>
    rw [hentry] at h
    cases h
  | some e =>
    have hname : e.1 = sqlName := by simpa using List.find?_some hentry
    obtain ⟨name, stmt⟩ := e
    obtain rfl : name = sqlName := hname
    rw [hentry] at h
    cases stmt with
    | none => cases h
    | some s' =>
      cases h
      rfl

/-- A call puts the statement back under the same program. -/
theorem programs_store {sqlMap : SqlMap D V} {sqlName : Bytes} {s s' : Prepared D V}
    (h : find sqlMap sqlName = .statement s) (hprogram : s'.program = s.program) :
    programs (store sqlName s' sqlMap) = programs sqlMap := by
  have hentry := find_eq_statement h
  clear h
  induction sqlMap with
  | nil => cases hentry
  | cons e sqlMap ih =>
    rw [store]
    by_cases he : e.1 = sqlName
    · have hfirst : e = (sqlName, some s) := by simpa [he] using hentry
      rw [if_pos he, hfirst]
      simp [programs, hprogram]
    · have hrest : sqlMap.find? (fun e => e.1 == sqlName) = some (sqlName, some s) := by
        simpa [he] using hentry
      rw [if_neg he, programs, List.map_cons]
      exact congrArg _ (ih hrest)

/-- What a call by name can do. -/
theorem callByName_cases {fuel : ℕ} {sqlMap sqlMap' : SqlMap D V} {d d' : D} {sqlName : Bytes}
    {args : List Arg} {res : List Row}
    (h : callByName fuel sqlMap d sqlName args = some (res, sqlMap', d')) :
    sqlMap' = sqlMap ∧ d' = d ∨
      ∃ s stmt, find sqlMap sqlName = .statement s ∧
        callCompiledSQL fuel s.stmt d args = some (res, stmt, d') ∧
        sqlMap' = store sqlName ⟨s.program, stmt⟩ sqlMap := by
  rw [callByName] at h
  cases hfind : find sqlMap sqlName with
  | nothing | null =>
    rw [hfind] at h
    cases h
    exact .inl ⟨rfl, rfl⟩
  | statement s =>
    rw [hfind] at h
    obtain ⟨⟨res, stmt, d₁⟩, hcall, hstore⟩ := Option.map_eq_some_iff.mp h
    cases hstore
    exact .inr ⟨s, stmt, rfl, hcall, rfl⟩

/-- The map holds the results of the binds in their order, whatever calls there are between. -/
theorem programs_of_reached {d₀ d : D} {binds : List (Bind D V)} {sqlMap : SqlMap D V}
    (h : Reached d₀ binds sqlMap d) :
    programs sqlMap = binds.map fun b => (b.sqlName, b.sql.program?) := by
  induction h with
  | opened => rfl
  | bind b _ ih =>
    rw [bindCompiledSQL, programs, List.map_append, List.map_append, ← ih, List.map_singleton,
      program_sqlRes]
    rfl
  | call fuel sqlName args _ hcall ih =>
    rcases callByName_cases hcall with ⟨rfl, -⟩ | ⟨s, stmt, hfind, -, rfl⟩
    · exact ih
    · have hkept := @programs_store _ _ _ _ s ⟨s.program, stmt⟩ hfind rfl
      exact hkept.trans ih
  | other _ _ ih => exact ih

theorem mem_store {sqlMap : SqlMap D V} {sqlName : Bytes} {s : Prepared D V}
    {e : Bytes × Option (Prepared D V)} (h : e ∈ store sqlName s sqlMap) :
    e.2 = some s ∨ e ∈ sqlMap := by
  induction sqlMap with
  | nil => cases h
  | cons e' sqlMap ih =>
    rw [store] at h
    split_ifs at h with he
    · rcases List.mem_cons.mp h with rfl | h
      · exact .inl rfl
      · exact .inr (List.mem_cons_of_mem _ h)
    · rcases List.mem_cons.mp h with rfl | h
      · exact .inr List.mem_cons_self
      · exact (ih h).imp_right (List.mem_cons_of_mem _)

/-- The statements of the map have been bound and stepped by calls only. -/
theorem earlier_of_reached {d₀ d : D} {binds : List (Bind D V)} {sqlMap : SqlMap D V}
    (h : Reached d₀ binds sqlMap d) {e : Bytes × Option (Prepared D V)} (he : e ∈ sqlMap)
    {s : Prepared D V} (hs : e.2 = some s) : ∃ d₁, Earlier s.program d₁ s.stmt d := by
  induction h generalizing e s with
  | opened => cases he
  | @bind _ _ d b _ ih =>
    rcases List.mem_append.mp he with he | he
    · exact ih he hs
    · obtain rfl := List.mem_singleton.mp he
      obtain ⟨p, -, rfl⟩ := Option.map_eq_some_iff.mp hs
      exact ⟨d, .prepared⟩
  | @call _ _ _ _ d' _ fuel sqlName args _ hcall ih =>
    rcases callByName_cases hcall with ⟨rfl, rfl⟩ | ⟨s₁, stmt, hfind, hrun, rfl⟩
    · exact ih he hs
    · rcases mem_store he with hstored | he
      · obtain rfl := Option.some.inj (hstored.symm.trans hs)
        obtain ⟨d₁, hearlier⟩ := ih (List.mem_of_find?_eq_some (find_eq_statement hfind)) rfl
        exact ⟨d₁, .call fuel hearlier hrun⟩
      · obtain ⟨d₁, hearlier⟩ := ih he hs
        exact ⟨d₁, .other d' hearlier⟩
  | other d' _ ih =>
    obtain ⟨d₁, hearlier⟩ := ih he hs
    exact ⟨d₁, .other d' hearlier⟩

/-! ## What a call gets -/

def Handed.program : Handed D V → Option (Option (Program D V))
  | nothing => none
  | null => some none
  | statement s => some (some s.program)

theorem Handed.eq_nothing {h : Handed D V} (hp : h.program = none) : h = nothing := by
  cases h with
  | nothing => rfl
  | null | statement => cases hp

theorem Handed.eq_null {h : Handed D V} (hp : h.program = some none) : h = null := by
  cases h with
  | null => rfl
  | nothing | statement => cases hp

theorem Handed.eq_statement {h : Handed D V} {p : Program D V}
    (hp : h.program = some (some p)) : ∃ s, h = statement s ∧ s.program = p := by
  cases h with
  | statement s => exact ⟨s, rfl, Option.some.inj (Option.some.inj hp)⟩
  | nothing | null => cases hp

/-- A call gets what the first bind of the name left. -/
theorem program_find {d₀ d : D} {binds : List (Bind D V)} {sqlMap : SqlMap D V}
    (h : Reached d₀ binds sqlMap d) (sqlName : Bytes) :
    (find sqlMap sqlName).program =
      (binds.find? fun b => b.sqlName == sqlName).map fun b => b.sql.program? := by
  have hfind : (find sqlMap sqlName).program =
      ((programs sqlMap).find? fun e => e.1 == sqlName).map Prod.snd := by
    rw [find, programs, List.find?_map]
    change _ = ((sqlMap.find? fun e => e.1 == sqlName).map _).map _
    generalize (sqlMap.find? fun e => e.1 == sqlName) = entry
    rcases entry with _ | ⟨name, _ | s⟩ <;> rfl
  rw [hfind, programs_of_reached h, List.find?_map]
  change ((binds.find? fun b => b.sqlName == sqlName).map _).map _ = _
  rw [Option.map_map]
  rfl

/-- The first text that was bound to the name, if there is one, has compiled. -/
def FirstCompiled (binds : List (Bind D V)) (sqlName : Bytes) : Prop :=
  ∀ b ∈ binds.find? fun b => b.sqlName == sqlName, b.sql.program?.isSome = true

theorem compiledAs_eq_nil {binds : List (Bind D V)} {sqlName : Bytes}
    (h : (binds.find? fun b => b.sqlName == sqlName) = none) : compiledAs binds sqlName = [] := by
  have hnone : (binds.filter fun b => b.sqlName == sqlName) = [] :=
    List.filter_eq_nil_iff.mpr (List.find?_eq_none.mp h)
  rw [compiledAs, hnone, List.filterMap_nil]

theorem mem_compiledAs {binds : List (Bind D V)} {sqlName : Bytes} {b : Bind D V}
    (h : (binds.find? fun b => b.sqlName == sqlName) = some b) {p : Program D V}
    (hp : b.sql.program? = some p) : p ∈ compiledAs binds sqlName := by
  have hname := List.find?_some (p := fun b : Bind D V => b.sqlName == sqlName) h
  exact List.mem_filterMap.mpr ⟨b, List.mem_filter.mpr ⟨List.mem_of_find?_eq_some h, hname⟩, hp⟩

/-- The map behind the binds alone. -/
theorem reached_binds (d₀ : D) (binds : List (Bind D V)) :
    ∃ sqlMap, Reached d₀ binds sqlMap d₀ := by
  induction binds using List.reverseRecOn with
  | nil => exact ⟨[], .opened⟩
  | append_singleton binds b ih =>
    obtain ⟨sqlMap, h⟩ := ih
    exact ⟨_, .bind b h⟩

/-- A null statement is handed over where the first text of the name has not compiled. -/
theorem Served.firstCompiled {d₀ : D} {binds : List (Bind D V)} {sqlName : Bytes}
    (h : Served d₀ binds sqlName) : FirstCompiled binds sqlName := by
  intro b hb
  obtain ⟨sqlMap, hreached⟩ := reached_binds d₀ binds
  have hprogram := program_find hreached sqlName
  rw [Option.mem_def.mp hb, Option.map_some] at hprogram
  cases hp : b.sql.program? with
  | some p => rfl
  | none =>
    rw [hp] at hprogram
    exact absurd (Handed.eq_null hprogram) (h sqlMap d₀ hreached).1

/-- For any binds and any name: calls are served, whatever calls come between, exactly when the
first text that was bound to the name compiled, or there is none. -/
theorem served_iff (d₀ : D) (binds : List (Bind D V)) (sqlName : Bytes) :
    Served d₀ binds sqlName ↔ FirstCompiled binds sqlName := by
  refine ⟨Served.firstCompiled, fun hfirst sqlMap d hreached => ?_⟩
  have hprogram := program_find hreached sqlName
  cases hb : binds.find? fun b => b.sqlName == sqlName with
  | none =>
    rw [hb, Option.map_none] at hprogram
    have hnothing := Handed.eq_nothing hprogram
    refine ⟨by rw [hnothing]; nofun, fun hne => absurd (compiledAs_eq_nil hb) hne, fun _ => ?_⟩
    refine ⟨hnothing, fun fuel args => ?_⟩
    rw [callByName, hnothing]
  | some b =>
    obtain ⟨p, hp⟩ := Option.isSome_iff_exists.mp (hfirst b hb)
    have hmem := mem_compiledAs hb hp
    rw [hb, Option.map_some, hp] at hprogram
    obtain ⟨s, hfind, rfl⟩ := Handed.eq_statement hprogram
    refine ⟨by rw [hfind]; nofun, fun _ => ⟨s, hfind, hmem, fun fuel args => ?_⟩, ?_⟩
    · rw [callByName, hfind, Option.map_map]
      rfl
    · intro hnone
      rw [hnone] at hmem
      cases hmem

/-- A text with an error, then a statement under the same name. -/
theorem error_not_served :
    ¬ Served () [⟨[97], .error⟩, ⟨[97], .statement selectParam⟩] [97] := by
  intro h
  have hfirst := h.firstCompiled _ rfl
  cases hfirst

end Sqlite3
end Calabash
