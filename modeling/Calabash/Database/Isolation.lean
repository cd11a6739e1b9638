import Calabash.Database.Sqlite3

/-!
# Calls that do not mix

A serial execution runs one call of `CallCompiledSQL` after the other, each with its own
arguments on the database that the last one left. The threads share one statement and
nothing keeps them apart, so their calls can take each other's parameters and rows; calls
of which no two overlap, and which bind every parameter, are a serial execution.
-/

namespace Calabash
namespace Sqlite3

open Sqlite
open Function (update)

variable {T D V : Type} {p : Program D V}

/-- The parameters that these arguments stand for. -/
def wanted (p : Program D V) (args : List Arg) (i : Fin p.params) : Value :=
  ((args[i.val]?).bind Arg.value?).getD .null

/-- The arguments give every parameter a value that can be bound. -/
def Covers (p : Program D V) (args : List Arg) : Prop :=
  ∀ i : Fin p.params, ∃ v, (args[i.val]?).bind Arg.value? = some v ∧ p.accepts v = true

/-- The row that a virtual machine is at. -/
def cells (p : Program D V) (v : V) : Row :=
  (List.range p.columns).map fun i => fmtData (p.column v i)

/-- A run of a virtual machine to its end, with the rows it comes through, if there is no
error. -/
inductive Fetches (p : Program D V) : V → D → Option (List Row) → D → Prop
  | done {v : V} {d d' : D} : p.step v d = (.done, d') → Fetches p v d (some []) d'
  | error {v : V} {d d' : D} : p.step v d = (.error, d') → Fetches p v d none d'
  | row {v v' : V} {d d₁ d' : D} {out : Option (List Row)} : p.step v d = (.row v', d₁) →
      Fetches p v' d₁ out d' → Fetches p v d (out.map (cells p v' :: ·)) d'

/-- What the arguments select from a database, and what this makes of it. -/
def Selects (p : Program D V) (args : List Arg) (d : D) (rows : List Row) (d' : D) : Prop :=
  ∃ out, Fetches p (p.start (wanted p args)) d out d' ∧ rows = out.getD []

/-- A call that has returned. -/
structure Finished (T : Type) where
  thread : T
  args : List Arg
  rows : List Row
  deriving DecidableEq

/-- The calls one after the other. -/
inductive Serial (p : Program D V) (d₀ : D) : List (Finished T) → D → Prop
  | nil : Serial p d₀ [] d₀
  | snoc {calls : List (Finished T)} {c : Finished T} {d d' : D} : Serial p d₀ calls d →
      Selects p c.args d c.rows d' → Serial p d₀ (calls ++ [c]) d'

theorem Serial.selects {d₀ d' : D} {calls : List (Finished T)} (h : Serial p d₀ calls d')
    {c : Finished T} (hc : c ∈ calls) : ∃ d₁ d₂, Selects p c.args d₁ c.rows d₂ := by
  induction h with
  | nil => cases hc
  | snoc _ hselects ih =>
    rcases List.mem_append.mp hc with hc | hc
    · exact ih hc
    · rw [List.mem_singleton.mp hc]
      exact ⟨_, _, hselects⟩

def Event.finished? : Event T → Option (Finished T)
  | .finish t args rows => some ⟨t, args, rows⟩
  | _ => none

/-- The calls that have returned, in the order in which they did. -/
def finished (tr : List (Event T)) : List (Finished T) := tr.filterMap Event.finished?

theorem finished_api (tr : List (Event T)) (t : T) : finished (tr ++ [.api t]) = finished tr := by
  simp [finished, Event.finished?]

theorem finished_call (tr : List (Event T)) (t : T) (args : List Arg) :
    finished (tr ++ [.call t args]) = finished tr := by
  simp [finished, Event.finished?]

theorem finished_finish (tr : List (Event T)) (t : T) (args : List Arg) (rows : List Row) :
    finished (tr ++ [.finish t args rows]) = finished tr ++ [⟨t, args, rows⟩] := by
  simp [finished, Event.finished?]

/-- The calls that have returned gave what they give in some order one after the other. -/
def Isolated (p : Program D V) (d₀ : D) (tr : List (Event T)) : Prop :=
  ∃ (calls : List (Finished T)) (d : D), calls.Perm (finished tr) ∧ Serial p d₀ calls d

/-! ## A run of the virtual machine, from the front -/

/-- The virtual machine has come through these rows and is at the last of them. -/
inductive Reads (p : Program D V) (v : V) (d : D) : List Row → V → D → Prop
  | refl : Reads p v d [] v d
  | row {rows : List Row} {v₁ v₂ : V} {d₁ d₂ : D} : Reads p v d rows v₁ d₁ →
      p.step v₁ d₁ = (.row v₂, d₂) → Reads p v d (rows ++ [cells p v₂]) v₂ d₂

theorem Reads.fetches {v v₁ : V} {d d₁ d' : D} {rows : List Row} {out : Option (List Row)}
    (h : Reads p v d rows v₁ d₁) (hout : Fetches p v₁ d₁ out d') :
    Fetches p v d (out.map (rows ++ ·)) d' := by
  induction h generalizing out with
  | refl => simpa using hout
  | row _ hstep ih =>
    have hmore := ih (.row hstep hout)
    simpa [Option.map_map, Function.comp_def] using hmore

theorem length_cells (p : Program D V) (v : V) : (cells p v).length = p.columns := by
  simp [cells]

/-! ## The steps of a call -/

/-- Between calls the statement is reset and the database is what the calls left. -/
def Quiet (d : D) (σ : Sqlite3 T p) : Prop :=
  (∀ t, (σ.thread t).busy = false) ∧ σ.stmt.cursor = .ready ∧ σ.db = d

/-- How far the call of a thread has come that started on the database `d`. -/
def InCall (d : D) (σ : Sqlite3 T p) : Pc → Prop
  | .idle => False
  | .binding args done => 0 < done ∧ σ.stmt.cursor = .ready ∧ σ.db = d ∧
      ∀ i : Fin p.params, i.val < done → σ.stmt.bindings i = wanted p args i
  | .stepping args rows => ∃ v, σ.stmt.cursor = .row v ∧
      Reads p (p.start (wanted p args)) d rows v σ.db
  | .reading args rows row => ∃ v, σ.stmt.cursor = .row v ∧
      Reads p (p.start (wanted p args)) d (rows ++ [cells p v]) v σ.db ∧
      row = (cells p v).take row.length
  | .resetting args rows => Selects p args d rows σ.db

/-- No two calls overlap: the one that came first is over, or the others have not used the
statement yet. -/
def OneAtATime (d : D) (σ : Sqlite3 T p) : Prop :=
  Quiet d σ ∨ ∃ t, (∀ u, u ≠ t → (σ.thread u).busy = false) ∧ InCall d σ (σ.thread t)

/-- A step of the C interface is taken while no other call is between its first and its
last one, and a call gives every parameter a value. -/
def Apart (p : Program D V) (σ : Sqlite3 T p) : Event T → Prop
  | .call _ args => Covers p args
  | .api t | .finish t _ _ => ∀ u, u ≠ t → (σ.thread u).busy = false

theorem InCall.busy {d : D} {σ : Sqlite3 T p} {pc : Pc} (h : InCall d σ pc) : pc.busy = true := by
  cases pc with
  | idle => exact h.elim
  | binding args done =>
    obtain ⟨k, rfl⟩ := Nat.exists_eq_succ_of_ne_zero h.1.ne'
    rfl
  | stepping args rows => rfl
  | reading args rows row => rfl
  | resetting args rows => rfl

/-- What a thread that goes on while no other is in the middle of a call can rely on. -/
theorem OneAtATime.alone {d : D} {σ : Sqlite3 T p} (h : OneAtATime d σ) {t : T}
    (ht : ∀ u, u ≠ t → (σ.thread u).busy = false) :
    Quiet d σ ∨ InCall d σ (σ.thread t) := by
  rcases h with hquiet | ⟨u, -, hcall⟩
  · exact .inl hquiet
  · by_cases hut : u = t
    · exact .inr (hut ▸ hcall)
    · exact absurd hcall.busy (by simp [ht u hut])

theorem OneAtATime.busy {d : D} {σ : Sqlite3 T p} (h : OneAtATime d σ) {t : T}
    (ht : ∀ u, u ≠ t → (σ.thread u).busy = false) (hbusy : (σ.thread t).busy = true) :
    InCall d σ (σ.thread t) := by
  rcases h.alone ht with hquiet | hcall
  · rw [hquiet.1 t] at hbusy
    cases hbusy
  · exact hcall

/-- Until its first step a call only has its own values in the parameters it has bound. -/
theorem OneAtATime.binding {d : D} {σ : Sqlite3 T p} (h : OneAtATime d σ) {t : T}
    (ht : ∀ u, u ≠ t → (σ.thread u).busy = false) {args : List Arg} {done : ℕ}
    (hpc : σ.thread t = .binding args done) :
    σ.stmt.cursor = .ready ∧ σ.db = d ∧
      ∀ i : Fin p.params, i.val < done → σ.stmt.bindings i = wanted p args i := by
  rcases h.alone ht with ⟨hbusy, hready, hdb⟩ | hcall
  · have hnone := hbusy t
    rw [hpc] at hnone
    cases done with
    | zero => exact ⟨hready, hdb, fun i hi => absurd hi (Nat.not_lt_zero _)⟩
    | succ done => cases hnone
  · rw [hpc] at hcall
    exact hcall.2

/-- The statement starts with the call's own values, or goes on from the call's own row. -/
theorem OneAtATime.machine {d : D} {σ : Sqlite3 T p} (h : OneAtATime d σ)
    (hcovered : ∀ t args done, σ.thread t = .binding args done → Covers p args) {t : T}
    (ht : ∀ u, u ≠ t → (σ.thread u).busy = false) {args : List Arg} {rows : List Row}
    (hsteps : (σ.thread t).steps? = some (args, rows)) :
    Reads p (p.start (wanted p args)) d rows σ.stmt.machine σ.db := by
  cases hpc : σ.thread t with
  | binding args' done =>
    rw [hpc, Pc.steps?, Option.ite_none_right_eq_some] at hsteps
    obtain ⟨hdone, hargs⟩ := hsteps
    cases hargs
    obtain ⟨hready, hdb, hbound⟩ := h.binding ht hpc
    have hall : σ.stmt.bindings = wanted p args := by
      funext i
      obtain ⟨v, hv, -⟩ := hcovered t args done hpc i
      apply hbound
      by_contra hlt
      rw [List.getElem?_eq_none (by omega)] at hv
      cases hv
    rw [Statement.machine, hready, hall, hdb]
    exact .refl
  | stepping args' rows' =>
    rw [hpc] at hsteps
    cases hsteps
    have hcall := h.busy ht (by rw [hpc]; rfl)
    rw [hpc] at hcall
    obtain ⟨v, hcursor, hreads⟩ := hcall
    rw [Statement.machine, hcursor]
    exact hreads
  | idle => rw [hpc] at hsteps; cases hsteps
  | reading _ _ _ => rw [hpc] at hsteps; cases hsteps
  | resetting _ _ => rw [hpc] at hsteps; cases hsteps

variable [DecidableEq T]

theorem others_update {σ : Sqlite3 T p} {t : T} (ht : ∀ u, u ≠ t → (σ.thread u).busy = false)
    (pc : Pc) : ∀ u, u ≠ t → (update σ.thread t pc u).busy = false := by
  intro u hu
  rw [Function.update_of_ne hu]
  exact ht u hu

/-- Binding the next argument of a call that covers the parameters. -/
theorem bind_next {s : Statement p} {args : List Arg} (hcovers : Covers p args) {done : ℕ}
    (hready : s.cursor = .ready)
    (hbound : ∀ i : Fin p.params, i.val < done → s.bindings i = wanted p args i) {a : Arg}
    (ha : args[done]? = some a) :
    (a.value?.elim s fun v => s.bind (done + 1) v).cursor = .ready ∧
      ∀ i : Fin p.params, i.val < done + 1 →
        (a.value?.elim s fun v => s.bind (done + 1) v).bindings i = wanted p args i := by
  by_cases hdone : done < p.params
  · obtain ⟨v, hv, haccepts⟩ := hcovers ⟨done, hdone⟩
    simp only [ha, Option.bind_some] at hv
    rw [hv, Option.elim_some, Statement.bind_eq hready haccepts (by omega) hdone]
    refine ⟨hready, fun i hi => ?_⟩
    by_cases heq : i = ⟨done, hdone⟩
    · subst heq
      simp [wanted, ha, hv]
    · have hlt : i.val < done := by
        have hne : i.val ≠ done := fun hval => heq (Fin.ext hval)
        omega
      exact (Function.update_of_ne heq _ _).trans (hbound i hlt)
  · have hsame : (a.value?.elim s fun v => s.bind (done + 1) v) = s := by
      cases a.value? with
      | none => rfl
      | some v => exact Statement.bind_of_params_lt v (by omega)
    rw [hsame]
    exact ⟨hready, fun i _ => hbound i (by omega)⟩

/-- The invariant of runs in which no two calls overlap. -/
structure Apartness (p : Program D V) (d₀ : D) (tr : List (Event T)) (σ : Sqlite3 T p) : Prop where
  covered : ∀ t args done, σ.thread t = .binding args done → Covers p args
  serial : ∃ d, Serial p d₀ (finished tr) d ∧ OneAtATime d σ

theorem covered_update {f : T → Pc} (h : ∀ t args done, f t = .binding args done → Covers p args)
    {t : T} {pc : Pc} (hpc : ∀ args done, pc = .binding args done → Covers p args) :
    ∀ u args done, update f t pc u = .binding args done → Covers p args := by
  intro u args done hu
  by_cases hut : u = t
  · subst hut
    rw [Function.update_self] at hu
    exact hpc args done hu
  · rw [Function.update_of_ne hut] at hu
    exact h u args done hu

/-- A thread that goes on in its call alone. -/
theorem Apartness.api {d₀ d : D} {tr : List (Event T)} {σ : Sqlite3 T p}
    (hcovered : ∀ t args done, σ.thread t = .binding args done → Covers p args)
    (hserial : Serial p d₀ (finished tr) d) {t : T}
    (ht : ∀ u, u ≠ t → (σ.thread u).busy = false) {stmt : Statement p} {db : D} {pc : Pc}
    (hpc : ∀ args done, pc = .binding args done → Covers p args)
    (hcall : InCall d ⟨stmt, db, update σ.thread t pc⟩ pc) :
    Apartness p d₀ (tr ++ [.api t]) ⟨stmt, db, update σ.thread t pc⟩ := by
  refine ⟨covered_update hcovered hpc, d, ?_, .inr ⟨t, others_update ht _, ?_⟩⟩
  · rw [finished_api]
    exact hserial
  · dsimp only
    rw [Function.update_self]
    exact hcall

/-- A thread that enters `CallCompiledSQL` does not touch the statement. -/
theorem OneAtATime.call {d : D} {σ : Sqlite3 T p} (h : OneAtATime d σ) {t : T}
    (hpc : σ.thread t = .idle) (args : List Arg) :
    OneAtATime d { σ with thread := update σ.thread t (.binding args 0) } := by
  rcases h with ⟨hbusy, hready, hdb⟩ | ⟨u, hothers, hcall⟩
  · refine .inl ⟨fun u => ?_, hready, hdb⟩
    by_cases hut : u = t
    · simp [hut, Pc.busy]
    · exact others_update (fun v _ => hbusy v) _ u hut
  · have hut : u ≠ t := by
      rintro rfl
      rw [hpc] at hcall
      exact hcall
    refine .inr ⟨u, fun v hv => ?_, ?_⟩
    · by_cases hvt : v = t
      · simp [hvt, Pc.busy]
      · simpa [hvt] using hothers v hv
    · dsimp only
      rw [Function.update_of_ne hut]
      exact hcall

theorem apartness_step {d₀ : D} {tr : List (Event T)} {σ σ' : Sqlite3 T p} {a : Event T}
    (h : Apartness p d₀ tr σ) (hstep : Step σ a σ') (hapart : Apart p σ a) :
    Apartness p d₀ (tr ++ [a]) σ' := by
  obtain ⟨hcovered, d, hserial, hone⟩ := h
  cases hstep with
  | call t args hpc =>
    refine ⟨covered_update hcovered fun args' done heq => ?_, d, ?_, hone.call hpc args⟩
    · cases heq
      exact hapart
    · rw [finished_call]
      exact hserial
  | bind t args done b hpc hb =>
    have hc := hcovered t args done hpc
    obtain ⟨hready, hdb, hbound⟩ := hone.binding hapart hpc
    obtain ⟨hready', hbound'⟩ := bind_next hc hready hbound hb
    refine .api hcovered hserial hapart (fun args' done' heq => ?_)
      ⟨Nat.succ_pos _, hready', hdb, hbound'⟩
    cases heq
    exact hc
  | step t args rows answer stmt db hsteps heq =>
    have hreads := hone.machine hcovered hapart hsteps
    refine .api hcovered hserial hapart ?_ ?_
    · intro args' done hpc
      cases answer <;> cases hpc
    · rw [Statement.step] at heq
      split at heq <;> cases heq
      · next v' hv => exact ⟨v', rfl, .row hreads hv, by simp⟩
      · next hv => exact ⟨_, hreads.fetches (.done hv), by simp⟩
      · next hv => exact ⟨_, hreads.fetches (.error hv), rfl⟩
  | read t args rows row hpc hlt =>
    have hcall := hone.busy hapart (by rw [hpc]; rfl)
    rw [hpc] at hcall
    obtain ⟨v, hcursor, hreads, hrow⟩ := hcall
    refine .api hcovered hserial hapart nofun ⟨v, hcursor, hreads, ?_⟩
    have hcell : (cells p v)[row.length]? = some (fmtData (p.column v row.length)) := by
      simp [cells, hlt]
    rw [List.length_append, List.length_singleton, List.take_add_one, ← hrow, hcell]
    simp [Statement.column, hcursor]
  | push t args rows row hpc hlen =>
    have hcall := hone.busy hapart (by rw [hpc]; rfl)
    rw [hpc] at hcall
    obtain ⟨v, hcursor, hreads, hrow⟩ := hcall
    rw [hlen, ← length_cells p v, List.take_length] at hrow
    exact .api hcovered hserial hapart nofun ⟨v, hcursor, hrow ▸ hreads⟩
  | reset t args rows hpc =>
    have hcall := hone.busy hapart (by rw [hpc]; rfl)
    rw [hpc] at hcall
    refine ⟨covered_update hcovered nofun, σ.db, ?_, ?_⟩
    · rw [finished_finish]
      exact .snoc hserial hcall
    · refine .inl ⟨fun u => ?_, rfl, rfl⟩
      by_cases hut : u = t
      · simp [hut, Pc.busy]
      · exact others_update hapart _ u hut

/-- Calls that bind every parameter and do not overlap give what they give one after the
other. -/
theorem isolated_of_apart {d₀ : D} {tr : List (Event T)} {σ : Sqlite3 T p}
    (h : ((system T p d₀).guarded (Apart p)).Trace tr σ) : Isolated p d₀ tr := by
  have hapart := h.invariant (P := fun tr σ => Apartness p d₀ tr σ) ?_ ?_
  · obtain ⟨d, hserial, -⟩ := hapart.serial
    exact ⟨finished tr, d, .refl _, hserial⟩
  · rintro σ rfl
    exact ⟨nofun, d₀, .nil, .inl ⟨fun _ => rfl, rfl, rfl⟩⟩
  · intro tr σ a σ' hinv hstep
    exact apartness_step hinv hstep.1 hstep.2

/-- `SELECT ?1`. -/
def selectParam : Program Unit (Bool × Value) where
  params := 1
  columns := 1
  accepts _ := true
  start bindings := (false, bindings 0)
  step
    | (false, v), d => (.row (true, v), d)
    | (true, _), d => (.done, d)
  column v _ := v.2

theorem selects_selectParam {args : List Arg} {rows : List Row} {d d' : Unit}
    (h : Selects selectParam args d rows d') :
    rows = [[fmtData (wanted selectParam args ⟨0, Nat.one_pos⟩)]] := by
  obtain ⟨out, hfetches, rfl⟩ := h
  cases hfetches with
  | done hstep => cases hstep
  | error hstep => cases hstep
  | row hstep hrest =>
    cases hstep
    cases hrest with
    | done hstep => rfl
    | error hstep => cases hstep
    | row hstep hrest => cases hstep

theorem covers_int (n : Int32) : Covers selectParam [.int n] := by
  intro i
  have hi : i.val = 0 := Nat.lt_one_iff.mp i.isLt
  exact ⟨.integer n.toInt64, by rw [hi]; rfl, rfl⟩

/-- The second thread calls while the first one is at its row, and binds when that one is done. -/
theorem isolated_selectParam : ∃ tr : List (Event Bool),
    finished tr = [⟨true, [.int 1], [[fmtData (.integer 1)]]⟩,
      ⟨false, [.int 2], [[fmtData (.integer 2)]]⟩] ∧ Isolated selectParam () tr := by
  have halone : ∀ (f : Bool → Pc) (t : Bool), (f !t).busy = false →
      ∀ u, u ≠ t → (f u).busy = false := by
    intro f t hf u hu
    rwa [Bool.eq_not_of_ne hu]
  have hinit : ((system Bool selectParam ()).guarded (Apart selectParam)).Trace []
      ⟨.prepared selectParam, (), fun _ => .idle⟩ := .nil rfl
  have hcall := hinit.snoc ⟨.call true [.int 1] rfl, covers_int 1⟩
  have hbind := hcall.snoc ⟨.bind true [.int 1] 0 (.int 1) rfl rfl, halone _ true rfl⟩
  have hrow := hbind.snoc ⟨.step true [.int 1] [] _ _ _ rfl rfl, halone _ true rfl⟩
  have hother := hrow.snoc ⟨.call false [.int 2] rfl, covers_int 2⟩
  have hread := hother.snoc ⟨.read true [.int 1] [] [] rfl (by decide), halone _ true rfl⟩
  have hpush := hread.snoc ⟨.push true [.int 1] [] _ rfl rfl, halone _ true rfl⟩
  have hdone := hpush.snoc ⟨.step true [.int 1] _ _ _ _ rfl rfl, halone _ true rfl⟩
  have hreset := hdone.snoc ⟨.reset true [.int 1] _ rfl, halone _ true rfl⟩
  have hbind' := hreset.snoc ⟨.bind false [.int 2] 0 (.int 2) rfl rfl, halone _ false rfl⟩
  have hrow' := hbind'.snoc ⟨.step false [.int 2] [] _ _ _ rfl rfl, halone _ false rfl⟩
  have hread' := hrow'.snoc ⟨.read false [.int 2] [] [] rfl (by decide), halone _ false rfl⟩
  have hpush' := hread'.snoc ⟨.push false [.int 2] [] _ rfl rfl, halone _ false rfl⟩
  have hdone' := hpush'.snoc ⟨.step false [.int 2] _ _ _ _ rfl rfl, halone _ false rfl⟩
  have hreset' := hdone'.snoc ⟨.reset false [.int 2] _ rfl, halone _ false rfl⟩
  exact ⟨_, rfl, isolated_of_apart hreset'⟩

/-- The second thread binds its parameter before the first one steps: the first call gets
the row of the second one's argument. -/
theorem mixed_selectParam : ∃ (tr : List (Event Bool)) (σ : Sqlite3 Bool selectParam),
    (system Bool selectParam ()).Trace tr σ ∧ ¬ Isolated selectParam () tr := by
  have hinit : (system Bool selectParam ()).Trace []
      ⟨.prepared selectParam, (), fun _ => .idle⟩ := .nil rfl
  have hcall := hinit.snoc (.call true [.int 1] rfl)
  have hcall' := hcall.snoc (.call false [.int 2] rfl)
  have hbind := hcall'.snoc (.bind true [.int 1] 0 (.int 1) rfl rfl)
  have hbind' := hbind.snoc (.bind false [.int 2] 0 (.int 2) rfl rfl)
  have hrow := hbind'.snoc (.step true [.int 1] [] _ _ _ rfl rfl)
  have hread := hrow.snoc (.read true [.int 1] [] [] rfl (by decide))
  have hpush := hread.snoc (.push true [.int 1] [] _ rfl rfl)
  have hdone := hpush.snoc (.step true [.int 1] _ _ _ _ rfl rfl)
  have hreset := hdone.snoc (.reset true [.int 1] _ rfl)
  refine ⟨_, _, hreset, ?_⟩
  rintro ⟨calls, d, hperm, hserial⟩
  have hmem : (⟨true, [.int 1], [[fmtData (.integer 2)]]⟩ : Finished Bool) ∈ calls :=
    hperm.mem_iff.mpr (List.mem_singleton.mpr rfl)
  obtain ⟨d₁, d₂, hselects⟩ := hserial.selects hmem
  have hrows := selects_selectParam hselects
  revert hrows
  decide

end Sqlite3
end Calabash
