import Mathlib.Data.List.Forall2
import Mathlib.Logic.Function.Basic
import Calabash.Cpp

/-!
# `Logger`

`Log` keeps the day of the month of the last call. When the day is another one, it closes its
file, opens the one of the date with truncation, and writes a line of its own by a call of
itself. What it does to the files is a list of operations; how the file system answers is part
of a call.

## Main results

* `log_of_today`, `log_of_other_day` — the two ways of a call.
* `keeps_iff` — when every line goes to the file of its date and stays there.
* `Keeps.contents` — what the files hold then.
* `orderly_iff_of_sorted` — times that do not decrease come back to no date.
-/

namespace Calabash
namespace Logger

/-! ## Dates and texts -/

/-- The date in a `tm`. The years of the system clock have four digits. -/
structure Date where
  year : ℕ
  month : ℕ
  day : ℕ
  year_le : 1000 ≤ year ∧ year ≤ 9999
  month_le : 1 ≤ month ∧ month ≤ 12
  day_le : 1 ≤ day ∧ day ≤ 31
  deriving DecidableEq

/-- What `GetNowTime` gives. -/
structure Tm where
  date : Date
  hour : Fin 24
  minute : Fin 60
  second : Fin 60

/-- Dates in their order. -/
def Date.ordinal (d : Date) : ℕ := (d.year * 12 + (d.month - 1)) * 31 + (d.day - 1)

/-- Times in their order. -/
def Tm.ordinal (t : Tm) : ℕ := ((t.date.ordinal * 24 + t.hour) * 60 + t.minute) * 60 + t.second

/-- The last `width` decimal digits. -/
def digits : ℕ → ℕ → Bytes
  | 0, _ => []
  | width + 1, n => digits width (n / 10) ++ [UInt8.ofNat (48 + n % 10)]

/-- `"%Y-%m-%d"`. -/
def Date.text (d : Date) : Bytes :=
  digits 4 d.year ++ (45 :: digits 2 d.month ++ (45 :: digits 2 d.day))

def logBaseDir : Bytes := ascii "./log/".toList

/-- `GetFileNameByDate`. -/
def fileName (d : Date) : Bytes := logBaseDir ++ (d.text ++ ascii ".log".toList)

/-- `GetTimeStr`: `"[%Y-%m-%d %X]"` in the "C" locale. -/
def timeStr (t : Tm) : Bytes :=
  91 :: t.date.text ++ (32 :: digits 2 t.hour ++ (58 :: digits 2 t.minute ++
    (58 :: digits 2 t.second ++ [93])))

/-- What is put into the stream for a text. -/
def line (t : Tm) (s : Bytes) : Bytes := timeStr t ++ (32 :: s ++ [10])

/-- The text of `SYSTEM("defined LOGGER_CLEAR_FILE_AT_START")`. -/
def clearNotice : Bytes := ascii "SYSTEM  | defined LOGGER_CLEAR_FILE_AT_START".toList

/-! ## The stream -/

/-- What happens to files: one is made empty, or something is written behind its end. -/
inductive FileOp
  | truncate (file : Bytes)
  | append (file : Bytes) (text : Bytes)
  deriving DecidableEq

/-- What a call does to the files: up to the output of its own line, and by it. -/
structure Effect where
  before : List FileOp
  own : List FileOp

def Effect.ops (e : Effect) : List FileOp := e.before ++ e.own

/-- An `ofstream`: the file it has open, `failbit` and `badbit`. -/
structure Output where
  file : Option Bytes
  fail : Bool
  bad : Bool
  deriving DecidableEq

/-- `close` fails on a stream without a file. -/
def Output.close (o : Output) : Output := ⟨none, o.fail || o.file.isNone, o.bad⟩

/-- `open` with `ios::out`, which clears the bits when it succeeds. -/
def Output.openOut (o : Output) (opens : Bool) (file : Bytes) : Output × List FileOp :=
  if opens then (⟨some file, false, false⟩, [.truncate file])
  else ({ o with fail := true }, [])

/-- `<<` with `endl`: the text is in the file when `writes` says so, and the stream is bad when
not. Nothing comes out of a stream that is not good. -/
def Output.put (o : Output) (writes : Bool) (text : Bytes) : Output × List FileOp :=
  if o.fail || o.bad then ({ o with fail := true }, [])
  else match o.file with
    | none => ({ o with bad := true }, [])
    | some file => if writes then (o, [.append file text]) else ({ o with bad := true }, [])

end Logger

/-- `today_` and `output_`. -/
structure Logger where
  today : ℤ
  output : Logger.Output

namespace Logger

open Function (update)

/-- A `Logger` before its first call. -/
def initial : Logger := ⟨-1, ⟨none, false, false⟩⟩

/-- The end of `Log`. What goes to `cerr` is in no file. -/
def write (self : Logger) (now : Tm) (writes : Bool) (s : Bytes) : Logger × List FileOp :=
  if self.output.bad then (self, [])
  else
    let (output, ops) := self.output.put writes (line now s)
    ({ self with output }, ops)

/-- `Log`, with what the clock shows and whether the file can be opened, the line of the nested
call written, and the line of this call. -/
def log (self : Logger) (now : Tm) (opens notes writes : Bool) (s : Bytes) : Logger × Effect :=
  if self.today = now.date.day then
    let (self, own) := self.write now writes s
    (self, ⟨[], own⟩)
  else
    let (output, opening) := self.output.close.openOut opens (fileName now.date)
    let (self, notice) := log ⟨now.date.day, output⟩ now opens notes notes clearNotice
    let (self, own) := self.write now writes s
    (self, ⟨opening ++ notice.ops, own⟩)
termination_by if self.today = now.date.day then 0 else 1
decreasing_by simp_all

/-- A call of `Log` by the program. -/
structure Call where
  now : Tm
  s : Bytes
  opens : Bool
  notes : Bool
  writes : Bool

def Call.date (c : Call) : Date := c.now.date

/-- The file of the date of the call. -/
def Call.file (c : Call) : Bytes := fileName c.date

def step (self : Logger) (c : Call) : Logger × Effect :=
  self.log c.now c.opens c.notes c.writes c.s

/-- What each of the calls does to the files. -/
def run (self : Logger) : List Call → List Effect
  | [] => []
  | c :: calls => (self.step c).2 :: run (self.step c).1 calls

/-- The call appends its line to the file of its date. -/
def Appends (c : Call) (e : Effect) : Prop := e.own = [.append c.file (line c.now c.s)]

/-- Every line is appended to the file of its date, which no later call makes empty. -/
def Keeps (calls : List Call) : Prop :=
  List.Forall₂ Appends calls (run initial calls) ∧
    (calls.zip (run initial calls)).Pairwise fun x y => .truncate x.1.file ∉ y.2.ops

/-- What a call needs to put its line where it belongs, when the last one was at this date: on the
same day of the month it is still the same date, and on another one the file can be opened. -/
def Succeeds (last : Option Date) (c : Call) : Prop :=
  c.writes = true ∧
    if last.map Date.day = some c.date.day then last = some c.date
    else c.opens = true ∧ c.notes = true

/-- Every call has what it needs, and no file is opened that is of an earlier date of the run. The
dates of the calls before are given with the last one first. -/
def Orderly (earlier : List Date) : List Call → Prop
  | [] => True
  | c :: calls =>
    Succeeds earlier.head? c ∧
    (earlier.head?.map Date.day ≠ some c.date.day → c.date ∉ earlier) ∧
    Orderly (c.date :: earlier) calls

/-! ## The names of the files -/

@[simp] theorem length_digits (width n : ℕ) : (digits width n).length = width := by
  induction width generalizing n with
  | zero => rfl
  | succ width ih => rw [digits, List.length_append, ih, List.length_singleton]

theorem digits_injective {width n m : ℕ} (hn : n < 10 ^ width) (hm : m < 10 ^ width)
    (h : digits width n = digits width m) : n = m := by
  induction width generalizing n m with
  | zero => omega
  | succ width ih =>
    obtain ⟨hfront, hlast⟩ := List.append_inj' h rfl
    have hhigh := ih (n := n / 10) (m := m / 10) (by omega) (by omega) hfront
    have hbyte := congrArg UInt8.toNat (List.singleton_inj.mp hlast)
    rw [UInt8.toNat_ofNat', UInt8.toNat_ofNat'] at hbyte
    omega

theorem text_injective : Function.Injective Date.text := by
  intro d d' h
  have hyear := d.year_le
  have hyear' := d'.year_le
  have hmonth := d.month_le
  have hmonth' := d'.month_le
  have hday := d.day_le
  have hday' := d'.day_le
  obtain ⟨hy, hrest⟩ := List.append_inj h (by simp)
  obtain ⟨hm, hrest⟩ := List.append_inj (List.cons.inj hrest).2 (by simp)
  have hd := (List.cons.inj hrest).2
  have heqs : d.year = d'.year ∧ d.month = d'.month ∧ d.day = d'.day :=
    ⟨digits_injective (by omega) (by omega) hy, digits_injective (by omega) (by omega) hm,
      digits_injective (by omega) (by omega) hd⟩
  cases d
  cases d'
  simpa using heqs

/-- Dates have files of their own. -/
theorem fileName_injective : Function.Injective fileName := by
  intro d d' h
  exact text_injective (List.append_cancel_right (List.append_cancel_left h))

/-! ## One call -/

/-- A `Logger` whose stream is good and writes to the file of a date. -/
def opened (d : Date) : Logger := ⟨d.day, ⟨some (fileName d), false, false⟩⟩

/-- The state behind calls at these dates, when nothing has gone wrong. -/
def after : List Date → Logger
  | [] => initial
  | d :: _ => opened d

theorem today_after (earlier : List Date) (d : Date) :
    (after earlier).today = d.day ↔ earlier.head?.map Date.day = some d.day := by
  cases earlier with
  | nil =>
    have hday : ¬ (-1 : ℤ) = d.day := by omega
    simp only [after, initial, hday, List.head?_nil, Option.map_none, reduceCtorEq]
  | cons d' earlier =>
    simp only [after, opened, List.head?_cons, Option.map_some, Option.some.injEq]
    omega

theorem log_of_today {self : Logger} {now : Tm} (h : self.today = now.date.day)
    (opens notes writes : Bool) (s : Bytes) :
    self.log now opens notes writes s =
      ((self.write now writes s).1, ⟨[], (self.write now writes s).2⟩) := by
  rw [log, if_pos h]

/-- The nested call finds the day of the month that the outer one has just stored. -/
theorem log_of_other_day {self : Logger} {now : Tm} (h : self.today ≠ now.date.day)
    (opens notes writes : Bool) (s : Bytes) :
    self.log now opens notes writes s =
      let opening := self.output.close.openOut opens (fileName now.date)
      let notice := Logger.write ⟨now.date.day, opening.1⟩ now notes clearNotice
      let own := notice.1.write now writes s
      (own.1, ⟨opening.2 ++ notice.2, own.2⟩) := by
  rw [log, if_neg h]
  simp only [log_of_today, Effect.ops, List.nil_append]

/-- A stream that is open and good. -/
theorem write_opened (d : Date) (now : Tm) (writes : Bool) (s : Bytes) :
    (opened d).write now writes s =
      if writes then (opened d, [.append (fileName d) (line now s)])
      else (⟨d.day, ⟨some (fileName d), false, true⟩⟩, []) := by
  cases writes <;> rfl

/-- A stream that has failed takes nothing. -/
theorem write_of_fail {self : Logger} (h : self.output.fail = true) (now : Tm) (writes : Bool)
    (s : Bytes) : (self.write now writes s).2 = [] ∧
      (self.write now writes s).1.output.fail = true := by
  cases hbad : self.output.bad <;> simp [write, Output.put, h, hbad]

/-! ## One call behind others -/

/-- A call on the day of the month of the last one. -/
theorem step_today {d : Date} {earlier : List Date} {c : Call} (h : d.day = c.date.day) :
    (after (d :: earlier)).step c =
      (((opened d).write c.now c.writes c.s).1, ⟨[], ((opened d).write c.now c.writes c.s).2⟩) :=
  log_of_today (congrArg Nat.cast h) ..

/-- A call on another one. -/
theorem step_other_day {earlier : List Date} {c : Call}
    (h : earlier.head?.map Date.day ≠ some c.date.day) :
    (c.opens = false → ((after earlier).step c).2.own = []) ∧
    (c.opens = true → (after earlier).step c =
      let notice := (opened c.date).write c.now c.notes clearNotice
      let own := notice.1.write c.now c.writes c.s
      (own.1, ⟨.truncate c.file :: notice.2, own.2⟩)) := by
  have htoday : (after earlier).today ≠ c.now.date.day :=
    fun heq => h ((today_after earlier c.date).mp heq)
  rw [step, log_of_other_day htoday]
  constructor
  · intro hopens
    rw [hopens]
    have hfail : ((after earlier).output.close.openOut false (fileName c.now.date)).1.fail = true :=
      rfl
    have hnotice := (@write_of_fail ⟨c.now.date.day, _⟩ hfail c.now c.notes clearNotice).2
    exact (write_of_fail hnotice c.now c.writes c.s).1
  · intro hopens
    rw [hopens]
    rfl

theorem step_succeeds {earlier : List Date} {c : Call} (h : Succeeds earlier.head? c) :
    ((after earlier).step c).1 = opened c.date ∧ Appends c ((after earlier).step c).2 ∧
      ∀ file, .truncate file ∈ ((after earlier).step c).2.ops ↔
        earlier.head?.map Date.day ≠ some c.date.day ∧ file = c.file := by
  obtain ⟨hwrites, hday⟩ := h
  by_cases htoday : earlier.head?.map Date.day = some c.date.day
  · rw [if_pos htoday] at hday
    obtain ⟨rest, rfl⟩ := List.head?_eq_some_iff.mp hday
    rw [step_today rfl, write_opened, if_pos hwrites]
    exact ⟨rfl, rfl, fun file => by simp [Effect.ops]⟩
  · rw [if_neg htoday] at hday
    obtain ⟨hopens, hnotes⟩ := hday
    rw [(step_other_day htoday).2 hopens]
    simp only [write_opened, hnotes, hwrites, if_true, true_and]
    exact ⟨rfl, fun file => by simp [Effect.ops, htoday]⟩

theorem succeeds_of_appends {earlier : List Date} {c : Call}
    (h : Appends c ((after earlier).step c).2) : Succeeds earlier.head? c := by
  by_cases htoday : earlier.head?.map Date.day = some c.date.day
  · rw [Succeeds, if_pos htoday]
    obtain ⟨d, hd, hday⟩ := Option.map_eq_some_iff.mp htoday
    obtain ⟨rest, rfl⟩ := List.head?_eq_some_iff.mp hd
    rw [Appends, step_today hday, write_opened] at h
    cases hwrites : c.writes with
    | false =>
      rw [hwrites] at h
      cases h
    | true =>
      rw [hwrites, if_pos rfl] at h
      have hfile : fileName d = c.file := by simpa using h
      exact ⟨rfl, by rw [List.head?_cons, fileName_injective hfile]⟩
  · rw [Succeeds, if_neg htoday]
    cases hopens : c.opens with
    | false =>
      rw [Appends, (step_other_day htoday).1 hopens] at h
      cases h
    | true =>
      rw [Appends, (step_other_day htoday).2 hopens] at h
      simp only [write_opened] at h
      cases hnotes : c.notes with
      | false =>
        rw [hnotes] at h
        cases h
      | true =>
        rw [hnotes] at h
        simp only [if_true, write_opened] at h
        cases hwrites : c.writes with
        | false =>
          rw [hwrites] at h
          cases h
        | true => exact ⟨rfl, rfl, rfl⟩

/-! ## Runs -/

/-- The calls keep their lines, and make the files of earlier dates empty at no time. -/
def KeepsAfter (earlier : List Date) (calls : List Call) : Prop :=
  List.Forall₂ Appends calls (run (after earlier) calls) ∧
    (calls.zip (run (after earlier) calls)).Pairwise (fun x y => .truncate x.1.file ∉ y.2.ops) ∧
    ∀ d ∈ earlier, ∀ x ∈ calls.zip (run (after earlier) calls), .truncate (fileName d) ∉ x.2.ops

theorem keepsAfter_cons {earlier : List Date} {c : Call} {calls : List Call} :
    KeepsAfter earlier (c :: calls) ↔
      Succeeds earlier.head? c ∧
      (earlier.head?.map Date.day ≠ some c.date.day → c.date ∉ earlier) ∧
      KeepsAfter (c.date :: earlier) calls := by
  rw [KeepsAfter, run, List.forall₂_cons, List.zip_cons_cons, List.pairwise_cons]
  simp only [List.forall_mem_cons]
  by_cases hsucceeds : Succeeds earlier.head? c
  · obtain ⟨hstate, happends, htruncate⟩ := step_succeeds hsucceeds
    have hafter : opened c.date = after (c.date :: earlier) := rfl
    simp only [hstate, hafter, htruncate, KeepsAfter, List.forall_mem_cons]
    constructor
    · rintro ⟨⟨-, hall⟩, ⟨hfirst, hpairs⟩, hearlier⟩
      refine ⟨hsucceeds, fun hday hmem => ?_, hall, hpairs, hfirst, fun d hd => (hearlier d hd).2⟩
      exact (hearlier _ hmem).1 ⟨hday, rfl⟩
    · rintro ⟨-, hfresh, hall, hpairs, hfirst, hearlier⟩
      refine ⟨⟨happends, hall⟩, ⟨hfirst, hpairs⟩, fun d hd => ⟨?_, hearlier d hd⟩⟩
      rintro ⟨hday, hfile⟩
      rw [fileName_injective hfile] at hd
      exact hfresh hday hd
  · constructor
    · rintro ⟨⟨happends, -⟩, -⟩
      exact absurd (succeeds_of_appends happends) hsucceeds
    · rintro ⟨hs, -⟩
      exact absurd hs hsucceeds

theorem keepsAfter_iff (earlier : List Date) (calls : List Call) :
    KeepsAfter earlier calls ↔ Orderly earlier calls := by
  induction calls generalizing earlier with
  | nil => simp [KeepsAfter, Orderly, run]
  | cons c calls ih => rw [keepsAfter_cons, ih, Orderly]

theorem keepsAfter_nil (calls : List Call) : KeepsAfter [] calls ↔ Keeps calls := by
  simp [KeepsAfter, Keeps, after]

/-- For any calls at any times: every line is appended to the file of its date and stays in it
exactly when the calls are orderly. -/
theorem keeps_iff (calls : List Call) : Keeps calls ↔ Orderly [] calls := by
  rw [← keepsAfter_nil, keepsAfter_iff]

/-- A call in the middle of January, and one in the middle of February. -/
def january : Call where
  now := ⟨⟨2023, 1, 15, by decide, by decide, by decide⟩, 12, 0, 0⟩
  s := ascii "INFO    | up".toList
  opens := true
  notes := true
  writes := true

def february : Call where
  now := ⟨⟨2023, 2, 15, by decide, by decide, by decide⟩, 12, 0, 0⟩
  s := ascii "INFO    | up".toList
  opens := true
  notes := true
  writes := true

theorem february_not_kept :
    [january, february].Pairwise (fun x y => x.now.ordinal ≤ y.now.ordinal) ∧
      ¬ Keeps [january, february] := by
  refine ⟨by decide, fun h => ?_⟩
  obtain ⟨-, -, ⟨-, hday⟩, -⟩ := (keepsAfter_iff _ _).mp ((keepsAfter_nil _).mpr h)
  have htoday : [january.date].head?.map Date.day = some february.date.day := rfl
  rw [if_pos htoday] at hday
  have hmonth := congrArg Date.month (Option.some.inj hday)
  cases hmonth

/-! ## Times that do not decrease -/

/-- Every call has what it needs. -/
def AllSucceed (last : Option Date) : List Call → Prop
  | [] => True
  | c :: calls => Succeeds last c ∧ AllSucceed (some c.date) calls

theorem Date.ordinal_injective : Function.Injective Date.ordinal := by
  intro d d' h
  have hmonth := d.month_le
  have hmonth' := d'.month_le
  have hday := d.day_le
  have hday' := d'.day_le
  rw [ordinal, ordinal] at h
  have heqs : d.year = d'.year ∧ d.month = d'.month ∧ d.day = d'.day := by omega
  cases d
  cases d'
  simpa using heqs

theorem Tm.date_le {t t' : Tm} (h : t.ordinal ≤ t'.ordinal) : t.date.ordinal ≤ t'.date.ordinal := by
  rw [ordinal, ordinal] at h
  omega

/-- A date that is no earlier than these, and on another day of the month than the last of them,
is not one of them. -/
theorem not_mem_earlier {earlier : List Date} {d : Date}
    (hsorted : earlier.Pairwise fun x y => y.ordinal ≤ x.ordinal)
    (hle : ∀ x ∈ earlier, x.ordinal ≤ d.ordinal) (hday : earlier.head?.map Date.day ≠ some d.day) :
    d ∉ earlier := by
  intro hmem
  cases earlier with
  | nil => cases hmem
  | cons last earlier =>
    have hlast : last.ordinal = d.ordinal := by
      refine le_antisymm (hle last List.mem_cons_self) ?_
      rcases List.mem_cons.mp hmem with rfl | hmem
      · exact le_refl _
      · exact (List.pairwise_cons.mp hsorted).1 d hmem
    apply hday
    rw [List.head?_cons, Date.ordinal_injective hlast, Option.map_some]

/-- At times that do not decrease, no file is opened a second time. -/
theorem orderly_iff_of_sorted {earlier : List Date} {calls : List Call}
    (hearlier : earlier.Pairwise fun x y => y.ordinal ≤ x.ordinal)
    (hle : ∀ c ∈ calls, ∀ x ∈ earlier, x.ordinal ≤ c.date.ordinal)
    (hcalls : calls.Pairwise fun x y => x.now.ordinal ≤ y.now.ordinal) :
    Orderly earlier calls ↔ AllSucceed earlier.head? calls := by
  induction calls generalizing earlier with
  | nil => rfl
  | cons c calls ih =>
    obtain ⟨hfirst, hcalls⟩ := List.pairwise_cons.mp hcalls
    have hc := hle c List.mem_cons_self
    have hnext := @ih (c.date :: earlier) (List.pairwise_cons.mpr ⟨hc, hearlier⟩)
      (fun x hx y hy => by
        rcases List.mem_cons.mp hy with rfl | hy
        · exact Tm.date_le (hfirst x hx)
        · exact hle x (List.mem_cons_of_mem _ hx) y hy) hcalls
    rw [Orderly, AllSucceed, hnext, List.head?_cons]
    exact and_congr_right fun _ => and_iff_right (not_mem_earlier hearlier hc)

/-! ## What the files hold -/

/-- The files after some operations. -/
def contents (disk : Bytes → Bytes) : List FileOp → Bytes → Bytes
  | [] => disk
  | .truncate file :: ops => contents (update disk file []) ops
  | .append file text :: ops => contents (update disk file (disk file ++ text)) ops

theorem contents_append (disk : Bytes → Bytes) (ops more : List FileOp) :
    contents disk (ops ++ more) = contents (contents disk ops) more := by
  induction ops generalizing disk with
  | nil => rfl
  | cons op ops ih => cases op <;> exact ih _

/-- A file that is not made empty keeps what it holds. -/
theorem prefix_contents {file : Bytes} {ops : List FileOp} (h : .truncate file ∉ ops)
    (disk : Bytes → Bytes) : disk file <+: contents disk ops file := by
  induction ops generalizing disk with
  | nil => exact List.prefix_refl _
  | cons op ops ih =>
    obtain ⟨hop, hops⟩ := List.ne_and_not_mem_of_not_mem_cons h
    cases op with
    | truncate file' =>
      have hne : file ≠ file' := fun heq => hop (by rw [heq])
      have hrest := ih hops (update disk file' [])
      rwa [Function.update_of_ne hne] at hrest
    | append file' text =>
      refine List.IsPrefix.trans ?_ (ih hops _)
      by_cases heq : file = file'
      · rw [heq, Function.update_self]
        exact List.prefix_append _ _
      · simp [Function.update_of_ne heq]

/-- What the calls do to the files, in order. -/
def fileOps (calls : List Call) : List FileOp := (run initial calls).flatMap Effect.ops

theorem length_run (self : Logger) (calls : List Call) :
    (run self calls).length = calls.length := by
  induction calls generalizing self with
  | nil => rfl
  | cons c calls ih => rw [run, List.length_cons, List.length_cons, ih]

theorem run_append (self : Logger) (calls more : List Call) :
    run self (calls ++ more) =
      run self calls ++ run (calls.foldl (fun self c => (self.step c).1) self) more := by
  induction calls generalizing self with
  | nil => rfl
  | cons c calls ih => rw [List.cons_append, run, ih, run, List.cons_append, List.foldl_cons]

theorem fileOps_append (calls : List Call) (c : Call) (more : List Call) :
    ∃ e rest, run initial (calls ++ c :: more) = run initial calls ++ e :: rest ∧
      rest.length = more.length ∧ fileOps (calls ++ [c]) = fileOps calls ++ e.ops ∧
      fileOps (calls ++ c :: more) = fileOps (calls ++ [c]) ++ rest.flatMap Effect.ops := by
  let self := calls.foldl (fun self c => (self.step c).1) initial
  refine ⟨(self.step c).2, run (self.step c).1 more, run_append .., length_run .., ?_, ?_⟩
  · rw [fileOps, run_append, List.flatMap_append]
    simp [fileOps, run, self]
  · rw [fileOps, fileOps, run_append, run_append, List.flatMap_append, List.flatMap_append,
      List.append_assoc]
    simp [run, self]

/-- The line of a call is at the end of its file behind the call, and what the file holds then is
at its beginning ever after. -/
theorem Keeps.contents {calls more : List Call} {c : Call} (h : Keeps (calls ++ c :: more))
    (disk : Bytes → Bytes) :
    line c.now c.s <:+ contents disk (fileOps (calls ++ [c])) c.file ∧
      contents disk (fileOps (calls ++ [c])) c.file <+:
        contents disk (fileOps (calls ++ c :: more)) c.file := by
  obtain ⟨e, rest, hrun, hlength, hcall, hmore⟩ := fileOps_append calls c more
  obtain ⟨happends, hpairs⟩ := h
  have hzip : (calls ++ c :: more).zip (run initial calls ++ e :: rest) =
      calls.zip (run initial calls) ++ (c, e) :: more.zip rest := by
    rw [List.zip_append (length_run initial calls).symm, List.zip_cons_cons]
  rw [hrun, hzip] at hpairs
  rw [hrun, List.forall₂_iff_zip, hzip] at happends
  have hown : e.own = [.append c.file (line c.now c.s)] :=
    happends.2 (List.mem_append_right _ List.mem_cons_self)
  have hlater := (List.pairwise_cons.mp (List.pairwise_append.mp hpairs).2.1).1
  constructor
  · rw [hcall, Effect.ops, hown, ← List.append_assoc, contents_append]
    change line c.now c.s <:+ update (_ : Bytes → Bytes) c.file (_ ++ _) c.file
    rw [Function.update_self]
    exact List.suffix_append _ _
  · rw [hmore, contents_append]
    refine prefix_contents (fun hmem => ?_) _
    obtain ⟨e', he', hop⟩ := List.mem_flatMap.mp hmem
    rw [← List.map_snd_zip (Nat.le_of_eq hlength), List.mem_map] at he'
    obtain ⟨pair, hpair, rfl⟩ := he'
    exact hlater pair hpair hop

end Logger
end Calabash
