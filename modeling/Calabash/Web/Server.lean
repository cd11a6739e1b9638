import Calabash.Lib.Chain
import Calabash.Web.Request
import Calabash.Web.Response

/-!
# `Server::Handle`

`next_func` is a closure over two indices that every nested and repeated call shares. It is
run here with an explicit bound on the depth of calls, and keeps, next to what the source
keeps, a trace of what was called and which file was served.

A `ServerFunc` is any strategy on its own calls of `next_func`: it may read and change the
request and the response, call `next_func` as often as it likes, catch what that throws,
throw itself, or not come back. The handlers are numbered through, those of
`process_handles` first.

## Main results

* `nextFunc_call` — the two indices do what one cursor does on the joined list.
* `handle_mono` — a greater depth changes nothing about a `Handle` that has ended.
-/

namespace Calabash

/-- What the handlers work on. -/
structure Exchange where
  req : Request
  resp : Response

abbrev ServerFunc := Chain.Handler Exchange

/-- The parts of a `Server` that serving a request uses. -/
structure Server where
  handlers : AList fun _ : Bytes => List ServerFunc
  processHandles : List ServerFunc
  staticPath : Bytes

/-- What the run of a task gets from outside: whether its `k`-th log line can be written,
or throws; what its `k`-th `is_regular_file` says, or that it throws; and the files. -/
structure Outside where
  logs : ℕ → Bool
  isRegularFile : ℕ → Bytes → Option Bool
  file : Bytes → File

/-- What comes out of a call that throws. -/
inductive Exception
  | parser (fault : Fault)
  /-- Out of the handlers, or the log they write to. -/
  | handlers
  | filesystemError
  /-- Out of the log. -/
  | log
  deriving DecidableEq, Repr

/-- What `next_func` captures, with the log lines written so far, and the trace. -/
structure Progress where
  exchange : Exchange
  processFuncIndex : ℤ := -1
  funcIndex : ℤ := -1
  logs : ℕ := 0
  trace : List (Chain.Event Exchange) := []

/-- The trace goes on. -/
def Progress.note (p : Progress) (event : Chain.Event Exchange) : Progress :=
  { p with trace := p.trace ++ [event] }

namespace Server

/-- `Bind` of one handler. -/
def bind (server : Server) (path : Bytes) (handler : ServerFunc) : Server :=
  { server with handlers :=
    server.handlers.insert path ((server.handlers.lookup path).getD [] ++ [handler]) }

/-- `Bind` of a list. -/
def bindList (server : Server) (path : Bytes) (handler : List ServerFunc) : Server :=
  handler.foldl (fun server func => server.bind path func) server

/-- `ProcessBind`. -/
def processBind (server : Server) (handler : ServerFunc) : Server :=
  { server with processHandles := server.processHandles ++ [handler] }

/-- `next_func`, and the rest of the body of a handler that calls it. -/
def nextFunc (server : Server) (out : Outside) (funcList : List ServerFunc) :
    ℕ → Chain.Call Exchange → Progress → Chain.Status × Progress
  | 0, _, p => (.running, p)
  | fuel + 1, .next caller, p =>
    let p := p.note (.next caller)
    if hprocess : (p.processFuncIndex + 1).toNat < server.processHandles.length then
      let p := { p with processFuncIndex := p.processFuncIndex + 1 }
      let place := p.processFuncIndex.toNat
      let func := server.processHandles[place]
      nextFunc server out funcList fuel (.body place func p.exchange [])
        (p.note (.invoke (func, place)))
    else if hfunc : (p.funcIndex + 1).toNat < funcList.length then
      let p := { p with funcIndex := p.funcIndex + 1 }
      let place := server.processHandles.length + p.funcIndex.toNat
      let func := funcList[p.funcIndex.toNat]
      nextFunc server out funcList fuel (.body place func p.exchange [])
        (p.note (.invoke (func, place)))
    else
      (if out.logs p.logs then .returned else .raised, { p with logs := p.logs + 1 })
  | fuel + 1, .body place func entry answers, p =>
    match func entry answers with
    | .returns x => (.returned, { p with exchange := x })
    | .raises x => (.raised, { p with exchange := x })
    | .hangs => (.hung, p)
    | .next x =>
      let (status, p) := nextFunc server out funcList fuel (.next (some place))
        { p with exchange := x }
      match status.answer with
      | some ok => nextFunc server out funcList fuel
          (.body place func entry (answers ++ [(ok, p.exchange)])) p
      | none => (status, p)

end Server

namespace Progress

/-- The two indices as one cursor. -/
def run (p : Progress) : Chain.Run Exchange where
  state := p.exchange
  cursor := (p.processFuncIndex + 1).toNat + (p.funcIndex + 1).toNat
  beyond := p.logs
  trace := p.trace

/-- Neither index is past its list, and `func_index` moves only behind the last process
handler. -/
structure InStep (p : Progress) (processes funcs : ℕ) : Prop where
  process_ge : -1 ≤ p.processFuncIndex
  func_ge : -1 ≤ p.funcIndex
  process_lt : p.processFuncIndex < processes
  func_lt : p.funcIndex < funcs
  order : p.processFuncIndex + 1 < processes → p.funcIndex = -1

/-- The progress with a call of `next_func` that invokes the next process handler. -/
def takeProcess (p : Progress) (caller : Option ℕ) (func : ServerFunc) : Progress :=
  { p.note (.next caller) with processFuncIndex := p.processFuncIndex + 1 }.note
    (.invoke (func, (p.processFuncIndex + 1).toNat))

/-- The progress with a call of `next_func` that invokes the next handler behind those. -/
def takeFunc (p : Progress) (processes : ℕ) (caller : Option ℕ) (func : ServerFunc) : Progress :=
  { p.note (.next caller) with funcIndex := p.funcIndex + 1 }.note
    (.invoke (func, processes + (p.funcIndex + 1).toNat))

theorem inStep_start (x : Exchange) (processes funcs : ℕ) :
    InStep { exchange := x } processes funcs :=
  ⟨by simp, by simp, by simp only; omega, by simp only; omega, fun _ => rfl⟩

variable {p : Progress} {processes funcs : ℕ}

/-- While a process handler is left, `func_index` has not moved. -/
theorem InStep.cursor_process (hp : p.InStep processes funcs)
    (h : (p.processFuncIndex + 1).toNat < processes) :
    p.run.cursor = (p.processFuncIndex + 1).toNat := by
  have hstart : p.funcIndex = -1 := hp.order (by omega)
  simp [run, hstart]

theorem InStep.takeProcess (hp : p.InStep processes funcs)
    (h : (p.processFuncIndex + 1).toNat < processes) (caller : Option ℕ) (func : ServerFunc) :
    (p.takeProcess caller func).InStep processes funcs ∧
      (p.run.called caller).invoked func = (p.takeProcess caller func).run := by
  have hge := hp.process_ge
  have hstart : p.funcIndex = -1 := hp.order (by omega)
  refine ⟨⟨?_, hp.func_ge, ?_, hp.func_lt, fun _ => hstart⟩, ?_⟩
  · simp only [Progress.takeProcess, note]
    omega
  · simp only [Progress.takeProcess, note]
    omega
  · simp only [Chain.Run.called, Chain.Run.invoked, run, note, Progress.takeProcess, hstart,
      Chain.Run.mk.injEq, true_and]
    refine ⟨by omega, ?_⟩
    simp

theorem InStep.cursor_func (hp : p.InStep processes funcs)
    (hpast : ¬ (p.processFuncIndex + 1).toNat < processes) :
    p.run.cursor = processes + (p.funcIndex + 1).toNat := by
  have hlt := hp.process_lt
  simp only [run]
  omega

theorem InStep.takeFunc (hp : p.InStep processes funcs)
    (hpast : ¬ (p.processFuncIndex + 1).toNat < processes)
    (h : (p.funcIndex + 1).toNat < funcs) (caller : Option ℕ) (func : ServerFunc) :
    (p.takeFunc processes caller func).InStep processes funcs ∧
      (p.run.called caller).invoked func = (p.takeFunc processes caller func).run := by
  have hge := hp.process_ge
  have hlt := hp.process_lt
  have hfuncGe := hp.func_ge
  refine ⟨⟨hge, ?_, hlt, ?_, fun hleft => ?_⟩, ?_⟩
  · simp only [Progress.takeFunc, note]
    omega
  · simp only [Progress.takeFunc, note]
    omega
  · simp only [Progress.takeFunc, note] at hleft
    omega
  · have hcursor := hp.cursor_func hpast
    simp only [run] at hcursor
    simp only [Chain.Run.called, Chain.Run.invoked, run, note, Progress.takeFunc, hcursor,
      Chain.Run.mk.injEq, true_and]
    refine ⟨by omega, ?_⟩
    simp

end Progress

namespace Server
variable {server : Server} {out : Outside} {funcList : List ServerFunc} {p : Progress}

/-- The joined list, as one cursor sees it. -/
def chain (server : Server) (funcList : List ServerFunc) : List ServerFunc :=
  server.processHandles ++ funcList

section
variable {fuel : ℕ} (caller : Option ℕ)

theorem nextFunc_process
    (h : (p.processFuncIndex + 1).toNat < server.processHandles.length) :
    nextFunc server out funcList (fuel + 1) (.next caller) p =
      nextFunc server out funcList fuel
        (.body (p.processFuncIndex + 1).toNat
          server.processHandles[(p.processFuncIndex + 1).toNat] p.exchange [])
        (p.takeProcess caller server.processHandles[(p.processFuncIndex + 1).toNat]) := by
  rw [nextFunc]
  exact dif_pos h

theorem nextFunc_func
    (hpast : ¬ (p.processFuncIndex + 1).toNat < server.processHandles.length)
    (h : (p.funcIndex + 1).toNat < funcList.length) :
    nextFunc server out funcList (fuel + 1) (.next caller) p =
      nextFunc server out funcList fuel
        (.body (server.processHandles.length + (p.funcIndex + 1).toNat)
          funcList[(p.funcIndex + 1).toNat] p.exchange [])
        (p.takeFunc server.processHandles.length caller
          funcList[(p.funcIndex + 1).toNat]) := by
  rw [nextFunc]
  exact (dif_neg hpast).trans (dif_pos h)

theorem nextFunc_over
    (hpast : ¬ (p.processFuncIndex + 1).toNat < server.processHandles.length)
    (hover : ¬ (p.funcIndex + 1).toNat < funcList.length) :
    nextFunc server out funcList (fuel + 1) (.next caller) p =
      (if out.logs p.logs then .returned else .raised,
        { p.note (.next caller) with logs := p.logs + 1 }) := by
  rw [nextFunc]
  exact (dif_neg hpast).trans (dif_neg hover)

end

/-- The two indices do what one cursor does on the joined list. -/
theorem nextFunc_call : ∀ (fuel : ℕ) (c : Chain.Call Exchange) (p : Progress),
    p.InStep server.processHandles.length funcList.length →
      (nextFunc server out funcList fuel c p).1 =
          (Chain.call (server.chain funcList) out.logs fuel c p.run).1 ∧
        (nextFunc server out funcList fuel c p).2.run =
          (Chain.call (server.chain funcList) out.logs fuel c p.run).2 ∧
        (nextFunc server out funcList fuel c p).2.InStep
          server.processHandles.length funcList.length := by
  intro fuel
  induction fuel with
  | zero => exact fun c p hp => ⟨rfl, rfl, hp⟩
  | succ fuel ih =>
    intro c p hp
    have hkept : ∀ x, Progress.InStep { p with exchange := x } server.processHandles.length
        funcList.length := fun x => ⟨hp.process_ge, hp.func_ge, hp.process_lt, hp.func_lt, hp.order⟩
    cases c with
    | next caller =>
      by_cases hfirst : (p.processFuncIndex + 1).toNat < server.processHandles.length
      · have hcursor := hp.cursor_process hfirst
        have hat : (server.chain funcList)[p.run.cursor]? =
            some server.processHandles[(p.processFuncIndex + 1).toNat] := by
          rw [hcursor, chain, List.getElem?_append_left hfirst, List.getElem?_eq_getElem hfirst]
        obtain ⟨hstep, hrun⟩ := hp.takeProcess hfirst caller
          server.processHandles[(p.processFuncIndex + 1).toNat]
        rw [nextFunc_process caller hfirst, Chain.call_next_invoke hat, hrun, hcursor]
        exact ih _ _ hstep
      · have hcursor := hp.cursor_func hfirst
        by_cases hsecond : (p.funcIndex + 1).toNat < funcList.length
        · have hat : (server.chain funcList)[p.run.cursor]? =
              some funcList[(p.funcIndex + 1).toNat] := by
            rw [hcursor, chain, List.getElem?_append_right (by omega), Nat.add_sub_cancel_left,
              List.getElem?_eq_getElem hsecond]
          obtain ⟨hstep, hrun⟩ := hp.takeFunc hfirst hsecond caller
            funcList[(p.funcIndex + 1).toNat]
          rw [nextFunc_func caller hfirst hsecond, Chain.call_next_invoke hat, hrun, hcursor]
          exact ih _ _ hstep
        · have hat : (server.chain funcList)[p.run.cursor]? = none := by
            rw [List.getElem?_eq_none_iff, hcursor, chain, List.length_append]
            omega
          rw [nextFunc_over caller hfirst hsecond, Chain.call_next_over hat]
          exact ⟨rfl, rfl, ⟨hp.process_ge, hp.func_ge, hp.process_lt, hp.func_lt, hp.order⟩⟩
    | body place func entry answers =>
      cases hmove : func entry answers with
      | returns x | raises x =>
        simp only [nextFunc, Chain.call, hmove]
        exact ⟨trivial, rfl, hkept x⟩
      | hangs =>
        simp only [nextFunc, Chain.call, hmove]
        exact ⟨trivial, trivial, hp⟩
      | next x =>
        obtain ⟨hstatus, hrun, hstep⟩ := ih (.next (some place)) { p with exchange := x } (hkept x)
        simp only [nextFunc, Chain.call, hmove]
        rw [show Progress.run { p with exchange := x } = { p.run with state := x } from rfl]
          at hstatus hrun
        rcases hcall : nextFunc server out funcList fuel (.next (some place))
          { p with exchange := x } with ⟨status, p'⟩
        rcases hcall' : Chain.call (server.chain funcList) out.logs fuel (.next (some place))
          { p.run with state := x } with ⟨status', r'⟩
        rw [hcall] at hstatus hrun hstep
        rw [hcall'] at hstatus hrun
        simp only at hstatus hrun hstep ⊢
        subst hstatus hrun
        cases status.answer with
        | none => exact ⟨rfl, rfl, hstep⟩
        | some ok => exact ih _ _ hstep

end Server

/-- How `Handle` ends. -/
inductive Ending
  | returned (res : Response)
  | raised (e : Exception)
  | hung
  /-- The depth did not suffice. -/
  | running

/-- What `Handle` leaves behind: how it ended, the log lines written, the trace of the
handlers and the file it served. -/
structure Handled where
  ending : Ending
  logs : ℕ := 0
  trace : List (Chain.Event Exchange) := []
  served : Option Bytes := none

namespace Server

/-- `Handle` on a path that has handlers. -/
def handleBound (server : Server) (out : Outside) (funcList : List ServerFunc) (fuel : ℕ)
    (req : Request) : Handled :=
  let (status, p) := server.nextFunc out funcList (fuel + 1) (.next none) { exchange := ⟨req, {}⟩ }
  { ending := match status with
      | .returned => .returned p.exchange.resp
      | .raised => .raised .handlers
      | .hung => .hung
      | .running => .running
    logs := p.logs
    trace := p.trace }

/-- `now_path`, before and after the first `is_regular_file`. -/
def candidate (server : Server) (req : Request) (first : Bool) : Bytes :=
  if first then server.staticPath ++ req.path
  else server.staticPath ++ ascii "/index.html".toList

/-- `Handle` on a path that has none. -/
def handleStatic (server : Server) (out : Outside) (req : Request) : Handled :=
  let notFound := { ending := .returned (Response.pageNotFound {}) }
  if server.staticPath = [] then notFound
  else
    match out.isRegularFile 0 (server.staticPath ++ req.path) with
    | none => { ending := .raised .filesystemError }
    | some first =>
      let nowPath := server.candidate req first
      match out.isRegularFile 1 nowPath with
      | none => { ending := .raised .filesystemError }
      | some true =>
        { ending := .returned ((Response.autoFileData {} (out.file nowPath)).autoSetType nowPath)
          served := some nowPath }
      | some false => notFound

/-- `Handle`. -/
def handle (server : Server) (out : Outside) (fuel : ℕ) (req : Request) : Handled :=
  match server.handlers.lookup req.path with
  | some funcList => server.handleBound out funcList fuel req
  | none => server.handleStatic out req

/-! ## `Handle` as a whole -/

section
variable (server : Server) (out : Outside) (req : Request)

/-- The joined list, run from the start of `Handle`. -/
def chainRun (funcList : List ServerFunc) (fuel : ℕ) : Chain.Status × Chain.Run Exchange :=
  Chain.call (server.chain funcList) out.logs (fuel + 1) (.next none) { state := ⟨req, {}⟩ }

theorem handleBound_eq (funcList : List ServerFunc) (fuel : ℕ) :
    server.handleBound out funcList fuel req =
      { ending := match (server.chainRun out req funcList fuel).1 with
          | .returned => .returned (server.chainRun out req funcList fuel).2.state.resp
          | .raised => .raised .handlers
          | .hung => .hung
          | .running => .running
        logs := (server.chainRun out req funcList fuel).2.beyond
        trace := (server.chainRun out req funcList fuel).2.trace } := by
  obtain ⟨hstatus, hrun, -⟩ := @nextFunc_call server out funcList
    (fuel + 1) (.next none) { exchange := ⟨req, {}⟩ }
    (Progress.inStep_start _ _ _)
  rw [show Progress.run { exchange := ⟨req, {}⟩ } = { state := ⟨req, {}⟩ } from rfl]
    at hstatus hrun
  rw [handleBound, chainRun, ← hstatus, ← hrun]
  rfl

variable {server out req}

/-- A greater depth changes nothing about a `Handle` that ends. -/
theorem handle_mono {fuel more : ℕ} (hle : fuel ≤ more)
    (h : (server.handle out fuel req).ending ≠ .running) :
    server.handle out more req = server.handle out fuel req := by
  rw [handle] at h
  rw [handle, handle]
  cases hbound : server.handlers.lookup req.path with
  | none => rfl
  | some funcList =>
    rw [hbound] at h
    simp only [handleBound_eq] at h ⊢
    have hstatus : (server.chainRun out req funcList fuel).1 ≠ .running := by
      intro hrun
      rw [hrun] at h
      exact h rfl
    have hmono : server.chainRun out req funcList more =
        server.chainRun out req funcList fuel :=
      Chain.call_mono_le (by omega) hstatus
    rw [hmono]

end

end Server
end Calabash
