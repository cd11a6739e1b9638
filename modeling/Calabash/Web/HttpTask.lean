import Calabash.Web.Delivery
import Calabash.Web.Server

/-!
# `HttpTask`

A task reads a request from its socket, has it handled, sends the response and gives the
socket back, by `attach` or by `remove`. It runs inside a `packaged_task`: what is thrown
out of it is kept in a future that nobody looks at.

`settled_iff` says on which inputs a task gives its socket back.

## Main definitions

* `Task`, `Task.run` — a task with everything it meets, and how it ends.
* `Task.Settled` — it ends having given the socket back exactly once.
* `Task.Clean` — what has to come from the socket, the handlers, the files, the kernel and
  the log for that.
-/

namespace Calabash

open RequestMaker

/-- A call on the `SocketHandler`, with the socket of the task. -/
inductive Release
  | attach
  | remove
  deriving DecidableEq, Repr

/-- A task, with the socket it was queued for, what the stack holds where its buffer will
be, what `::send` will answer, and the rest of what it meets outside. -/
structure Task where
  server : Server
  out : Outside
  socket : Socket
  stale : Bytes
  stale_size : stale.length = kReqBufSize
  answers : List (Option ℕ)

/-- How the execution of a task ends. -/
inductive TaskEnd
  /-- The language gives it no meaning. -/
  | undefined
  /-- The calls made on the `SocketHandler`, and the exception kept in the future. -/
  | ended (calls : List Release) (stored : Option Exception)

namespace Task

/-- `operator()` inside its `packaged_task`; `none` when it has not ended within the depth,
or never does. -/
def run (t : Task) (fuel : ℕ) : Option TaskEnd :=
  match parse t.stale t.socket {} with
  | .error .undefined => some .undefined
  | .error fault => some (.ended [] (some (.parser fault)))
  | .ok (false, _, _) => some (.ended [.remove] none)
  | .ok (true, req, _) =>
    let handled := t.server.handle t.out fuel req
    match handled.ending with
    | .hung | .running => none
    | .raised e => some (.ended [] (some e))
    | .returned res =>
      match res.getDataReader.bufferRead ⟨t.answers, []⟩ with
      | none => none
      | some _ =>
        if t.out.logs handled.logs then some (.ended [.attach] none)
        else some (.ended [] (some .log))

/-- The task ends having called exactly one of `attach` and `remove`. -/
def Settled (t : Task) : Prop := ∃ fuel call stored, t.run fuel = some (.ended [call] stored)

end Task

/-! ## What has to go well -/

/-- The deliveries bring so many missing bytes, and which. -/
inductive Comes : ℕ → List Bytes → Bytes → Prop
  | done (rest : List Bytes) : Comes 0 rest []
  | more {missing : ℕ} {chunk more : Bytes} {rest : List Bytes} : chunk ≠ [] →
      Comes (missing + 1 - chunk.length) rest more →
      Comes (missing + 1) (chunk :: rest) (chunk ++ more)

/-- The server has an answer to a request: the handlers bound to its path return, one
calling the next, or the file system can be asked for a file. With the answer comes the
number of log lines the handlers caused. -/
inductive Answers (server : Server) (out : Outside) (req : Request) : Response → ℕ → Prop
  | handlers {funcList : List ServerFunc} {fuel : ℕ} {r : Chain.Run Exchange} :
      server.handlers.lookup req.path = some funcList →
      Chain.call (server.chain funcList) out.logs fuel (.next none) { state := ⟨req, {}⟩ } =
        (.returned, r) →
      Answers server out req r.state.resp r.beyond
  | noRoot : server.handlers.lookup req.path = none → server.staticPath = [] →
      Answers server out req (Response.pageNotFound {}) 0
  | noFile {first : Bool} : server.handlers.lookup req.path = none → server.staticPath ≠ [] →
      out.isRegularFile 0 (server.staticPath ++ req.path) = some first →
      out.isRegularFile 1 (server.candidate req first) = some false →
      Answers server out req (Response.pageNotFound {}) 0
  | file {first : Bool} : server.handlers.lookup req.path = none → server.staticPath ≠ [] →
      out.isRegularFile 0 (server.staticPath ++ req.path) = some first →
      out.isRegularFile 1 (server.candidate req first) = some true →
      Answers server out req ((Response.autoFileData {} (out.file (server.candidate req first))
        ).autoSetType (server.candidate req first)) 0

theorem answers_iff {server : Server} {out : Outside} {req : Request} {res : Response}
    {logs : ℕ} :
    Answers server out req res logs ↔
      ∃ fuel, (server.handle out fuel req).ending = .returned res ∧
        (server.handle out fuel req).logs = logs := by
  constructor
  · intro h
    cases h with
    | @handlers funcList fuel r hbound hcall =>
      have hrun : server.chainRun out req funcList fuel = (.returned, r) := by
        rw [Server.chainRun, Chain.call_mono_le (Nat.le_succ fuel) (by rw [hcall]; simp), hcall]
      refine ⟨fuel, ?_⟩
      rw [Server.handle, hbound]
      simp only [Server.handleBound_eq, hrun, and_self]
    | noRoot hnone hroot =>
      refine ⟨0, ?_⟩
      rw [Server.handle, hnone]
      simp only [Server.handleStatic, if_pos hroot, and_self]
    | noFile hnone hroot hfirst hsecond | file hnone hroot hfirst hsecond =>
      refine ⟨0, ?_⟩
      rw [Server.handle, hnone]
      simp only [Server.handleStatic, if_neg hroot, hfirst, hsecond, and_self]
  · rintro ⟨fuel, hending, hlogs⟩
    rw [Server.handle] at hending hlogs
    cases hbound : server.handlers.lookup req.path with
    | some funcList =>
      rw [hbound] at hending hlogs
      simp only [Server.handleBound_eq] at hending hlogs
      rcases hrun : server.chainRun out req funcList fuel with ⟨status, r⟩
      rw [hrun] at hending hlogs
      cases status with
      | returned =>
        cases hending
        rw [← hlogs]
        exact .handlers hbound hrun
      | raised | hung | running => cases hending
    | none =>
      rw [hbound] at hending hlogs
      simp only [Server.handleStatic] at hending hlogs
      by_cases hroot : server.staticPath = []
      · rw [if_pos hroot] at hending hlogs
        cases hending
        rw [← hlogs]
        exact .noRoot hbound hroot
      · rw [if_neg hroot] at hending hlogs
        cases hfirst : out.isRegularFile 0 (server.staticPath ++ req.path) with
        | none =>
          rw [hfirst] at hending
          cases hending
        | some first =>
          rw [hfirst] at hending hlogs
          simp only at hending hlogs
          cases hsecond : out.isRegularFile 1 (server.candidate req first) with
          | none =>
            rw [hsecond] at hending
            cases hending
          | some there =>
            rw [hsecond] at hending hlogs
            cases there with
            | false =>
              cases hending
              rw [← hlogs]
              exact .noFile hbound hroot hfirst hsecond
            | true =>
              cases hending
              rw [← hlogs]
              exact .file hbound hroot hfirst hsecond

/-- The body loop ends well exactly when the missing bytes come. -/
theorem readBody_comes {bodySize realRead : ℕ} {body : Bytes} {ds : List Bytes} :
    (readBody bodySize realRead body ds).1 = true ↔
      ∃ more, Comes (bodySize - realRead) ds more := by
  induction ds generalizing realRead body with
  | nil =>
    simp only [readBody, decide_eq_true_eq]
    constructor
    · intro h
      rw [Nat.sub_eq_zero_of_le h]
      exact ⟨[], .done _⟩
    · rintro ⟨more, h⟩
      generalize hmissing : bodySize - realRead = missing at h
      cases h
      omega
  | cons chunk rest ih =>
    by_cases hlt : realRead < bodySize
    · obtain ⟨missing, hmissing⟩ : ∃ missing, bodySize - realRead = missing + 1 :=
        ⟨bodySize - realRead - 1, by omega⟩
      have hnext : bodySize - (realRead + chunk.length) = missing + 1 - chunk.length := by omega
      rw [hmissing]
      by_cases hc : chunk = []
      · simp only [readBody, if_pos hlt, if_pos hc, Bool.false_eq_true, false_iff]
        rintro ⟨more, h⟩
        cases h with
        | more hne _ => exact hne hc
      · simp only [readBody, if_pos hlt, if_neg hc]
        rw [ih, hnext]
        constructor
        · rintro ⟨more, h⟩
          exact ⟨chunk ++ more, .more hc h⟩
        · rintro ⟨more, h⟩
          cases h with
          | more _ h => exact ⟨_, h⟩
    · simp only [readBody, if_neg hlt, true_iff]
      rw [Nat.sub_eq_zero_of_le (by omega)]
      exact ⟨[], .done _⟩

/-- What it has then read behind the head. -/
theorem readBody_body {bodySize realRead : ℕ} {body more : Bytes} {ds : List Bytes}
    (h : Comes (bodySize - realRead) ds more) :
    (readBody bodySize realRead body ds).2.1 = body ++ more := by
  induction ds generalizing realRead body more with
  | nil =>
    generalize hmissing : bodySize - realRead = missing at h
    cases h
    simp [readBody]
  | cons chunk rest ih =>
    generalize hmissing : bodySize - realRead = missing at h
    cases h with
    | done => rw [readBody, if_neg (by omega)]; simp
    | @more missing _ more _ hc h =>
      have hrest : bodySize - (realRead + chunk.length) = missing + 1 - chunk.length := by omega
      rw [readBody, if_pos (by omega), if_neg hc, ih (hrest ▸ h), List.append_assoc]

namespace Task
variable (t : Task)

/-- A request is answered: the server has an answer, the kernel takes all of it, and the
log line can be written. -/
def Served (req : Request) : Prop :=
  ∃ res logs pieces, Answers t.server t.out req res logs ∧
    DataReader.Reaches res.getDataReader.streamSize res.getDataReader.reads pieces ∧
    DataReader.Covers (res.getDataReader.beginData :: pieces) t.answers ∧ t.out.logs logs = true

/-- Nothing goes wrong: if a first delivery comes at all, then the buffer starts with a head
that is not folded and whose target can be taken apart; and if it is multipart, or lies
within the delivery and the rest of its body comes, the request is answered. -/
def Clean : Prop :=
  ∀ chunk rest, t.socket.deliveries = chunk :: rest → chunk ≠ [] →
    ∃ method target version ls n k,
      HeadText (chunk ++ t.stale.drop chunk.length) method target version ls n k ∧
      k ≠ .folded ∧ targetFate target = .fine ∧
      ∀ path params, parseTarget target ∅ = .ok (path, params) →
        let req : Request := sized
          { method, path, version, headers := storeLines ls ∅, params } t.socket.ip
        if testContentTypeMultipart (req.header contentType) then t.Served (markJson req)
        else n ≤ chunk.length ∧ ∀ more, Comes (req.bodySize - (chunk.length - n)) rest more →
          t.Served (markJson { req with body := chunk.drop n ++ more })

variable {t}

theorem not_settled_of_error {fault : Fault} (h : parse t.stale t.socket {} = .error fault) :
    ¬ t.Settled := by
  intro ⟨fuel, call, stored, hrun⟩
  rw [run, h] at hrun
  cases fault <;> cases hrun

theorem settled_of_false {req : Request} {next : Socket}
    (h : parse t.stale t.socket {} = .ok (false, req, next)) : t.Settled :=
  ⟨0, .remove, none, by rw [run, h]⟩

theorem settled_of_true {req : Request} {next : Socket}
    (h : parse t.stale t.socket {} = .ok (true, req, next)) : t.Settled ↔ t.Served req := by
  constructor
  · intro ⟨fuel, call, stored, hrun⟩
    rw [run, h] at hrun
    simp only at hrun
    cases hending : (t.server.handle t.out fuel req).ending with
    | hung | running | raised e =>
      rw [hending] at hrun
      cases hrun
    | returned res =>
      rw [hending] at hrun
      simp only at hrun
      cases hsend : res.getDataReader.bufferRead ⟨t.answers, []⟩ with
      | none =>
        rw [hsend] at hrun
        cases hrun
      | some wire =>
        rw [hsend] at hrun
        simp only at hrun
        obtain ⟨pieces, hreaches, hcovers⟩ := DataReader.bufferRead_isSome.mp ⟨wire, hsend⟩
        refine ⟨res, _, pieces, answers_iff.mpr ⟨fuel, hending, rfl⟩, hreaches, hcovers, ?_⟩
        by_contra hlog
        rw [if_neg hlog] at hrun
        cases hrun
  · intro ⟨res, logs, pieces, hanswers, hreaches, hcovers, hlog⟩
    obtain ⟨fuel, hending, hlogs⟩ := answers_iff.mp hanswers
    obtain ⟨wire, hsend⟩ := DataReader.bufferRead_isSome.mpr ⟨pieces, hreaches, hcovers⟩
    refine ⟨fuel, .attach, none, ?_⟩
    rw [run, h]
    simp only [hending, hsend, hlogs, hlog, if_true]

/-- `Parse` on a head that is not folded, with a target that can be taken apart. -/
theorem settled_of_head {chunk method target version : Bytes} {rest ls : List Bytes} {n : ℕ}
    {k : BlockEnd} {path : Bytes} {params : StringMap} (hds : t.socket.deliveries = chunk :: rest)
    (hne : chunk ≠ [])
    (htext : HeadText (chunk ++ t.stale.drop chunk.length) method target version ls n k)
    (hk : k ≠ .folded) (htarget : parseTarget target ∅ = .ok (path, params)) {req : Request}
    (hreq : req = sized
      { method, path, version, headers := storeLines ls ∅, params } t.socket.ip) :
    t.Settled ↔
      if testContentTypeMultipart (req.header contentType) then t.Served (markJson req)
      else n ≤ chunk.length ∧ ∀ more, Comes (req.bodySize - (chunk.length - n)) rest more →
        t.Served (markJson { req with body := chunk.drop n ++ more }) := by
  obtain ⟨server, out, ⟨ip, deliveries, fits⟩, stale, hstale, answers⟩ := t
  simp only at hds htext hreq
  subst hds
  have hfit : chunk.length ≤ kReqBufSize := fits chunk List.mem_cons_self
  have hsize : (chunk ++ stale.drop chunk.length).length ≤ kReqBufSize := by
    rw [List.length_append, List.length_drop]
    omega
  have hpos : n ≠ 0 := htext.ne_zero
  set found : Request := { method, path, version, headers := storeLines ls ∅, params } with hfound
  have hhead : (parseHttpHeader {} (chunk ++ stale.drop chunk.length)).1 = .ok (n, found) := by
    obtain ⟨m, e, r, hrun, -, -⟩ := parseHttpHeader_eq htext hsize {}
    rw [hrun]
    cases k with
    | folded => exact absurd rfl hk
    | inside | clipped =>
      simp only [headOutcome, htarget]
      rfl
  have hsame : found.header contentType = req.header contentType := by rw [hreq]; rfl
  cases hmulti : testContentTypeMultipart (req.header contentType) with
  | true =>
    have hparse : parse stale ⟨ip, chunk :: rest, fits⟩ {} = _ :=
      parse_multipart hne hhead hpos (by rw [hsame]; exact hmulti)
    rw [if_pos rfl, hreq]
    exact settled_of_true hparse
  | false =>
    rw [if_neg (by simp)]
    by_cases hin : n ≤ chunk.length
    · have hparse : parse stale ⟨ip, chunk :: rest, fits⟩ {} = _ :=
        parse_inside hne hhead hpos hin (by rw [hsame]; exact hmulti)
      rw [← hreq] at hparse
      set loop := recvBody ⟨ip, rest, fun c hc => fits c (List.mem_cons_of_mem _ hc)⟩
        req.bodySize (chunk.length - n) (chunk.drop n) with hloop
      cases hended : loop.1 with
      | true =>
        obtain ⟨more, hcomes⟩ := readBody_comes.mp hended
        have hbody : loop.2.1 = chunk.drop n ++ more := readBody_body hcomes
        rw [finish, hended, if_pos rfl, hbody] at hparse
        rw [settled_of_true hparse]
        refine ⟨fun hserved => ⟨hin, fun other hother => ?_⟩, fun h => h.2 more hcomes⟩
        have hagree : chunk.drop n ++ other = chunk.drop n ++ more := by
          rw [← readBody_body hcomes, ← readBody_body hother]
        rw [hagree]
        exact hserved
      | false =>
        rw [finish, hended] at hparse
        refine ⟨fun _ => ⟨hin, fun more hcomes => ?_⟩, fun _ => settled_of_false hparse⟩
        have htrue : loop.1 = true := readBody_comes.mpr ⟨more, hcomes⟩
        rw [hended] at htrue
        cases htrue
    · have hparse : parse stale ⟨ip, chunk :: rest, fits⟩ {} = _ :=
        parse_short hne hhead (by omega) (by rw [hsame]; exact hmulti)
      exact ⟨fun h => absurd h (not_settled_of_error hparse), fun h => absurd h.1 hin⟩

/-- A task gives its socket back exactly when nothing goes wrong. -/
theorem settled_iff (t : Task) : t.Settled ↔ t.Clean := by
  constructor
  · intro hsettled chunk rest hds hne
    have hsize : (chunk ++ t.stale.drop chunk.length).length ≤ kReqBufSize := by
      have hfit := t.socket.fits chunk (by rw [hds]; exact List.mem_cons_self)
      rw [List.length_append, List.length_drop, t.stale_size]
      omega
    have herror : ∀ fault,
        (parseHttpHeader {} (chunk ++ t.stale.drop chunk.length)).1 ≠ .error fault := by
      intro fault hfault
      obtain ⟨server, out, ⟨ip, deliveries, fits⟩, stale, hstale, answers⟩ := t
      simp only at hds
      subst hds
      exact not_settled_of_error (parse_error hne hfault) hsettled
    rcases parseHttpHeader_cases hsize {} with
      hund | hgap | ⟨method, target, version, ls, n, k, htext⟩
    · exact absurd hund (herror _)
    · obtain ⟨m, hthrow, -⟩ := parseHttpHeader_gap hgap {}
      exact absurd (congrArg Prod.fst hthrow) (herror _)
    obtain ⟨m, e, r, hrun, -, -⟩ := parseHttpHeader_eq htext hsize {}
    have hout : ∀ fault, headOutcome {} method target version ls n k ≠ .error fault := by
      intro fault hfault
      exact herror fault (by rw [hrun]; exact hfault)
    have hk : k ≠ .folded := fun hfolded => hout .lengthError (by rw [hfolded]; rfl)
    have hfate := headOutcome_fate {} method version htext.word_target ls n hk
    have hfine : targetFate target = .fine := by
      cases hf : targetFate target with
      | fine => rfl
      | throws | overruns =>
        rw [hf] at hfate
        exact absurd hfate (hout _)
    refine ⟨method, target, version, ls, n, k, htext, hk, hfine, fun path params htarget => ?_⟩
    exact (settled_of_head hds hne htext hk htarget rfl).mp hsettled
  · intro hclean
    obtain ⟨server, out, ⟨ip, deliveries, fits⟩, stale, hstale, answers⟩ := t
    cases deliveries with
    | nil => exact settled_of_false rfl
    | cons chunk rest =>
      by_cases hne : chunk = []
      · subst hne
        exact settled_of_false rfl
      · obtain ⟨method, target, version, ls, n, k, htext, hk, hfine, hserved⟩ :=
          hclean chunk rest rfl hne
        have hfate := parseTarget_fate htext.word_target.1 ∅
        rw [hfine] at hfate
        obtain ⟨⟨path, params⟩, htarget⟩ := hfate
        exact (settled_of_head rfl hne htext hk htarget rfl).mpr (hserved path params htarget)

/-- `GET /% H`, a header line `A: b`, and the blank line. -/
def percentHead : Bytes :=
  ascii ['G', 'E', 'T', ' ', '/', '%', ' ', 'H', '\n', 'A', ':', ' ', 'b', '\n', '\n']

theorem headText_percentHead (stale : Bytes) :
    HeadText (percentHead ++ stale) (ascii ['G', 'E', 'T']) (ascii ['/', '%']) (ascii ['H'])
      [ascii ['A', ':', ' ', 'b']] 15 .inside := by
  have hspace : Gap [32] := by decide
  have hend : Gap [10] := by decide
  have hmethod : Word (ascii ['G', 'E', 'T']) := by decide
  have htarget : Word (ascii ['/', '%']) := by decide
  have hversion : Word (ascii ['H']) := by decide
  have hblank : HeaderBlock ((10 :: stale).drop (eolWidth 10 - 1)) [] 1 .inside :=
    .blank (by decide) (by rw [eolWidth, if_neg (by decide)]; omega)
  have hline : HeaderBlock (65 :: ascii [':', ' ', 'b'] ++ 10 :: 10 :: stale)
      [65 :: ascii [':', ' ', 'b']] 6 .inside :=
    .line (by decide) (by decide) (by decide) (by decide) hblank
  exact .intro hmethod hspace htarget hspace hversion hend (by decide) hline

/-- A task whose socket delivers `percentHead`. -/
def percentTask (server : Server) (out : Outside) : Task where
  server := server
  out := out
  socket := ⟨[], [percentHead], by simp only [List.mem_singleton, forall_eq]; decide⟩
  stale := List.replicate kReqBufSize 0
  stale_size := List.length_replicate
  answers := []

/-- `UrlDecode` throws on the target, and the task ends without a call on the
`SocketHandler`, whatever the server and its handlers are. -/
theorem percentTask_lost (server : Server) (out : Outside) (fuel : ℕ) :
    (percentTask server out).run fuel =
      some (.ended [] (some (.parser .invalidArgument))) := by
  have hsize : (percentHead ++ (List.replicate kReqBufSize 0).drop percentHead.length).length ≤
      kReqBufSize := by
    have hlen : percentHead.length = 15 := rfl
    rw [List.length_append, List.length_drop, List.length_replicate, hlen, kReqBufSize]
  obtain ⟨m, e, r, hrun, -, -⟩ := parseHttpHeader_eq (headText_percentHead _) hsize {}
  have hparse : parse (percentTask server out).stale (percentTask server out).socket {} =
      .error .invalidArgument := by
    exact parse_error (by decide) ((congrArg Prod.fst hrun).trans rfl)
  rw [run, hparse]

/-- A request whose target ends in the middle of an escape loses its connection. -/
theorem settled_fails :
    (∀ fuel, (percentTask ⟨∅, [], []⟩ ⟨fun _ => true, fun _ _ => some false,
        fun _ => ⟨-1, [], []⟩⟩).run fuel =
      some (.ended [] (some (.parser .invalidArgument)))) ∧
    ¬ (percentTask ⟨∅, [], []⟩ ⟨fun _ => true, fun _ _ => some false,
        fun _ => ⟨-1, [], []⟩⟩).Settled := by
  refine ⟨fun fuel => percentTask_lost _ _ fuel, ?_⟩
  intro ⟨fuel, call, stored, hrun⟩
  rw [percentTask_lost] at hrun
  cases hrun

end Task
end Calabash
