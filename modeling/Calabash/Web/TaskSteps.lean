import Calabash.Web.Framing
import Calabash.Web.HttpTask

/-!
# `HttpTask`, call by call

`Task.run` runs a task in one piece. Here each `recv` and each `::send` is a step of its own, so
that other threads can come in between. A handler is still one step, and what it meets outside is
chosen when it is called.

## Main results

* `partway_step` — what a step adds to a task that is under way.
* `Partway.sent` — how much of which response a task has sent.
* `TaskPc.ends_iff` — call by call a task comes to the ends that it comes to in one piece.
-/

namespace Calabash

open RequestMaker DataReader

/-- A connection as the kernel has it: what `recv` will give, and what `::send` will answer and has
taken. -/
structure Link where
  socket : Socket
  wire : Wire

/-- A server, and what its tasks may meet outside. -/
structure Site extends Server where
  meets : Outside → Prop

/-- Where a task is. -/
inductive TaskPc
  /-- In front of the first `recv`. -/
  | reading
  /-- In the body loop. -/
  | body (req : Request) (realRead : ℕ) (body : Bytes)
  /-- `Parse` has returned `true`. -/
  | handling (req : Request)
  /-- In `BufferRead`: with bytes of the buffer left, bytes of the file missing, and what
  `readsome` will give; and whether the log line behind it can be written. -/
  | sending (left : Bytes) (missing : ℕ) (reads : List Bytes) (logged : Bool)
  /-- In front of the call on the `SocketHandler`. -/
  | released (call : Release)
  | threw (e : Exception)

/-- `Parse` from its first `recv`, which has brought a chunk, to the next one. -/
def afterRecv (ip stale chunk : Bytes) : Except Fault TaskPc := do
  let buf := chunk ++ stale.drop chunk.length
  let (headSize, req) ← (parseHttpHeader {}).result buf
  if headSize = 0 then return .released .remove
  let req := sized req ip
  let rest : ℤ := (chunk.length : ℤ) - headSize
  if testContentTypeMultipart (req.header contentType) then
    return .handling (markJson (saveMultipartFile buf headSize rest req))
  else
    let body ← (makeString headSize rest).result buf
    return .body req rest.toNat body

/-- A step of a task on its connection. A `Parse` that the language gives no meaning has none. -/
inductive TaskStep (server : Site) : TaskPc → Link → TaskPc → Link → Prop
  -- `Parse`
  | closed {l : Link} {next : Socket} : l.socket.recv = ([], next) →
      TaskStep server .reading l (.released .remove) { l with socket := next }
  | opened {l : Link} {next : Socket} {chunk : Bytes} {pc : TaskPc} (stale : Bytes) :
      stale.length = kReqBufSize → l.socket.recv = (chunk, next) → chunk ≠ [] →
      afterRecv l.socket.ip stale chunk = .ok pc →
      TaskStep server .reading l pc { l with socket := next }
  | garbled {l : Link} {next : Socket} {chunk : Bytes} {fault : Fault} (stale : Bytes) :
      stale.length = kReqBufSize → l.socket.recv = (chunk, next) → chunk ≠ [] →
      afterRecv l.socket.ip stale chunk = .error fault → fault ≠ .undefined →
      TaskStep server .reading l (.threw (.parser fault)) { l with socket := next }
  | full {l : Link} {req : Request} {realRead : ℕ} {body : Bytes} : req.bodySize ≤ realRead →
      TaskStep server (.body req realRead body) l (.handling (markJson { req with body })) l
  | more {l : Link} {next : Socket} {chunk : Bytes} {req : Request} {realRead : ℕ} {body : Bytes} :
      realRead < req.bodySize → l.socket.recv = (chunk, next) → chunk ≠ [] →
      TaskStep server (.body req realRead body) l
        (.body req (realRead + chunk.length) (body ++ chunk)) { l with socket := next }
  | broken {l : Link} {next : Socket} {req : Request} {realRead : ℕ} {body : Bytes} :
      realRead < req.bodySize → l.socket.recv = ([], next) →
      TaskStep server (.body req realRead body) l (.released .remove) { l with socket := next }
  -- `Handle`
  | answer {l : Link} {req : Request} {res : Response} (out : Outside) (fuel : ℕ) :
      server.meets out → (server.handle out fuel req).ending = .returned res →
      TaskStep server (.handling req) l
        (.sending res.getDataReader.beginData res.getDataReader.streamSize res.getDataReader.reads
          (out.logs (server.handle out fuel req).logs)) l
  | raise {l : Link} {req : Request} {e : Exception} (out : Outside) (fuel : ℕ) :
      server.meets out → (server.handle out fuel req).ending = .raised e →
      TaskStep server (.handling req) l (.threw e) l
  -- `BufferRead`
  | send {socket : Socket} {c : UInt8} {cs sent : Bytes} {n missing : ℕ} {reads : List Bytes}
      {logged : Bool} {answers : List (Option ℕ)} :
      TaskStep server (.sending (c :: cs) missing reads logged) ⟨socket, ⟨some n :: answers, sent⟩⟩
        (.sending ((c :: cs).drop n) missing reads logged)
        ⟨socket, ⟨answers, sent ++ (c :: cs).take n⟩⟩
  | again {socket : Socket} {c : UInt8} {cs sent : Bytes} {missing : ℕ} {reads : List Bytes}
      {logged : Bool} {answers : List (Option ℕ)} :
      TaskStep server (.sending (c :: cs) missing reads logged) ⟨socket, ⟨none :: answers, sent⟩⟩
        (.sending (c :: cs) missing reads logged) ⟨socket, ⟨answers, sent⟩⟩
  | read {l : Link} {missing : ℕ} {buf : Bytes} {reads : List Bytes} {logged : Bool} :
      TaskStep server (.sending [] (missing + 1) (buf :: reads) logged) l
        (.sending buf (missing + 1 - buf.length) reads logged) l
  | log {l : Link} {reads : List Bytes} {logged : Bool} :
      TaskStep server (.sending [] 0 reads logged) l
        (if logged then .released .attach else .threw .log) l

/-- A task that began on the connection `l` is under way. -/
inductive Under (server : Site) (l : Link) : TaskPc → Link → Prop
  | start : Under server l .reading l
  | step {pc pc' : TaskPc} {l₁ l₂ : Link} : Under server l pc l₁ →
      TaskStep server pc l₁ pc' l₂ → Under server l pc' l₂

/-! ## Tasks in one piece -/

/-- A task reads the request, sends all of the response, and attaches the socket. -/
inductive Answered (server : Site) (l : Link) (req : Request) (res : Response) : Link → Prop
  | intro {stale : Bytes} {out : Outside} {fuel : ℕ} {next : Socket} {wire : Wire} :
      stale.length = kReqBufSize → parse stale l.socket {} = .ok (true, req, next) →
      server.meets out → (server.handle out fuel req).ending = .returned res →
      out.logs (server.handle out fuel req).logs = true →
      res.getDataReader.bufferRead l.wire = some wire → Answered server l req res ⟨next, wire⟩

/-- What is known of a task that began on `l`: what `Parse` returns on `l` and how far the response
has come. -/
inductive Partway (server : Site) (l : Link) : TaskPc → Link → Prop
  | reading : Partway server l .reading l
  | body {stale : Bytes} {req : Request} {realRead : ℕ} {body : Bytes} {socket : Socket} :
      stale.length = kReqBufSize →
      parse stale l.socket {} = .ok (finish req (recvBody socket req.bodySize realRead body)) →
      Partway server l (.body req realRead body) ⟨socket, l.wire⟩
  | handling {stale : Bytes} {req : Request} {socket : Socket} : stale.length = kReqBufSize →
      parse stale l.socket {} = .ok (true, req, socket) →
      Partway server l (.handling req) ⟨socket, l.wire⟩
  | sending {stale taken left : Bytes} {req : Request} {res : Response} {out : Outside}
      {fuel missing : ℕ} {reads pieces : List Bytes} {socket : Socket} {wire : Wire} :
      stale.length = kReqBufSize → parse stale l.socket {} = .ok (true, req, socket) →
      server.meets out → (server.handle out fuel req).ending = .returned res →
      res.getDataReader.bufferRead l.wire =
        (sendAll left wire.answers wire.sent).bind (sendStream missing reads) →
      pieces ++ reads = res.getDataReader.reads →
      missing = res.getDataReader.streamSize - pieces.flatten.length →
      wire.sent = l.wire.sent ++ taken →
      taken ++ left = res.getDataReader.beginData ++ pieces.flatten →
      Partway server l (.sending left missing reads (out.logs (server.handle out fuel req).logs))
        ⟨socket, wire⟩
  | attaching {req : Request} {res : Response} {l' : Link} : Answered server l req res l' →
      Partway server l (.released .attach) l'
  | removing {stale : Bytes} {req : Request} {socket : Socket} : stale.length = kReqBufSize →
      parse stale l.socket {} = .ok (false, req, socket) →
      Partway server l (.released .remove) ⟨socket, l.wire⟩
  | garbled {stale : Bytes} {fault : Fault} {socket : Socket} : stale.length = kReqBufSize →
      parse stale l.socket {} = .error fault → fault ≠ .undefined →
      Partway server l (.threw (.parser fault)) ⟨socket, l.wire⟩
  | raised {stale : Bytes} {req : Request} {e : Exception} {out : Outside} {fuel : ℕ}
      {socket : Socket} : stale.length = kReqBufSize →
      parse stale l.socket {} = .ok (true, req, socket) → server.meets out →
      (server.handle out fuel req).ending = .raised e →
      Partway server l (.threw e) ⟨socket, l.wire⟩
  | unlogged {stale : Bytes} {req : Request} {res : Response} {out : Outside} {fuel : ℕ}
      {next : Socket} {wire : Wire} : stale.length = kReqBufSize →
      parse stale l.socket {} = .ok (true, req, next) → server.meets out →
      (server.handle out fuel req).ending = .returned res →
      ¬ out.logs (server.handle out fuel req).logs →
      res.getDataReader.bufferRead l.wire = some wire → Partway server l (.threw .log) ⟨next, wire⟩

/-! ## A step -/

theorem recv_ip {socket next : Socket} {chunk : Bytes} (h : socket.recv = (chunk, next)) :
    next.ip = socket.ip := by
  obtain ⟨ip, _ | ⟨c, rest⟩, fits⟩ := socket <;> cases h <;> rfl

theorem parse_nil {socket next : Socket} (h : socket.recv = ([], next)) (stale : Bytes) :
    parse stale socket {} = .ok (false, {}, next) := by
  simp only [parse, h, if_true, Bind.bind, Except.bind]
  rfl

theorem ok_finish (req : Request) (run : Bool × Bytes × Socket) :
    (if run.1 then Except.ok (true, markJson { req with body := run.2.1 }, run.2.2)
      else .ok (false, { req with body := run.2.1 }, run.2.2)) =
      (.ok (finish req run) : Except Fault (Bool × Request × Socket)) := by
  rw [finish]
  cases run.1 <;> rfl

/-- What `Parse` returns that has come as far as `afterRecv` says. -/
inductive GoesOn (next : Socket) :
    Except Fault TaskPc → Except Fault (Bool × Request × Socket) → Prop
  | throws (fault : Fault) : GoesOn next (.error fault) (.error fault)
  | noHead (req : Request) : GoesOn next (.ok (.released .remove)) (.ok (false, req, next))
  | multipart (req : Request) : GoesOn next (.ok (.handling req)) (.ok (true, req, next))
  | loop (req : Request) (n : ℕ) (body : Bytes) : GoesOn next (.ok (.body req n body))
      (.ok (finish req (recvBody next req.bodySize n body)))

/-- `Parse` goes on where the first delivery has left it. -/
theorem parse_goesOn {socket next : Socket} {chunk : Bytes} (hrecv : socket.recv = (chunk, next))
    (hne : chunk ≠ []) (stale : Bytes) :
    GoesOn next (afterRecv socket.ip stale chunk) (parse stale socket {}) := by
  have hip := recv_ip hrecv
  cases hhead : (parseHttpHeader {}).result (chunk ++ stale.drop chunk.length) with
  | error fault =>
    simp only [afterRecv, parse, hrecv, if_neg hne, hhead, Bind.bind, Except.bind]
    exact .throws fault
  | ok found =>
    obtain ⟨headSize, req⟩ := found
    simp only [afterRecv, parse, hrecv, if_neg hne, hhead, Bind.bind, Except.bind]
    by_cases hzero : headSize = 0
    · simp only [if_pos hzero]
      exact .noHead req
    · simp only [if_neg hzero, hip]
      change GoesOn next (if testContentTypeMultipart ((sized req socket.ip).header contentType)
        then _ else _) (if testContentTypeMultipart ((sized req socket.ip).header contentType)
        then _ else _)
      by_cases hmulti : testContentTypeMultipart ((sized req socket.ip).header contentType) = true
      · rw [if_pos hmulti, if_pos hmulti]
        exact .multipart _
      · rw [if_neg hmulti, if_neg hmulti]
        cases hbody : (makeString headSize ((chunk.length : ℤ) - headSize)).result
            (chunk ++ stale.drop chunk.length) with
        | error fault => exact .throws fault
        | ok body =>
          exact Eq.mpr (congrArg (GoesOn next _) (ok_finish (sized req socket.ip)
            (recvBody next (sized req socket.ip).bodySize _ body))) (.loop _ _ _)

/-- The body loop, by its next `recv`. -/
theorem recvBody_full {socket : Socket} {bodySize realRead : ℕ} (h : bodySize ≤ realRead)
    (body : Bytes) : recvBody socket bodySize realRead body = (true, body, socket) := by
  obtain ⟨ip, deliveries, fits⟩ := socket
  simp [recvBody, readBody_full h]

theorem recvBody_more {socket next : Socket} {chunk : Bytes} {bodySize realRead : ℕ}
    (hlt : realRead < bodySize) (hrecv : socket.recv = (chunk, next)) (hne : chunk ≠ [])
    (body : Bytes) : recvBody socket bodySize realRead body =
      recvBody next bodySize (realRead + chunk.length) (body ++ chunk) := by
  obtain ⟨ip, _ | ⟨c, rest⟩, fits⟩ := socket
  · cases hrecv
    exact absurd rfl hne
  · cases hrecv
    simp [recvBody, readBody, hlt, hne]

theorem recvBody_broken {socket next : Socket} {bodySize realRead : ℕ}
    (hlt : realRead < bodySize) (hrecv : socket.recv = ([], next)) (body : Bytes) :
    recvBody socket bodySize realRead body = (false, body, next) := by
  obtain ⟨ip, _ | ⟨c, rest⟩, fits⟩ := socket
  · cases hrecv
    simp [recvBody, readBody, hlt]
  · cases hrecv
    simp [recvBody, readBody, hlt]

theorem partway_step {server : Site} {l l₁ l₂ : Link} {pc pc' : TaskPc}
    (h : Partway server l pc l₁) (hstep : TaskStep server pc l₁ pc' l₂) :
    Partway server l pc' l₂ := by
  cases hstep with
  | closed hrecv =>
    cases h
    exact .removing List.length_replicate (parse_nil hrecv (List.replicate kReqBufSize 0))
  | opened stale hstale hrecv hne hafter =>
    cases h
    have hgoes := parse_goesOn hrecv hne stale
    rw [hafter] at hgoes
    generalize hparse : parse stale l.socket {} = result at hgoes
    cases hgoes with
    | noHead => exact .removing hstale hparse
    | multipart => exact .handling hstale hparse
    | loop => exact .body hstale hparse
  | garbled stale hstale hrecv hne hafter hfault =>
    cases h
    have hgoes := parse_goesOn hrecv hne stale
    rw [hafter] at hgoes
    generalize hparse : parse stale l.socket {} = result at hgoes
    cases hgoes
    exact .garbled hstale hparse hfault
  | raise out fuel hmeets hending =>
    cases h with
    | handling hstale hparse => exact .raised hstale hparse hmeets hending
  | full hle =>
    cases h with
    | body hstale hparse =>
      rw [recvBody_full hle] at hparse
      exact .handling hstale hparse
  | more hlt hrecv hne =>
    cases h with
    | body hstale hparse =>
      rw [recvBody_more hlt hrecv hne] at hparse
      exact .body hstale hparse
  | broken hlt hrecv =>
    cases h with
    | body hstale hparse =>
      rw [recvBody_broken hlt hrecv] at hparse
      exact .removing hstale hparse
  | @answer _ req res out fuel hmeets hending =>
    cases h with
    | handling hstale hparse =>
      have hnone : [] ++ res.getDataReader.reads = res.getDataReader.reads := rfl
      exact .sending hstale hparse hmeets hending rfl hnone rfl (List.append_nil _).symm (by simp)
  | @send _ c cs sent n =>
    cases h with
    | @sending _ taken _ _ _ _ _ _ _ _ _ _ hstale hparse hmeets hending hrun hreads hmissing hsent
        htaken =>
      rw [sendAll] at hrun
      have hmore : sent ++ (c :: cs).take n = l.wire.sent ++ (taken ++ (c :: cs).take n) := by
        rw [← List.append_assoc, ← hsent]
      refine .sending hstale hparse hmeets hending hrun hreads hmissing hmore ?_
      rw [List.append_assoc, List.take_append_drop]
      exact htaken
  | again =>
    cases h with
    | sending hstale hparse hmeets hending hrun hreads hmissing hsent htaken =>
      rw [sendAll] at hrun
      exact .sending hstale hparse hmeets hending hrun hreads hmissing hsent htaken
  | @read _ missing buf reads logged =>
    cases h with
    | @sending _ _ _ _ res _ _ _ _ pieces _ _ hstale hparse hmeets hending hrun hreads hmissing
        hsent htaken =>
      rw [sendAll, Option.bind_some, sendStream] at hrun
      have hpieces : (pieces ++ [buf]) ++ reads = _ :=
        (List.append_assoc pieces [buf] reads).trans hreads
      have hleft : missing + 1 - buf.length =
          res.getDataReader.streamSize - (pieces ++ [buf]).flatten.length := by
        rw [hmissing, List.flatten_append, List.length_append, List.flatten_singleton, Nat.sub_sub]
      refine .sending hstale hparse hmeets hending hrun hpieces hleft hsent ?_
      rw [List.append_nil] at htaken
      rw [htaken, List.flatten_append, List.flatten_singleton, List.append_assoc]
  | @log _ reads logged =>
    cases h with
    | sending hstale hparse hmeets hending hrun hreads hmissing hsent htaken =>
      rw [sendAll, Option.bind_some, sendStream] at hrun
      split
      · next hlog => exact .attaching (.intro hstale hparse hmeets hending hlog hrun)
      · next hlog => exact .unlogged hstale hparse hmeets hending hlog hrun

/-- A task that is under way is a part of a task in one piece. -/
theorem Under.partway {server : Site} {l l' : Link} {pc : TaskPc} (h : Under server l pc l') :
    Partway server l pc l' := by
  induction h with
  | start => exact .reading
  | step _ hstep ih => exact partway_step ih hstep

theorem Under.answered {server : Site} {l l' : Link} (h : Under server l (.released .attach) l') :
    ∃ req res, Answered server l req res l' := by
  cases h.partway with
  | attaching hanswered => exact ⟨_, _, hanswered⟩

/-! ## What a task in one piece does -/

/-- `BufferRead` sends behind what was sent before. -/
theorem bufferRead_appends {d : DataReader} {wire wire' : Wire}
    (h : d.bufferRead wire = some wire') : ∃ pieces, Reaches d.streamSize d.reads pieces ∧
      Covers (d.beginData :: pieces) wire.answers ∧
      wire'.sent = wire.sent ++ (d.beginData ++ pieces.flatten) := by
  obtain ⟨next, hnext, hrest⟩ := Option.bind_eq_some_iff.mp h
  obtain ⟨hsent, group, hanswers, hlen⟩ := sendAll_some hnext
  obtain ⟨pieces, hreaches, hcovers, hall⟩ := sendStream_some hrest
  refine ⟨pieces, hreaches, ?_, ?_⟩
  · rw [hanswers]
    exact .cons hlen hcovers
  · rw [hall, hsent, List.append_assoc]

theorem DataReader.Reaches.isPrefix {missing : ℕ} {reads pieces : List Bytes}
    (h : Reaches missing reads pieces) (head : Bytes) :
    head ++ pieces.flatten <+: head ++ reads.flatten := by
  obtain ⟨rest, hrest⟩ := h.append
  rw [hrest, List.flatten_append, ← List.append_assoc]
  exact List.prefix_append _ _

/-- What a task has sent is the beginning of a response to the request that it has read. -/
theorem Partway.sent {server : Site} {l l' : Link} {pc : TaskPc} (h : Partway server l pc l') :
    ∃ taken, l'.wire.sent = l.wire.sent ++ taken ∧ (taken = [] ∨ ∃ stale req res out fuel next,
      stale.length = kReqBufSize ∧ parse stale l.socket {} = .ok (true, req, next) ∧
      server.meets out ∧ (server.handle out fuel req).ending = .returned res ∧
      taken <+: res.getDataReader.beginData ++ res.getDataReader.reads.flatten) := by
  cases h with
  | reading | body | handling | removing | garbled | raised =>
    exact ⟨[], (List.append_nil _).symm, .inl rfl⟩
  | sending hstale hparse hmeets hending hrun hreads hmissing hsent htaken =>
    refine ⟨_, hsent, .inr ⟨_, _, _, _, _, _, hstale, hparse, hmeets, hending, ?_⟩⟩
    rw [← hreads, List.flatten_append, ← List.append_assoc, ← htaken, List.append_assoc]
    exact List.prefix_append _ _
  | attaching hanswered =>
    cases hanswered with
    | intro hstale hparse hmeets hending hlog hrun =>
      obtain ⟨pieces, hreaches, -, hsent⟩ := bufferRead_appends hrun
      exact ⟨_, hsent,
        .inr ⟨_, _, _, _, _, _, hstale, hparse, hmeets, hending, hreaches.isPrefix _⟩⟩
  | unlogged hstale hparse hmeets hending hlog hrun =>
    obtain ⟨pieces, hreaches, -, hsent⟩ := bufferRead_appends hrun
    exact ⟨_, hsent, .inr ⟨_, _, _, _, _, _, hstale, hparse, hmeets, hending, hreaches.isPrefix _⟩⟩

/-! ## What a task in one piece does, call by call -/

section
variable {server : Site} {l : Link}

/-- `Parse` from the body loop on. -/
theorem Under.loop {req req' : Request} {realRead : ℕ} {body : Bytes} {socket next : Socket}
    {wire : Wire} {complete : Bool} (h : Under server l (.body req realRead body) ⟨socket, wire⟩)
    (hrun : finish req (recvBody socket req.bodySize realRead body) = (complete, req', next)) :
    Under server l (if complete then .handling req' else .released .remove) ⟨next, wire⟩ := by
  obtain ⟨ip, deliveries, fits⟩ := socket
  induction deliveries generalizing realRead body with
  | nil =>
    by_cases hfull : req.bodySize ≤ realRead
    · rw [recvBody_full hfull] at hrun
      cases hrun
      exact h.step (.full hfull)
    · have hrecv : Socket.recv ⟨ip, [], fits⟩ = ([], _) := rfl
      rw [recvBody_broken (Nat.lt_of_not_le hfull) hrecv] at hrun
      cases hrun
      exact h.step (.broken (Nat.lt_of_not_le hfull) hrecv)
  | cons chunk rest ih =>
    by_cases hfull : req.bodySize ≤ realRead
    · rw [recvBody_full hfull] at hrun
      cases hrun
      exact h.step (.full hfull)
    · have hrecv : Socket.recv ⟨ip, chunk :: rest, fits⟩ = (chunk, _) := rfl
      by_cases hne : chunk = []
      · subst hne
        rw [recvBody_broken (Nat.lt_of_not_le hfull) hrecv] at hrun
        cases hrun
        exact h.step (.broken (Nat.lt_of_not_le hfull) hrecv)
      · rw [recvBody_more (Nat.lt_of_not_le hfull) hrecv hne] at hrun
        exact ih _ (h.step (.more (Nat.lt_of_not_le hfull) hrecv hne)) hrun

/-- `Parse` that returns. -/
theorem under_parse {stale : Bytes} {req : Request} {next : Socket} {complete : Bool}
    (hstale : stale.length = kReqBufSize)
    (hparse : parse stale l.socket {} = .ok (complete, req, next)) :
    Under server l (if complete then .handling req else .released .remove) ⟨next, l.wire⟩ := by
  rcases hrecv : l.socket.recv with ⟨chunk, rest⟩
  by_cases hne : chunk = []
  · subst hne
    rw [parse_nil hrecv] at hparse
    cases hparse
    exact Under.start.step (.closed hrecv)
  · have hgoes := parse_goesOn hrecv hne stale
    rw [hparse] at hgoes
    generalize hafter : afterRecv l.socket.ip stale chunk = pc at hgoes
    generalize hresult : (complete, req, next) = result at hgoes
    cases hgoes with
    | noHead | multipart =>
      cases hresult
      exact Under.start.step (.opened stale hstale hrecv hne hafter)
    | loop => exact (Under.start.step (.opened stale hstale hrecv hne hafter)).loop hresult.symm

/-- `Parse` that throws. -/
theorem under_parse_error {stale : Bytes} {fault : Fault} (hstale : stale.length = kReqBufSize)
    (hparse : parse stale l.socket {} = .error fault) (hfault : fault ≠ .undefined) :
    ∃ l', Under server l (.threw (.parser fault)) l' := by
  rcases hrecv : l.socket.recv with ⟨chunk, rest⟩
  by_cases hne : chunk = []
  · subst hne
    rw [parse_nil hrecv] at hparse
    cases hparse
  · have hgoes := parse_goesOn hrecv hne stale
    rw [hparse] at hgoes
    generalize hafter : afterRecv l.socket.ip stale chunk = pc at hgoes
    cases hgoes
    exact ⟨_, Under.start.step (.garbled stale hstale hrecv hne hafter hfault)⟩

/-- The loop of `BufferRead` over a run of bytes. -/
theorem Under.sendAll {left sent : Bytes} {missing : ℕ} {reads : List Bytes} {logged : Bool}
    {socket : Socket} {answers : List (Option ℕ)} {wire : Wire}
    (h : Under server l (.sending left missing reads logged) ⟨socket, ⟨answers, sent⟩⟩)
    (hrun : DataReader.sendAll left answers sent = some wire) :
    Under server l (.sending [] missing reads logged) ⟨socket, wire⟩ := by
  fun_induction DataReader.sendAll left answers sent with
  | case1 answers sent =>
    cases hrun
    exact h
  | case2 => cases hrun
  | case3 c cs answers sent ih => exact ih (h.step .again) hrun
  | case4 c cs n answers sent ih => exact ih (h.step .send) hrun

/-- Its loop over the file. -/
theorem Under.sendStream {missing : ℕ} {reads : List Bytes} {logged : Bool} {socket : Socket}
    {wire wire' : Wire} (h : Under server l (.sending [] missing reads logged) ⟨socket, wire⟩)
    (hrun : DataReader.sendStream missing reads wire = some wire') :
    ∃ rest, Under server l (.sending [] 0 rest logged) ⟨socket, wire'⟩ := by
  fun_induction DataReader.sendStream missing reads wire with
  | case1 reads wire =>
    cases hrun
    exact ⟨reads, h⟩
  | case2 => cases hrun
  | case3 missing buf reads wire ih =>
    obtain ⟨next, hnext, hrest⟩ := Option.bind_eq_some_iff.mp hrun
    exact ih next ((h.step .read).sendAll hnext) hrest

/-- A response that is sent, up to the end of the task. -/
theorem Under.bufferRead {stale : Bytes} {req : Request} {res : Response} {out : Outside}
    {fuel : ℕ} {socket : Socket} {wire : Wire} (hstale : stale.length = kReqBufSize)
    (hparse : parse stale l.socket {} = .ok (true, req, socket))
    (hmeets : server.meets out) (hending : (server.handle out fuel req).ending = .returned res)
    (hrun : res.getDataReader.bufferRead l.wire = some wire) :
    Under server l (if out.logs (server.handle out fuel req).logs then .released .attach
      else .threw .log) ⟨socket, wire⟩ := by
  have hparsed : Under server l (.handling req) _ := under_parse hstale hparse
  have hhandling := hparsed.step (.answer out fuel hmeets hending)
  obtain ⟨next, hnext, hrest⟩ := Option.bind_eq_some_iff.mp hrun
  obtain ⟨rest, hsent⟩ := (hhandling.sendAll hnext).sendStream hrest
  exact hsent.step .log

end

/-- The ends of a task: the call on the `SocketHandler`, or the exception that is kept. -/
inductive TaskPc.Ends : TaskPc → List Release → Option Exception → Prop
  | released (call : Release) : Ends (.released call) [call] none
  | threw (e : Exception) : Ends (.threw e) [] (some e)

/-- `BufferRead` returns whatever was sent before. -/
theorem bufferRead_covers {d : DataReader} {pieces : List Bytes} {wire : Wire}
    (hreaches : Reaches d.streamSize d.reads pieces)
    (hcovers : Covers (d.beginData :: pieces) wire.answers) :
    ∃ wire', d.bufferRead wire = some wire' := by
  obtain ⟨answers, sent⟩ := wire
  cases hcovers with
  | cons hlen hrest =>
    obtain ⟨next, more, hsend, hleft⟩ := sendAll_group hlen _ sent
    obtain ⟨wire', hwire'⟩ :=
      sendStream_covers hreaches next (by rw [hleft]; exact hrest.append_left more)
    exact ⟨wire', (congrArg (Option.bind · _) hsend).trans hwire'⟩

theorem bufferRead_anew {d : DataReader} {wire wire' : Wire} (h : d.bufferRead wire = some wire')
    (sent : Bytes) : ∃ wire'', d.bufferRead ⟨wire.answers, sent⟩ = some wire'' := by
  obtain ⟨pieces, hreaches, hcovers, -⟩ := bufferRead_appends h
  exact bufferRead_covers hreaches hcovers

/-- Call by call a task comes to the same ends as in one piece, and to no others. -/
theorem TaskPc.ends_iff (server : Server) (l : Link) (calls : List Release)
    (stored : Option Exception) :
    (∃ pc l', Under ⟨server, fun _ => True⟩ l pc l' ∧ pc.Ends calls stored) ↔
      ∃ (t : Task) (fuel : ℕ), t.server = server ∧ t.socket = l.socket ∧
        t.answers = l.wire.answers ∧ t.run fuel = some (.ended calls stored) := by
  constructor
  · rintro ⟨pc, l', hunder, hends⟩
    have hpart := hunder.partway
    cases hends with
    | released call =>
      cases hpart with
      | attaching hanswered =>
        cases hanswered with
        | @intro stale out fuel next wire hstale hparse hmeets hending hlog hrun =>
          obtain ⟨taken, htaken⟩ := bufferRead_anew hrun []
          refine ⟨⟨server, out, l.socket, stale, hstale, l.wire.answers⟩, fuel, rfl, rfl, rfl, ?_⟩
          simp only [Task.run, hparse, hending, htaken, hlog, if_true]
      | @removing stale req socket hstale hparse =>
        refine ⟨⟨server, ⟨fun _ => true, fun _ _ => none, fun _ => ⟨0, [], []⟩⟩, l.socket, stale,
          hstale, l.wire.answers⟩, 0, rfl, rfl, rfl, ?_⟩
        simp only [Task.run, hparse]
    | threw e =>
      cases hpart with
      | @garbled stale fault socket hstale hparse hfault =>
        refine ⟨⟨server, ⟨fun _ => true, fun _ _ => none, fun _ => ⟨0, [], []⟩⟩, l.socket, stale,
          hstale, l.wire.answers⟩, 0, rfl, rfl, rfl, ?_⟩
        cases fault with
        | undefined => exact absurd rfl hfault
        | _ => simp only [Task.run, hparse]
      | @raised stale req e out fuel socket hstale hparse hmeets hending =>
        refine ⟨⟨server, out, l.socket, stale, hstale, l.wire.answers⟩, fuel, rfl, rfl, rfl, ?_⟩
        simp only [Task.run, hparse, hending]
      | @unlogged stale req res out fuel next wire hstale hparse hmeets hending hlog hrun =>
        obtain ⟨taken, htaken⟩ := bufferRead_anew hrun []
        refine ⟨⟨server, out, l.socket, stale, hstale, l.wire.answers⟩, fuel, rfl, rfl, rfl, ?_⟩
        simp only [Task.run, hparse, hending, htaken, if_neg hlog]
  · rintro ⟨⟨server, out, socket, stale, hstale, answers⟩, fuel, rfl, rfl, rfl, hrun⟩
    cases hparse : parse stale l.socket {} with
    | error fault =>
      simp only [Task.run, hparse] at hrun
      cases fault with
      | undefined => cases hrun
      | _ =>
        cases hrun
        obtain ⟨l', hunder⟩ : ∃ l', Under ⟨server, fun _ => True⟩ l _ l' :=
          under_parse_error hstale hparse (by simp)
        exact ⟨_, l', hunder, .threw _⟩
    | ok result =>
      obtain ⟨complete, req, next⟩ := result
      have hunder : Under ⟨server, fun _ => True⟩ l _ _ := under_parse hstale hparse
      cases complete with
      | false =>
        simp only [Task.run, hparse] at hrun
        cases hrun
        exact ⟨_, _, hunder, .released .remove⟩
      | true =>
        simp only [Task.run, hparse] at hrun
        cases hending : (server.handle out fuel req).ending with
        | hung | running => simp only [hending, reduceCtorEq] at hrun
        | raised e =>
          simp only [hending] at hrun
          cases hrun
          exact ⟨_, _, hunder.step (.raise out fuel trivial hending), .threw e⟩
        | returned res =>
          simp only [hending] at hrun
          cases hsend : res.getDataReader.bufferRead ⟨l.wire.answers, []⟩ with
          | none => simp only [hsend, reduceCtorEq] at hrun
          | some taken =>
            simp only [hsend] at hrun
            obtain ⟨wire, hwire⟩ := bufferRead_anew hsend l.wire.sent
            have hover : Under ⟨server, fun _ => True⟩ l _ _ :=
              .bufferRead hstale hparse trivial hending hwire
            by_cases hlog : out.logs (server.handle out fuel req).logs
            · rw [if_pos hlog] at hrun hover
              cases hrun
              exact ⟨_, _, hover, .released .attach⟩
            · rw [if_neg hlog] at hrun hover
              cases hrun
              exact ⟨_, _, hover, .threw .log⟩

end Calabash
