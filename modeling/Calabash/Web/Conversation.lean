import Calabash.Web.Serving

/-!
# Conversations

A client reads messages one behind the other, each as long as it declares. On a connection of a
server whose handlers change responses by their member functions, it finds in them what these calls
ask for, one message for each request.

## Main results

* `gives_madeBy` — every response that such a server gives is made by calls.
* `MadeBy.reads` — what is sent of a response is read as the calls ask, whatever follows it.
* `heard_in_order` — what a client reads of a conversation.
-/

namespace Calabash

open HttpMessage (ReadsAs receive)

/-- A response that was made by the calls, none of which declares a length. -/
structure Response.MadeBy (calls : List Setter) (res : Response) : Prop where
  built : Setter.Built calls res
  undeclared : ∀ k ∈ Setter.names calls, ¬ SameName k (ascii "Content-Length".toList)

/-- A handler that changes the response by such calls alone. -/
def ServerFunc.Composes (func : ServerFunc) : Prop :=
  Chain.Handler.Keeps (fun x : Exchange => ∃ calls, Response.MadeBy calls x.resp) func

/-- The files that are served are read as they are. -/
def Outside.Steady (out : Outside) : Prop :=
  ∀ path, out.isRegularFile 1 path = some true → ∃ file : SteadyFile, file.toFile = out.file path

/-- All handlers compose, and the files that a task meets are steady. -/
structure Site.Composes (server : Site) : Prop where
  process : ∀ func ∈ server.processHandles, ServerFunc.Composes func
  handlers : ∀ path funcList, server.handlers.lookup path = some funcList →
    ∀ func ∈ funcList, ServerFunc.Composes func
  files : ∀ out, server.meets out → out.Steady

/-! ## The responses that are given -/

namespace Response
variable {calls : List Setter} {res : Response}

theorem madeBy_nil : MadeBy [] {} := ⟨Setter.built_nil, nofun⟩

/-- One more call. -/
theorem MadeBy.concat (h : MadeBy calls res) (call : Setter)
    (hname : ∀ k v, call.header? = some (k, v) →
      ¬ SameName k (ascii "Content-Length".toList)) :
    MadeBy (calls ++ [call]) (Setter.apply res call) := by
  refine ⟨Setter.built_concat h.built call, fun k hk => ?_⟩
  cases hheader : call.header? with
  | none =>
    rw [(Setter.headers_concat hheader calls).1] at hk
    exact h.undeclared k hk
  | some header =>
    obtain ⟨k', v⟩ := header
    rw [Setter.names_concat hheader] at hk
    split at hk
    · exact h.undeclared k hk
    · rcases List.mem_append.mp hk with hk | hk
      · exact h.undeclared k hk
      · rw [List.mem_singleton.mp hk]
        exact hname k' v hheader

theorem MadeBy.setType (h : MadeBy calls res) (type : Bytes) :
    MadeBy (calls ++ [.setType type]) (res.setType type) := by
  refine h.concat (.setType type) ?_
  rintro k v hheader
  cases hheader
  decide

theorem exists_madeBy_pageNotFound : ∃ calls, MadeBy calls (pageNotFound {}) := by
  have hpage := madeBy_nil.concat (.bodyData notFoundPage (by decide +kernel)) nofun
  exact ⟨_, (hpage.setType (ascii ".html".toList)).concat (.setCode 404) nofun⟩

theorem exists_madeBy_autoSetType (h : MadeBy calls res) (path : Bytes) :
    ∃ calls, MadeBy calls (res.autoSetType path) := by
  rw [autoSetType]
  split
  · exact ⟨_, h.setType _⟩
  · exact ⟨_, h.setType _⟩

theorem exists_madeBy_autoFileData (file : SteadyFile) :
    ∃ calls, MadeBy calls (autoFileData {} file.toFile) := by
  rw [autoFileData]
  split
  · exact ⟨_, madeBy_nil.concat (.bodyDataStream file) nofun⟩
  · exact ⟨_, madeBy_nil.concat (.bodyDataFile file) nofun⟩

end Response

/-- A server whose handlers compose gives responses that are made by calls. -/
theorem Site.Composes.gives_madeBy {server : Site} (h : server.Composes) {m : Message}
    {res : Response} (hgives : server.Gives m res) : ∃ calls, Response.MadeBy calls res := by
  obtain @⟨req, out, fuel, -, -, hmeets, hending⟩ := hgives
  have hanswers := answers_iff.mpr ⟨fuel, hending, rfl⟩
  generalize (server.handle out fuel req).logs = logs at hanswers
  cases hanswers with
  | @handlers funcList fuel r hlookup hcall =>
    have hall : ∀ func ∈ server.chain funcList, ServerFunc.Composes func := by
      intro func hfunc
      rcases List.mem_append.mp hfunc with hfunc | hfunc
      · exact h.process func hfunc
      · exact h.handlers _ funcList hlookup func hfunc
    have hkept := @Chain.call_state _ _ out.logs _ hall fuel (.next none) { state := ⟨req, {}⟩ }
      trivial ⟨[], Response.madeBy_nil⟩
    rw [hcall] at hkept
    exact hkept
  | noRoot | noFile => exact Response.exists_madeBy_pageNotFound
  | file _ _ _ hthere =>
    obtain ⟨file, hfile⟩ := h.files out hmeets _ hthere
    rw [← hfile]
    obtain ⟨calls, hcalls⟩ := Response.exists_madeBy_autoFileData file
    exact Response.exists_madeBy_autoSetType hcalls _

/-! ## What is read of them -/

/-- A file gives as much as its size says. -/
theorem Response.MadeBy.length_reads {calls : List Setter} {res : Response}
    (h : MadeBy calls res) :
    res.getDataReader.reads.flatten.length = res.getDataReader.streamSize := by
  change res.dataReader.reads.flatten.length = res.dataReader.streamSize
  rw [h.built.stream.reads, h.built.stream.size]

/-- All that `BufferRead` sends of a response is read as the calls ask, whatever follows it. -/
theorem Response.MadeBy.reads {calls : List Setter} {res : Response} (h : MadeBy calls res)
    {text : Bytes} (htext : res.Delivers text) :
    ∃ read, ReadsAs text read ∧ Setter.Recovers calls read := by
  obtain ⟨hreaches⟩ := htext
  refine ⟨_, fun more => ?_, Setter.recovers calls
    ((Response.codeInfo res.code).getD (ascii " ".toList))⟩
  rw [hreaches.flatten h.length_reads]
  change HttpMessage.readMessage (_ ++ res.dataReader.reads.flatten ++ more) = _
  rw [h.built.stream.reads, Setter.sent_eq h.built, HttpMessage.render_append]
  exact HttpMessage.readMessage_render _ more (by decide) (Setter.not_mem_codeInfo _).1
    (Setter.fits_fields calls) (Setter.filter_fields h.undeclared rfl)

/-- What a client reads as the answer to a request: what was asked for by calls that made a
response which the server may give. -/
inductive Site.Hears (server : Site) (m : Message) (read : HttpMessage.Message) : Prop
  | intro {res : Response} {calls : List Setter} : server.Gives m res →
      Response.MadeBy calls res → Setter.Recovers calls read → Hears server m read

namespace Serving
variable {W S : Type} {server : Site}

/-- Whole responses are read as messages, one for each request. -/
theorem Replies.hears (hsite : server.Composes) {ms rest : List Message} {whole : Bytes}
    (h : Replies server ms whole rest) : ∃ first texts reads, ms = first ++ rest ∧
      whole = texts.flatten ∧ List.Forall₂ ReadsAs texts reads ∧
      List.Forall₂ server.Hears first reads := by
  induction h with
  | nil => exact ⟨[], [], [], rfl, rfl, .nil, .nil⟩
  | @snoc whole text m rest res _ hgives hdelivers ih =>
    obtain ⟨first, texts, reads, rfl, rfl, hreads, hhears⟩ := ih
    obtain ⟨calls, hmade⟩ := hsite.gives_madeBy hgives
    obtain ⟨read, hread, hrecovers⟩ := hmade.reads hdelivers
    exact ⟨first ++ [m], texts ++ [text], reads ++ [read], by simp, by simp,
      List.rel_append hreads (.cons hread .nil),
      List.rel_append hhears (.cons ⟨hgives, hmade, hrecovers⟩ .nil)⟩

/-- On a connection that has seen tasks one after the other, messages that are delivered one by one
have been answered in order. -/
theorem Serial.hears (hsite : server.Composes) {σ : Serving W S} (h : Serial server σ) {s : S}
    (hs : s ∉ σ.core.handler.pool.idle) {ms : List Message}
    (haligned : Message.Aligned ms (σ.accepted s).socket.deliveries)
    (hne : ∀ c ∈ (σ.accepted s).socket.deliveries, c ≠ []) :
    ∃ first rest reads part, ms = first ++ rest ∧ List.Forall₂ server.Hears first reads ∧
      receive first.length (σ.link s).wire.sent = some (reads, part) ∧
      Begins server rest part ∧ (σ.core.Waits s → part = []) := by
  obtain ⟨whole, rest, part, hreplies, hbegins, hsent, hwaits⟩ := h.replies hs haligned hne
  obtain ⟨first, texts, reads, hsplit, rfl, hreads, hhears⟩ := hreplies.hears hsite
  refine ⟨first, rest, reads, part, hsplit, hhears, ?_, hbegins, hwaits⟩
  rw [hhears.length_eq, hsent]
  exact HttpMessage.receive_of_readsAs hreads part

/-- A connection that waits, and on which nothing more was delivered, has answers to all of its
messages, and no more. -/
theorem Serial.answered (hsite : server.Composes) {σ : Serving W S} (h : Serial server σ) {s : S}
    (hs : s ∉ σ.core.handler.pool.idle) (hwaits : σ.core.Waits s)
    (hall : (σ.link s).socket.deliveries = []) {ms : List Message}
    (haligned : Message.Aligned ms (σ.accepted s).socket.deliveries)
    (hne : ∀ c ∈ (σ.accepted s).socket.deliveries, c ≠ []) :
    ∃ reads, List.Forall₂ server.Hears ms reads ∧
      receive ms.length (σ.link s).wire.sent = some (reads, []) := by
  obtain ⟨xs, hsession⟩ := h.waits s hwaits
  obtain ⟨whole, rest, hreplies, hsent, hleft, -⟩ := hsession.replies haligned hne
  obtain ⟨first, texts, reads, rfl, rfl, hreads, hhears⟩ := hreplies.hears hsite
  rw [hall] at hleft
  cases hleft
  refine ⟨reads, by rwa [List.append_nil], ?_⟩
  have hreceive := HttpMessage.receive_of_readsAs hreads []
  rw [List.append_nil] at hreceive
  rw [List.append_nil, hhears.length_eq, hsent, h.fresh s hs, List.nil_append]
  exact hreceive

variable [DecidableEq W] [DecidableEq S] [Fintype W]

/-- A client whose messages are delivered one by one reads, whatever the loop, the workers and the
other clients do, an answer to each of the first of them, in order, and behind these at most the
beginning of the next. -/
theorem heard_in_order (hsite : server.Composes) {σ : Serving W S}
    (h : (system server W S).Reachable σ) {s : S} (hs : s ∉ σ.core.handler.pool.idle)
    {ms : List Message} (haligned : Message.Aligned ms (σ.accepted s).socket.deliveries)
    (hne : ∀ c ∈ (σ.accepted s).socket.deliveries, c ≠ []) :
    ∃ first rest reads part, ms = first ++ rest ∧ List.Forall₂ server.Hears first reads ∧
      receive first.length (σ.link s).wire.sent = some (reads, part) ∧
      Begins server rest part ∧ (σ.core.Waits s → part = []) :=
  (serial_reachable h).hears hsite hs haligned hne

theorem composes_greet : ServerFunc.Composes greet := by
  rintro entry answers ⟨calls, hcalls⟩ -
  exact ⟨_, (hcalls.concat (.setCode 201) nofun).concat (.bodyData (ascii "hi".toList) (by decide))
    nofun⟩

theorem composes_greeter : greeter.Composes where
  process := nofun
  handlers path funcList hlookup func hfunc := by
    have hbound : funcList = [greet] := by
      by_cases hpath : path = ascii ['/']
      · subst hpath
        cases hlookup
        rfl
      · have hnone : greeter.handlers.lookup path = none := by
          change AList.lookup path (AList.insert (ascii ['/']) _ _) = none
          rw [AList.lookup_insert_ne hpath]
          rfl
        rw [hnone] at hlookup
        cases hlookup
    rw [hbound, List.mem_singleton] at hfunc
    exact hfunc ▸ composes_greet
  files := by
    rintro out rfl path hthere
    cases hthere

theorem heard_in_order_hello : ∃ σ : Serving Unit Unit, σ.core.Waits () ∧
    ∃ first rest reads part, [Message.hello] = first ++ rest ∧
      List.Forall₂ greeter.Hears first reads ∧
      receive first.length (σ.link ()).wire.sent = some (reads, part) ∧
      Begins greeter rest part ∧ (σ.core.Waits () → part = []) := by
  obtain ⟨σ, hreachable, hwaits, hidle, haccepted⟩ := reachable_hello
  exact ⟨σ, hwaits, heard_in_order composes_greeter hreachable hidle
    (by rw [haccepted]; exact aligned_helloLink) (by rw [haccepted]; exact nonempty_helloLink)⟩

end Serving
end Calabash
