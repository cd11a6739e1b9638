import Calabash.Web.Delivery
import Calabash.Web.HeadShapes

/-!
# The case of header names

Field names are the same in any case of their letters. The parser stores them as they came, and
a lookup compares the bytes. So a request is read alike in another spelling as far as the names
that are looked for are spelled the same in both.

## Main results

* `RequestHead.readAlike_recased` — what `Parse` and `header` return for two spellings of a
  request.
-/

namespace Calabash

open RequestMaker Reads

namespace Field

/-- The same field, with its name in another case. -/
structure Recased (f f' : Field) : Prop where
  name : SameName f.name f'.name
  rest : f.rest = f'.rest
  crlf : f.crlf = f'.crlf

instance (f f' : Field) : Decidable (f.Recased f') :=
  decidable_of_iff (SameName f.name f'.name ∧ f.rest = f'.rest ∧ f.crlf = f'.crlf)
    ⟨fun h => ⟨h.1, h.2.1, h.2.2⟩, fun h => ⟨h.name, h.rest, h.crlf⟩⟩

/-- The key of a field has no colon in it when a blank, or nothing, is behind the colon. -/
theorem key_eq_iff (f : Field) {k : Bytes} (hk : 58 ∉ k) :
    f.key = k ↔ f.name = k ∧ (f.rest.takeWhile fun c => !isBlank c) = [] := by
  rw [key, headerWord_line, List.dropLast_append_of_ne_nil (by simp)]
  cases hword : f.rest.takeWhile fun c => !isBlank c with
  | nil => simp
  | cons c w =>
    constructor
    · intro hkey
      refine absurd ?_ hk
      rw [← hkey, List.dropLast_cons_of_ne_nil (List.cons_ne_nil c w)]
      simp
    · rintro ⟨-, hnil⟩
      cases hnil

namespace Recased

theorem headerValue_eq {f f' : Field} (h : f.Recased f') :
    headerValue f.line = headerValue f'.line := by
  rw [headerValue_line, headerValue_line, h.rest]

theorem scannable_iff {f f' : Field} (h : f.Recased f') :
    Scannable f.line ↔ Scannable f'.line := by
  rw [Scannable, Scannable, h.headerValue_eq]

theorem length_text {f f' : Field} (h : f.Recased f') : f.text.length = f'.text.length := by
  have hname : f.name.length = f'.name.length := by
    simpa using congrArg List.length h.name
  rw [text, text, line, line, h.rest, h.crlf]
  simp [hname]

/-- A field whose name is spelled alike has a key alike. -/
theorem key_eq_iff {f f' : Field} (h : f.Recased f') {k : Bytes} (hk : 58 ∉ k)
    (hname : f.name = k ↔ f'.name = k) : f.key = k ↔ f'.key = k := by
  rw [f.key_eq_iff hk, f'.key_eq_iff hk, hname, h.rest]

end Recased
end Field

/-- The same request, with other headers stored. -/
def Request.withHeaders (req : Request) (headers : StringMap) : Request := { req with headers }

namespace RequestMaker

/-- What `Parse` makes of a request filled from a head, with `b` behind the head in the first
delivery. -/
def afterHead (req : Request) (ip b : Bytes) (socket : Socket) : Bool × Request × Socket :=
  if testContentTypeMultipart (req.header contentType) then
    (true, markJson (sized req ip), socket)
  else finish (sized req ip) (recvBody socket (sized req ip).bodySize b.length b)

theorem parse_afterHead {stale ip text b : Bytes} {rest : List Bytes} {fits} {found : Request}
    (hne : text ≠ []) (h : (parseHttpHeader {} (text ++ b ++
      stale.drop (text ++ b).length)).1 = .ok (text.length, found)) :
    parse stale ⟨ip, (text ++ b) :: rest, fits⟩ {} =
      .ok (afterHead found ip b ⟨ip, rest, fun c hc => fits c (List.mem_cons_of_mem _ hc)⟩) := by
  have hpos := List.length_pos_iff.mpr hne
  rw [afterHead]
  cases hmulti : testContentTypeMultipart (found.header contentType) with
  | true => rw [if_pos rfl, parse_multipart (by simp [hne]) h (by omega) hmulti]
  | false =>
    rw [if_neg (by simp), parse_inside (by simp [hne]) h (by omega) (by simp) hmulti,
      List.length_append, Nat.add_sub_cancel_left, List.drop_left]

section
variable (req : Request) (ip b : Bytes) (socket : Socket)

theorem afterHead_header (name : Bytes) :
    (afterHead req ip b socket).2.1.header name = req.header name := by
  have hheaders : (afterHead req ip b socket).2.1.headers = req.headers := by
    rw [afterHead]
    split <;> simp [sized]
  rw [Request.header, Request.header, hheaders]

theorem afterHead_bodySize :
    (afterHead req ip b socket).2.1.bodySize = toSizeT (strtol (req.header contentLength)) := by
  rw [afterHead]
  split <;> simp [sized]

end

/-- Without a type that says so a request is not marked. -/
theorem afterHead_isJson {req : Request} (hfresh : req.isJson = false)
    (htype : testContentTypeJson (req.header contentType) = false) (ip b : Bytes)
    (socket : Socket) : (afterHead req ip b socket).2.1.isJson = false := by
  have hmark : ∀ found : Request, found.isJson = false → found.headers = req.headers →
      (markJson found).isJson = false := by
    intro found hjson hheaders
    rw [markJson, Request.header, hheaders, ← Request.header, htype]
    exact hjson
  rw [afterHead]
  split
  · exact hmark _ hfresh rfl
  · rw [finish]
    simp only
    split
    · exact hmark _ hfresh rfl
    · exact hfresh

theorem markJson_with {req : Request} {headers : StringMap}
    (htype : (req.withHeaders headers).header contentType = req.header contentType) :
    markJson (req.withHeaders headers) = (markJson req).withHeaders headers := by
  rw [markJson, markJson, htype]
  split <;> rfl

theorem finish_with {req : Request} {headers : StringMap}
    (htype : (req.withHeaders headers).header contentType = req.header contentType)
    (run : Bool × Bytes × Socket) :
    finish (req.withHeaders headers) run =
      ((finish req run).1, (finish req run).2.1.withHeaders headers, (finish req run).2.2) := by
  obtain ⟨complete, body, left⟩ := run
  cases complete with
  | false => rfl
  | true =>
    have hbody : ({ req with body }.withHeaders headers).header contentType =
        { req with body }.header contentType := htype
    have hjson := markJson_with hbody
    exact congrArg (fun found => (true, found, left)) hjson

/-- The stored headers matter for what two lookups find. -/
theorem afterHead_with {req : Request} {headers : StringMap}
    (hlength : (req.withHeaders headers).header contentLength = req.header contentLength)
    (htype : (req.withHeaders headers).header contentType = req.header contentType)
    (ip b : Bytes) (socket : Socket) :
    afterHead (req.withHeaders headers) ip b socket =
      ((afterHead req ip b socket).1, (afterHead req ip b socket).2.1.withHeaders headers,
        (afterHead req ip b socket).2.2) := by
  have hsized : sized (req.withHeaders headers) ip = (sized req ip).withHeaders headers := by
    rw [sized, sized, hlength]
    rfl
  have htype' : ((sized req ip).withHeaders headers).header contentType =
      (sized req ip).header contentType := htype
  rw [afterHead, afterHead, htype, hsized]
  split
  · rw [markJson_with htype']
  · exact finish_with htype' _

end RequestMaker

namespace RequestHead

/-- The same head, with its header names in another case. -/
structure Recased (head head' : RequestHead) : Prop where
  method : head.method = head'.method
  target : head.target = head'.target
  version : head.version = head'.version
  crlf : head.crlf = head'.crlf
  blankCrlf : head.blankCrlf = head'.blankCrlf
  fields : List.Forall₂ Field.Recased head.fields head'.fields

/-- The same fields have exactly this name in both. -/
def SameSpelling (head head' : RequestHead) (name : Bytes) : Prop :=
  List.Forall₂ (fun f f' => f.name = name ↔ f'.name = name) head.fields head'.fields

instance (head head' : RequestHead) (name : Bytes) : Decidable (head.SameSpelling head' name) :=
  inferInstanceAs (Decidable (List.Forall₂ _ _ _))

/-- What is stored of the fields of a head. -/
def stored (head : RequestHead) : StringMap := storeLines head.lines ∅

/-! ## Two spellings of a list of fields -/

section
variable {fields fields' : List Field}

theorem scannable_recased (h : List.Forall₂ Field.Recased fields fields') :
    (∀ f ∈ fields, Scannable f.line) ↔ ∀ f ∈ fields', Scannable f.line := by
  induction h with
  | nil => rfl
  | cons hf _ ih => rw [List.forall_mem_cons, List.forall_mem_cons, hf.scannable_iff, ih]

theorem length_recased (h : List.Forall₂ Field.Recased fields fields') :
    (Message.fieldText fields).length = (Message.fieldText fields').length := by
  induction h with
  | nil => rfl
  | cons hf _ ih =>
    simp only [Message.fieldText, List.flatMap_cons, List.length_append] at ih ⊢
    rw [hf.length_text, ih]

/-- The first field with a key has the same value in both. -/
theorem find?_recased (h : List.Forall₂ Field.Recased fields fields') {name : Bytes}
    (hname : 58 ∉ name)
    (hsame : List.Forall₂ (fun f f' => f.name = name ↔ f'.name = name) fields fields') :
    ((fields.find? fun f => f.key = name).map fun f => headerValue f.line) =
      (fields'.find? fun f => f.key = name).map fun f => headerValue f.line := by
  induction h with
  | nil => rfl
  | @cons f f' fields fields' hf _ ih =>
    obtain ⟨hspelling, hrest⟩ := List.forall₂_cons.mp hsame
    have hkey := hf.key_eq_iff hname hspelling
    by_cases hfound : f.key = name
    · rw [List.find?_cons_of_pos (by simpa using hfound),
        List.find?_cons_of_pos (by simpa using hkey.mp hfound), Option.map_some, Option.map_some,
        hf.headerValue_eq]
    · rw [List.find?_cons_of_neg (by simpa using hfound),
        List.find?_cons_of_neg (by simpa using mt hkey.mpr hfound), ih hrest]

end

variable {head head' : RequestHead}

theorem Recased.length_text (h : head.Recased head') : head.text.length = head'.text.length := by
  have hfields := length_recased h.fields
  simp only [text, List.length_append, h.method, h.target, h.version, h.crlf, h.blankCrlf, hfields]

/-- Without fields there is only one spelling. -/
theorem Recased.eq_of_no_fields (h : head.Recased head') (hnone : head.fields = []) :
    head = head' := by
  obtain ⟨hmethod, htarget, hversion, hcrlf, hblank, hfields⟩ := h
  rw [hnone] at hfields
  have hnone' := List.forall₂_nil_left_iff.mp hfields
  cases head
  cases head'
  simp_all

theorem Recased.fields_ne (h : head.Recased head') (hsome : head.fields ≠ []) :
    head'.fields ≠ [] := by
  intro hnone
  have hfields := h.fields
  rw [hnone] at hfields
  exact hsome (List.forall₂_nil_right_iff.mp hfields)

/-- A name that is spelled alike has the same value in both. -/
theorem Recased.lookup_eq (h : head.Recased head') {name : Bytes} (hname : 58 ∉ name)
    (hsame : head.SameSpelling head' name) :
    head.stored.lookup name = head'.stored.lookup name := by
  rw [stored, stored, lookup_lines, lookup_lines, find?_recased h.fields hname hsame]

/-- A name that is spelled nowhere has none. -/
theorem lookup_unspelled {name : Bytes} (hname : 58 ∉ name)
    (hnone : ∀ f ∈ head.fields, f.name ≠ name) : head.stored.lookup name = none := by
  rw [stored, lookup_lines, Option.map_eq_none_iff, List.find?_eq_none]
  intro f hf hkey
  rw [decide_eq_true_eq, f.key_eq_iff hname] at hkey
  exact hnone f hf hkey.1

theorem text_ne_nil (head : RequestHead) : head.text ≠ [] := by
  obtain ⟨c, t, hm, -, -⟩ := head.method_word.exists_cons
  simp [text, hm]

/-! ## The head -/

/-- What the parser fills from a head, with the target taken apart as `t`. -/
def filled (head : RequestHead) (t : Bytes × StringMap) : Request :=
  { method := head.method, path := t.1, version := head.version, params := t.2,
    headers := head.stored }

theorem header_filled (head : RequestHead) (t : Bytes × StringMap) (name : Bytes) :
    (head.filled t).header name = (head.stored.lookup name).getD [] := rfl

/-- The parser on a head with fields: it passes over the head and fills the request, unless a
field, or the target, cannot be taken apart. -/
theorem parseHttpHeader_text (hsome : head.fields ≠ []) {rest : Bytes}
    (hsize : (head.text ++ rest).length ≤ kReqBufSize) :
    (parseHttpHeader {} (head.text ++ rest)).1 =
      if ∀ f ∈ head.fields, Scannable f.line then
        (parseTarget head.target ∅).map fun t => (head.text.length, head.filled t)
      else .error .undefined := by
  by_cases hscan : ∀ f ∈ head.fields, Scannable f.line
  · obtain ⟨m, e, r, hrun, -, -⟩ := parseHttpHeader_eq (headText hsome hscan rest) hsize {}
    rw [if_pos hscan, hrun]
    rfl
  · obtain ⟨n, hrun⟩ := head.parseHttpHeaderIn_eq_from (kReqBufSize + 1) {} rest
    obtain ⟨m, hversion⟩ := getNextWord_version hsome rest
    rcases hloop : linesFrom (kReqBufSize + 1) head.fieldsOffset ∅ (head.text ++ rest) with ⟨e, k⟩
    have herror : e = .error .undefined := by
      have hfirst := congrArg Prod.fst hloop
      rw [Message.linesFrom_unscannable (head.drop_fieldsOffset rest) (by simpa using hscan)]
        at hfirst
      exact hfirst.symm
    rw [herror] at hloop
    rw [if_neg hscan, parseHttpHeader_eq_in, hrun, fromVersion, run_bind_ok hversion,
      run_bind_error hloop]

/-! ## `Parse` -/

/-- `Parse` on a head with fields that the first delivery covers. -/
theorem parse_text (hsome : head.fields ≠ []) {stale : Bytes} (hstale : stale.length = kReqBufSize)
    (ip b : Bytes) {rest : List Bytes} (fits : ∀ c ∈ (head.text ++ b) :: rest,
      c.length ≤ kReqBufSize) :
    parse stale ⟨ip, (head.text ++ b) :: rest, fits⟩ {} =
      if ∀ f ∈ head.fields, Scannable f.line then
        (parseTarget head.target ∅).map fun t => afterHead (head.filled t) ip b
          ⟨ip, rest, fun c hc => fits c (List.mem_cons_of_mem _ hc)⟩
      else .error .undefined := by
  have hfit : (head.text ++ b).length ≤ kReqBufSize := fits _ List.mem_cons_self
  have hsize : (head.text ++ (b ++ stale.drop (head.text ++ b).length)).length ≤ kReqBufSize := by
    simp only [List.length_append, List.length_drop] at hfit ⊢
    omega
  have hne : head.text ++ b ≠ [] := by simp [head.text_ne_nil]
  have hrun := parseHttpHeader_text hsome hsize
  rw [← List.append_assoc] at hrun
  by_cases hscan : ∀ f ∈ head.fields, Scannable f.line
  · rw [if_pos hscan] at hrun ⊢
    cases htarget : parseTarget head.target ∅ with
    | error e =>
      rw [htarget] at hrun
      exact parse_error hne hrun
    | ok t =>
      rw [htarget] at hrun
      exact parse_afterHead head.text_ne_nil hrun
  · rw [if_neg hscan] at hrun ⊢
    exact parse_error hne hrun

/-! ## Two spellings of a request -/

/-- Two runs that fail alike, or return values that are related. -/
inductive Ends {α : Type} (R : α → α → Prop) : Except Fault α → Except Fault α → Prop
  | error (e : Fault) : Ends R (.error e) (.error e)
  | ok {a a' : α} : R a a' → Ends R (.ok a) (.ok a')

/-- The case of the header names is not seen. -/
structure CaseBlind (out out' : Bool × Request × Socket) : Prop where
  bodySize : out.2.1.bodySize = out'.2.1.bodySize
  body : out.2.1.body = out'.2.1.body
  json : out.2.1.isJson = out'.2.1.isJson
  multipart : testContentTypeMultipart (out.2.1.header contentType) =
    testContentTypeMultipart (out'.2.1.header contentType)
  header : ∀ name name', SameName name name' → out.2.1.header name = out'.2.1.header name'

/-- Names are compared byte for byte: what hangs on a name is the same in two spellings of a
head when the name is spelled the same in both, and a name that is spelled nowhere has no
value, so that there is no length and no type. -/
structure ReadAlike (head head' : RequestHead) (out out' : Bool × Request × Socket) : Prop where
  header : ∀ name, 58 ∉ name → head.SameSpelling head' name →
    out.2.1.header name = out'.2.1.header name
  unspelled : head.fields ≠ [] → ∀ name, 58 ∉ name → (∀ f ∈ head.fields, f.name ≠ name) →
    out.2.1.header name = []
  no_length : head.fields ≠ [] → (∀ f ∈ head.fields, f.name ≠ contentLength) →
    out.2.1.bodySize = 0
  no_type : head.fields ≠ [] → (∀ f ∈ head.fields, f.name ≠ contentType) →
    testContentTypeMultipart (out.2.1.header contentType) = false ∧ out.2.1.isJson = false
  bodySize : head.SameSpelling head' contentLength → out.2.1.bodySize = out'.2.1.bodySize
  multipart : head.SameSpelling head' contentType →
    testContentTypeMultipart (out.2.1.header contentType) =
      testContentTypeMultipart (out'.2.1.header contentType)
  body : head.SameSpelling head' contentLength → head.SameSpelling head' contentType →
    out.1 = out'.1 ∧ out.2.1.body = out'.2.1.body ∧ out.2.1.isJson = out'.2.1.isJson ∧
      out.2.2 = out'.2.2

theorem word_contentLength : Word contentLength := by decide

theorem plain_contentLength : 58 ∉ contentLength := by decide

theorem plain_contentType : 58 ∉ contentType := by decide

theorem Recased.readAlike (h : head.Recased head') (t : Bytes × StringMap) (ip b : Bytes)
    (socket : Socket) :
    ReadAlike head head' (afterHead (head.filled t) ip b socket)
      (afterHead (head'.filled t) ip b socket) := by
  have hlookup : ∀ name, 58 ∉ name → head.SameSpelling head' name →
      (head'.filled t).header name = (head.filled t).header name := by
    intro name hname hsame
    rw [header_filled, header_filled, h.lookup_eq hname hsame]
  have hfilled : head'.filled t = (head.filled t).withHeaders head'.stored := by
    rw [filled, filled, h.method, h.version]
    rfl
  have hunspelled : ∀ name, 58 ∉ name → (∀ f ∈ head.fields, f.name ≠ name) →
      (head.filled t).header name = [] := by
    intro name hname hnone
    rw [header_filled, lookup_unspelled hname hnone, Option.getD_none]
  refine ⟨?_, ?_, ?_, ?_, ?_, ?_, ?_⟩
  · intro name hname hsame
    rw [afterHead_header, afterHead_header, hlookup name hname hsame]
  · intro _ name hname hnone
    rw [afterHead_header, hunspelled name hname hnone]
  · intro _ hnone
    rw [afterHead_bodySize, hunspelled _ plain_contentLength hnone]
    rfl
  · intro _ hnone
    have htype := hunspelled _ plain_contentType hnone
    rw [afterHead_header, htype]
    exact ⟨rfl, afterHead_isJson rfl (by rw [htype]; rfl) ip b socket⟩
  · intro hlength
    rw [afterHead_bodySize, afterHead_bodySize, hlookup _ plain_contentLength hlength]
  · intro htype
    rw [afterHead_header, afterHead_header, hlookup _ plain_contentType htype]
  · intro hlength htype
    have hlength' := hlookup _ plain_contentLength hlength
    have htype' := hlookup _ plain_contentType htype
    rw [hfilled] at hlength' htype' ⊢
    rw [afterHead_with hlength' htype']
    exact ⟨rfl, rfl, rfl, rfl⟩

theorem ReadAlike.refl (hnone : head.fields = []) (out : Bool × Request × Socket) :
    ReadAlike head head out out where
  header _ _ _ := rfl
  unspelled hsome := absurd hnone hsome
  no_length hsome := absurd hnone hsome
  no_type hsome := absurd hnone hsome
  bodySize _ := rfl
  multipart _ := rfl
  body _ _ := ⟨rfl, rfl, rfl, rfl⟩

/-- Two spellings of a request whose head lies in the first delivery. -/
theorem readAlike_recased (h : head.Recased head') {stale : Bytes}
    (hstale : stale.length = kReqBufSize) (ip b : Bytes) (rest : List Bytes)
    (fits : ∀ c ∈ (head.text ++ b) :: rest, c.length ≤ kReqBufSize)
    (fits' : ∀ c ∈ (head'.text ++ b) :: rest, c.length ≤ kReqBufSize) :
    Ends (ReadAlike head head') (parse stale ⟨ip, (head.text ++ b) :: rest, fits⟩ {})
      (parse stale ⟨ip, (head'.text ++ b) :: rest, fits'⟩ {}) := by
  by_cases hnone : head.fields = []
  · obtain rfl := h.eq_of_no_fields hnone
    cases parse stale ⟨ip, (head.text ++ b) :: rest, fits⟩ {} with
    | error e => exact .error e
    | ok out => exact .ok (.refl hnone out)
  · rw [parse_text hnone hstale, parse_text (h.fields_ne hnone) hstale, ← h.target]
    have hsame := scannable_recased h.fields
    by_cases hscan : ∀ f ∈ head.fields, Scannable f.line
    · rw [if_pos hscan, if_pos (hsame.mp hscan)]
      cases parseTarget head.target ∅ with
      | error e => exact .error e
      | ok t => exact .ok (h.readAlike t ip b _)
    · rw [if_neg hscan, if_neg (mt hsame.mpr hscan)]
      exact .error _

/-- `b: bc`. -/
def fieldLower : Field :=
  { fieldB with name := ascii ['b'], name_word := by decide, name_plain := by decide }

/-- `Content-Length: 3`. -/
def declared : Field :=
  ⟨contentLength, ascii [' ', '3'], true, word_contentLength, plain_contentLength, by decide⟩

theorem recased_small {fields fields' : List Field}
    (h : List.Forall₂ Field.Recased fields fields') : (small fields).Recased (small fields') :=
  ⟨rfl, rfl, rfl, rfl, rfl, h⟩

/-- In another spelling of the one field, the other still has its length. -/
theorem readAlike_declared :
    Ends (ReadAlike (small [fieldB, declared]) (small [fieldLower, declared]))
      (parse Message.noLineEnds
        ⟨[], [(small [fieldB, declared]).text ++ ascii ['h', 'e', 'y']], by decide⟩ {})
      (parse Message.noLineEnds
        ⟨[], [(small [fieldLower, declared]).text ++ ascii ['h', 'e', 'y']], by decide⟩ {}) := by
  have hfields : List.Forall₂ Field.Recased [fieldB, declared] [fieldLower, declared] := by decide
  exact readAlike_recased (recased_small hfields) List.length_replicate [] _ [] _ _

/-! ## What is not alike -/

/-- A readable head is read. -/
theorem parseHttpHeader_fine (hsome : head.fields ≠ [])
    (hscan : ∀ f ∈ head.fields, Scannable f.line) (hfine : targetFate head.target = .fine)
    {rest : Bytes} (hsize : (head.text ++ rest).length ≤ kReqBufSize) :
    ∃ t, (parseHttpHeader {} (head.text ++ rest)).1 = .ok (head.text.length, head.filled t) := by
  have hfate := parseTarget_fate head.target_word.1 (∅ : StringMap)
  rw [hfine] at hfate
  obtain ⟨t, ht⟩ := hfate
  refine ⟨t, ?_⟩
  rw [parseHttpHeader_text hsome hsize, if_pos hscan, ht]
  rfl

/-- `content-length: 3`. -/
def declaredLower : Field :=
  { declared with name := contentLength.map toLower, name_word := by decide,
                  name_plain := by decide }

/-- The request `HEAD /h W` with such a field and the body `hey`, in one delivery. -/
def hey (f : Field) : Bytes := (small [f]).text ++ ascii ['h', 'e', 'y']

theorem parse_hey {f : Field} (hscan : Scannable f.line) (fits) : ∃ t s,
    parse Message.noLineEnds ⟨[], [hey f], fits⟩ {} =
      .ok (afterHead ((small [f]).filled t) [] (ascii ['h', 'e', 'y']) s) := by
  have hfine : targetFate (ascii ['/', 'h']) = .fine := by decide +kernel
  have hfate := parseTarget_fate (small [f]).target_word.1 (∅ : StringMap)
  have hsmall : (small [f]).target = ascii ['/', 'h'] := rfl
  rw [hsmall, hfine] at hfate
  obtain ⟨t, ht⟩ := hfate
  have hsome : (small [f]).fields ≠ [] := List.cons_ne_nil _ _
  have hlines : Message.noLineEnds.length = kReqBufSize := List.length_replicate
  have hrun := parse_text hsome hlines [] (ascii ['h', 'e', 'y']) fits
  rw [if_pos (by simpa [small] using hscan)] at hrun
  refine ⟨t, ⟨[], [], by simp⟩, hrun.trans ?_⟩
  rw [hsmall, ht]
  rfl

/-- A length that is declared in small letters is none. -/
theorem length_lost (fits fits') : ¬ Ends CaseBlind
    (parse Message.noLineEnds ⟨[], [hey declared], fits⟩ {})
    (parse Message.noLineEnds ⟨[], [hey declaredLower], fits'⟩ {}) := by
  obtain ⟨t, s, hrun⟩ := parse_hey (f := declared) (by decide) fits
  obtain ⟨t', s', hrun'⟩ := parse_hey (f := declaredLower) (by decide) fits'
  rw [hrun, hrun']
  intro hends
  cases hends with
  | ok hblind =>
    have hsize := hblind.bodySize
    rw [afterHead_bodySize, afterHead_bodySize, header_filled, header_filled] at hsize
    exact absurd hsize (by decide +kernel)

/-- `Contextual: x`. -/
def contextual : Field :=
  ⟨ascii "Contextual".toList, ascii [' ', 'x'], true, by decide, by decide, by decide⟩

/-- `CONTEXTUAL: x`. -/
def contextualUpper : Field :=
  ⟨ascii "CONTEXTUAL".toList, ascii [' ', 'x'], true, by decide, by decide, by decide⟩

/-- A field that says multipart. -/
def multipart (name : Bytes) (hword : Word name) (hplain : 58 ∉ name) : Field :=
  ⟨name, ascii " multipart".toList, true, hword, hplain, by decide⟩

/-- The stack where the second part of a name, and a value, come behind 16 bytes. -/
def stack : Bytes :=
  List.replicate 16 97 ++ (ascii "nt-Type: multipart\r\n\r\n".toList ++
    List.replicate (kReqBufSize - 38) 97)

theorem length_stack : stack.length = kReqBufSize := by
  simp only [stack, List.length_append, List.length_replicate]
  decide

/-- The head that the parser finds when the first delivery ends inside a name. -/
theorem parse_completed {chunk : Bytes} (hchunk : chunk.length = 16) {f : Field}
    (hscan : Scannable f.line)
    (htext : chunk ++ ascii "nt-Type: multipart\r\n\r\n".toList = (small [f]).text) :
    ∃ t, (parseHttpHeader {} (chunk ++ stack.drop chunk.length)).1 =
      .ok ((small [f]).text.length, (small [f]).filled t) := by
  have hdrop : stack.drop chunk.length = ascii "nt-Type: multipart\r\n\r\n".toList ++
      List.replicate (kReqBufSize - 38) 97 := by
    rw [stack, List.drop_left' (by rw [List.length_replicate, hchunk])]
  have hsize : ((small [f]).text ++ List.replicate (kReqBufSize - 38) 97).length ≤
      kReqBufSize := by
    rw [← htext, List.length_append, List.length_append, hchunk, List.length_replicate]
    decide
  have hfine : targetFate (ascii ['/', 'h']) = .fine := by decide +kernel
  rw [hdrop, ← List.append_assoc, htext]
  exact parseHttpHeader_fine (List.cons_ne_nil _ _) (by simpa [small] using hscan) hfine hsize

/-- The front of a request with the name `Contextual`, up to its fifth letter. -/
def front : Bytes := (small [contextual]).text.take 16

/-- The same front in another spelling. -/
def frontUpper : Bytes := (small [contextualUpper]).text.take 16

/-- What the stack held makes a type of the one name, and nothing of the other. -/
theorem name_completed (rest rest' fits fits') : ¬ Ends (ReadAlike (small [contextual])
    (small [contextualUpper])) (parse stack ⟨[], front :: rest, fits⟩ {})
    (parse stack ⟨[], frontUpper :: rest', fits'⟩ {}) := by
  have hfront : front.length = 16 := by decide
  have hfrontUpper : frontUpper.length = 16 := by decide
  obtain ⟨t, hrun⟩ := parse_completed hfront
    (f := multipart contentType (by decide) (by decide)) (by decide) (by decide)
  obtain ⟨t', hrun'⟩ := parse_completed hfrontUpper
    (f := multipart (ascii "CONTEnt-Type".toList) (by decide) (by decide)) (by decide)
    (by decide)
  have hmulti : testContentTypeMultipart (((small [multipart contentType (by decide)
      (by decide)]).filled t).header contentType) = true := by
    rw [header_filled]
    decide +kernel
  have hmulti' : testContentTypeMultipart (((small [multipart (ascii "CONTEnt-Type".toList)
      (by decide) (by decide)]).filled t').header contentType) = false := by
    rw [header_filled]
    decide +kernel
  rw [RequestMaker.parse_multipart (by decide) hrun (by decide) hmulti,
    RequestMaker.parse_short (by decide) hrun' (by decide) hmulti']
  intro hends
  cases hends

/-- The length is not found in another spelling. And where the head does not lie in the first
delivery, a name is completed by what the stack held before. -/
theorem caseBlind_fails :
    (¬ ∀ (head head' : RequestHead) (stale ip b : Bytes) (rest : List Bytes)
      (fits : ∀ c ∈ (head.text ++ b) :: rest, c.length ≤ kReqBufSize)
      (fits' : ∀ c ∈ (head'.text ++ b) :: rest, c.length ≤ kReqBufSize),
      head.Recased head' → stale.length = kReqBufSize →
      Ends CaseBlind (parse stale ⟨ip, (head.text ++ b) :: rest, fits⟩ {})
        (parse stale ⟨ip, (head'.text ++ b) :: rest, fits'⟩ {})) ∧
    ¬ ∀ (head head' : RequestHead) (stale ip chunk chunk' : Bytes) (rest rest' : List Bytes)
      (fits : ∀ c ∈ chunk :: rest, c.length ≤ kReqBufSize)
      (fits' : ∀ c ∈ chunk' :: rest', c.length ≤ kReqBufSize),
      head.Recased head' → head.SameSpelling head' contentLength →
      head.SameSpelling head' contentType → stale.length = kReqBufSize →
      (chunk :: rest).flatten = head.text → (chunk' :: rest').flatten = head'.text →
      (chunk :: rest).map List.length = (chunk' :: rest').map List.length →
      Ends (ReadAlike head head') (parse stale ⟨ip, chunk :: rest, fits⟩ {})
        (parse stale ⟨ip, chunk' :: rest', fits'⟩ {}) := by
  constructor
  · intro hall
    have hcase := recased_small (show List.Forall₂ _ [declared] [declaredLower] by decide)
    have hends := hall _ _ Message.noLineEnds [] (ascii ['h', 'e', 'y']) [] (by decide)
      (by decide) hcase List.length_replicate
    exact length_lost _ _ hends
  · intro hall
    have hcase := recased_small (show List.Forall₂ _ [contextual] [contextualUpper] by decide)
    have hlength : (small [contextual]).SameSpelling (small [contextualUpper]) contentLength := by
      decide
    have htype : (small [contextual]).SameSpelling (small [contextualUpper]) contentType := by
      decide
    have hends := hall _ _ stack [] front frontUpper [(small [contextual]).text.drop 16]
      [(small [contextualUpper]).text.drop 16] (by decide) (by decide) hcase hlength htype
      length_stack (by decide) (by decide) (by decide)
    exact name_completed _ _ _ _ hends

end RequestHead
end Calabash
