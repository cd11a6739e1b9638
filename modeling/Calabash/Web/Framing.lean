import Calabash.Web.Response
import Calabash.Lib.HttpMessage

/-!
# What a client reads of a response

Whatever calls built a response, a reader of HTTP/1.1 messages finds in the bytes that are
sent the code, the headers and the body that the calls asked for.
-/

namespace Calabash

open HttpMessage (Field Fits digits)

namespace DataReader

theorem Reaches.flatten {missing : ℕ} {reads pieces : List Bytes}
    (h : Reaches missing reads pieces) (hlength : reads.flatten.length = missing) :
    pieces.flatten = reads.flatten := by
  induction h with
  | done reads => exact (List.length_eq_zero_iff.mp hlength).symm
  | @more missing buf reads pieces _ ih =>
    rw [List.flatten_cons, List.length_append] at hlength
    rw [List.flatten_cons, List.flatten_cons, ih (by omega)]

theorem Reaches.le_length {missing : ℕ} {reads pieces : List Bytes}
    (h : Reaches missing reads pieces) : missing ≤ pieces.flatten.length := by
  induction h with
  | done reads => exact Nat.zero_le _
  | more _ ih =>
    rw [List.flatten_cons, List.length_append]
    omega

theorem Reaches.append {missing : ℕ} {reads pieces : List Bytes}
    (h : Reaches missing reads pieces) : ∃ rest, reads = pieces ++ rest := by
  induction h with
  | done reads => exact ⟨reads, rfl⟩
  | more _ ih =>
    obtain ⟨rest, rfl⟩ := ih
    exact ⟨rest, rfl⟩

/-- There are enough pieces exactly when there are enough bytes. -/
theorem exists_reaches_iff {missing : ℕ} {reads : List Bytes} :
    (∃ pieces, Reaches missing reads pieces) ↔ missing ≤ reads.flatten.length := by
  constructor
  · intro ⟨pieces, h⟩
    obtain ⟨rest, rfl⟩ := h.append
    have hle := h.le_length
    rw [List.flatten_append, List.length_append]
    omega
  · intro h
    induction reads generalizing missing with
    | nil =>
      rw [Nat.le_zero.mp h]
      exact ⟨[], .done []⟩
    | cons buf reads ih =>
      cases missing with
      | zero => exact ⟨[], .done _⟩
      | succ missing =>
        rw [List.flatten_cons, List.length_append] at h
        obtain ⟨pieces, hpieces⟩ := @ih (missing + 1 - buf.length) (by omega)
        exact ⟨buf :: pieces, .more hpieces⟩

theorem Reaches.unique {missing : ℕ} {reads pieces pieces' : List Bytes}
    (h : Reaches missing reads pieces) (h' : Reaches missing reads pieces') :
    pieces = pieces' := by
  induction h generalizing pieces' with
  | done reads =>
    cases h'
    rfl
  | more _ ih =>
    cases h' with
    | more h' => rw [ih h']

end DataReader

namespace Response

/-! ## Headers that are set one after the other -/

/-- The names, in the order of their first setting. -/
def setNames (sets : List (Bytes × Bytes)) : List Bytes := (sets.map Prod.fst).eraseDups

/-- The value that a name was last set to. -/
def setValue (sets : List (Bytes × Bytes)) (k : Bytes) : Bytes :=
  (sets.reverse.lookup k).getD []

theorem eraseDups_concat (xs : List Bytes) (k : Bytes) :
    (xs ++ [k]).eraseDups = if k ∈ xs.eraseDups then xs.eraseDups else xs.eraseDups ++ [k] := by
  rw [List.eraseDups_append, List.removeAll]
  simp only [List.mem_eraseDups]
  split
  · next hk => simp [hk]
  · next hk => simp [hk, List.eraseDups_cons]

theorem nodup_eraseDups (xs : List Bytes) : xs.eraseDups.Nodup := by
  induction xs using List.reverseRecOn with
  | nil => exact List.nodup_nil
  | append_singleton xs k ih =>
    rw [eraseDups_concat]
    split
    · exact ih
    · next hk =>
      rw [List.nodup_append]
      refine ⟨ih, List.nodup_singleton k, ?_⟩
      intro a ha b hb heq
      rw [heq, List.mem_singleton.mp hb] at ha
      exact hk ha

theorem setNames_concat (sets : List (Bytes × Bytes)) (k v : Bytes) :
    setNames (sets ++ [(k, v)]) =
      if k ∈ setNames sets then setNames sets else setNames sets ++ [k] := by
  rw [setNames, List.map_append]
  exact eraseDups_concat _ _

theorem setValue_concat (sets : List (Bytes × Bytes)) (k v : Bytes) :
    setValue (sets ++ [(k, v)]) = Function.update (setValue sets) k v := by
  funext n
  simp only [setValue, List.reverse_append, List.reverse_cons, List.reverse_nil, List.nil_append,
    List.singleton_append, List.lookup_cons]
  by_cases hn : n = k
  · subst hn
    simp
  · rw [Function.update_of_ne hn, beq_eq_false_iff_ne.mpr hn]
    rfl

/-- `SetHeader` on entries with different names. -/
theorem setHeaderIn_map {ks : List Bytes} (hks : ks.Nodup) (k v : Bytes) (f : Bytes → Bytes) :
    setHeaderIn k v (ks.map fun n => (n, f n)) =
      (if k ∈ ks then ks else ks ++ [k]).map fun n => (n, Function.update f k v n) := by
  induction ks with
  | nil => simp [setHeaderIn]
  | cons n ks ih =>
    obtain ⟨hn, hks⟩ := List.nodup_cons.mp hks
    rw [List.map_cons, setHeaderIn]
    by_cases hk : n = k
    · subst hk
      have hrest : ∀ m ∈ ks, (m, f m) = (m, Function.update f n v m) := by
        intro m hm
        rw [Function.update_of_ne (by rintro rfl; exact hn hm)]
      simp [List.map_congr_left hrest]
    · rw [if_neg hk, ih hks]
      by_cases hmem : k ∈ ks
      · simp [hmem, hk]
      · simp [hmem, hk, Ne.symm hk]

end Response

/-- A file that was opened and does not change: its end is where its contents end, and these
are what `readsome` gives. -/
structure SteadyFile extends File where
  tellg_eq : tellg = contents.length
  reads_eq : reads.flatten = contents
  small : contents.length < 2 ^ 63

/-- A call that changes a response. A string is shorter than 2^63. -/
inductive Setter
  | setCode (code : ℤ)
  | setHeader (k v : Bytes) (fits : Fits (k, v)) (other : k ≠ ascii "Content-Length".toList)
  | setType (type : Bytes)
  | bodyData (dat : Bytes) (small : dat.length < 2 ^ 63)
  | bodyDataFile (file : SteadyFile)
  | bodyDataStream (file : SteadyFile)

namespace Setter

/-- The call. `BodyData` with a path puts what the file holds into the body. -/
def apply (res : Response) : Setter → Response
  | setCode code => res.setCode code
  | setHeader k v _ _ => res.setHeader k v
  | setType type => res.setType type
  | bodyData dat _ => res.setBodyData dat
  | bodyDataFile file => res.setBodyData file.contents
  | bodyDataStream file => res.bodyDataStream file.toFile

/-- A response that was made by the calls. -/
def build (calls : List Setter) : Response := calls.foldl apply {}

/-! ## What the calls ask for -/

def code? : Setter → Option ℤ
  | setCode code => some code
  | _ => none

def header? : Setter → Option (Bytes × Bytes)
  | setHeader k v _ _ => some (k, v)
  | setType type =>
    some (ascii "Content-Type".toList, (Response.contentType type).getD [])
  | _ => none

def body? : Setter → Option Bytes
  | bodyData dat _ => some dat
  | bodyDataFile file => some file.contents
  | _ => none

def stream? : Setter → Option Bytes
  | bodyDataStream file => some file.contents
  | _ => none

/-- What the last of the calls that say something says. -/
def last {α : Type} (what : Setter → Option α) (calls : List Setter) (default : α) : α :=
  (calls.filterMap what).getLast?.getD default

/-- The names of the headers, in the order of their first setting. -/
def names (calls : List Setter) : List Bytes :=
  ((calls.filterMap header?).map Prod.fst).eraseDups

/-- The value that a name was last set to. -/
def value (calls : List Setter) (k : Bytes) : Bytes :=
  ((calls.filterMap header?).reverse.lookup k).getD []

def body (calls : List Setter) : Bytes := last body? calls []

def content (calls : List Setter) : Bytes := last stream? calls []

/-- What the reader finds. -/
structure Recovers (calls : List Setter) (m : HttpMessage.Message) : Prop where
  version : m.version = ascii "HTTP/1.1".toList
  code : m.code = last code? calls 200
  /-- No name comes twice. -/
  names_nodup : (m.fields.map Field.name).Nodup
  fields : m.fields = (names calls).map (fun k => Field.of k (value calls k)) ++
    [Field.of (ascii "Content-Length".toList) (digits m.behind.length)]
  length : ∃ f, m.fields.filter (·.name = ascii "Content-Length".toList) = [f] ∧
    HttpMessage.parseNat f.value = some m.behind.length
  behind : m.behind = body calls ++ content calls
  /-- Names are compared without regard to case by the reader, but not by `SetHeader`. -/
  frame : (∀ k ∈ names calls, ¬ SameName k (ascii "Content-Length".toList)) →
    m.frame = some (body calls ++ content calls, [])

/-! ## What the response holds -/

theorem last_concat {α : Type} (what : Setter → Option α) (calls : List Setter) (call : Setter)
    (default : α) :
    last what (calls ++ [call]) default = (what call).getD (last what calls default) := by
  rw [last, List.filterMap_append]
  cases hcall : what call with
  | none => simp [hcall, last]
  | some a => simp [hcall]

theorem names_concat {call : Setter} {k v : Bytes} (h : call.header? = some (k, v))
    (calls : List Setter) :
    names (calls ++ [call]) = if k ∈ names calls then names calls else names calls ++ [k] := by
  have hconcat := Response.setNames_concat (calls.filterMap header?) k v
  rw [names, List.filterMap_append, List.filterMap_cons, h]
  exact hconcat

theorem value_concat {call : Setter} {k v : Bytes} (h : call.header? = some (k, v))
    (calls : List Setter) : value (calls ++ [call]) = Function.update (value calls) k v := by
  have hconcat := Response.setValue_concat (calls.filterMap header?) k v
  funext n
  rw [value, List.filterMap_append, List.filterMap_cons, h]
  exact congrFun hconcat n

theorem headers_concat {call : Setter} (h : call.header? = none) (calls : List Setter) :
    names (calls ++ [call]) = names calls ∧ value (calls ++ [call]) = value calls := by
  constructor
  · simp [names, h]
  · funext n
    simp [value, h]

/-- The file stream of a response gives this content. -/
structure Streams (reader : DataReader) (content : Bytes) : Prop where
  size : reader.streamSize = content.length
  reads : reader.reads.flatten = content
  small : content.length < 2 ^ 63

/-- What a response holds that was made by the calls. -/
structure Built (calls : List Setter) (res : Response) : Prop where
  code : res.code = last code? calls 200
  headers : res.headers = (names calls).map fun k => (k, value calls k)
  bodyData : res.bodyData = body calls
  small : res.bodyData.length < 2 ^ 63
  stream : Streams res.dataReader (content calls)

theorem built_nil : Built [] {} where
  code := rfl
  headers := rfl
  bodyData := rfl
  small := by decide
  stream := ⟨rfl, rfl, by decide⟩

theorem streams_setFileStream (reader : DataReader) (file : SteadyFile) :
    Streams (reader.setFileStream file.toFile) file.contents where
  size := by
    have hsmall := file.small
    rw [DataReader.setFileStream, file.tellg_eq, toSizeT_natCast (by omega)]
  reads := file.reads_eq
  small := file.small

theorem built_concat {calls : List Setter} {res : Response} (h : Built calls res)
    (call : Setter) : Built (calls ++ [call]) (apply res call) := by
  have hcode : call.code? = none → res.code = last code? (calls ++ [call]) 200 := by
    intro hcall
    rw [last_concat, hcall, h.code, Option.getD_none]
  have hset : ∀ k v, call.header? = some (k, v) → (res.setHeader k v).headers =
      (names (calls ++ [call])).map fun n => (n, value (calls ++ [call]) n) := by
    intro k v hcall
    rw [names_concat hcall, value_concat hcall, Response.setHeader, h.headers]
    exact Response.setHeaderIn_map (Response.nodup_eraseDups _) k v _
  have hheaders : call.header? = none → res.headers =
      (names (calls ++ [call])).map fun n => (n, value (calls ++ [call]) n) := by
    intro hcall
    obtain ⟨hnames, hvalue⟩ := headers_concat hcall calls
    rw [hnames, hvalue, h.headers]
  have hbody : call.body? = none → res.bodyData = body (calls ++ [call]) := by
    intro hcall
    rw [body, last_concat, hcall, h.bodyData, Option.getD_none, body]
  have hstream : call.stream? = none → Streams res.dataReader (content (calls ++ [call])) := by
    intro hcall
    rw [content, last_concat, hcall, Option.getD_none]
    exact h.stream
  cases call with
  | setCode code =>
    have hlast := last_concat code? calls (setCode code) 200
    exact ⟨hlast.symm, hheaders rfl, hbody rfl, h.small, hstream rfl⟩
  | setHeader k v fits other =>
    exact ⟨hcode rfl, hset k v rfl, hbody rfl, h.small, hstream rfl⟩
  | setType type =>
    exact ⟨hcode rfl, hset _ _ rfl, hbody rfl, h.small, hstream rfl⟩
  | bodyData dat small =>
    have hdat := last_concat body? calls (bodyData dat small) []
    exact ⟨hcode rfl, hheaders rfl, hdat.symm, small, hstream rfl⟩
  | bodyDataFile file =>
    have hdat := last_concat body? calls (bodyDataFile file) []
    exact ⟨hcode rfl, hheaders rfl, hdat.symm, file.small, hstream rfl⟩
  | bodyDataStream file =>
    refine ⟨hcode rfl, hheaders rfl, hbody rfl, h.small, ?_⟩
    rw [content, last_concat]
    exact streams_setFileStream _ file

theorem built_build (calls : List Setter) : Built calls (build calls) := by
  induction calls using List.reverseRecOn with
  | nil => exact built_nil
  | append_singleton calls call ih =>
    rw [build, List.foldl_concat]
    exact built_concat ih call

/-! ## What is sent -/

theorem lt_of_mem_ascii {text : List Char}
    (h : (text.all fun c => Nat.blt 31 c.toNat && Nat.blt c.toNat 128) = true) {b : UInt8}
    (hb : b ∈ ascii text) : 31 < b.toNat := by
  obtain ⟨c, hc, rfl⟩ := List.mem_map.mp hb
  have hchar := List.all_eq_true.mp h c hc
  rw [Bool.and_eq_true, Nat.blt_eq, Nat.blt_eq] at hchar
  have hsmall : c.toNat < 2 ^ 8 := Nat.lt_trans hchar.2 (by decide)
  rw [UInt8.toNat_ofNat', Nat.mod_eq_of_lt hsmall]
  exact hchar.1

/-- Text without control characters has no line end. -/
theorem not_mem_ascii {text : List Char}
    (h : (text.all fun c => Nat.blt 31 c.toNat && Nat.blt c.toNat 128) = true) :
    13 ∉ ascii text ∧ 10 ∉ ascii text :=
  ⟨fun hcr => absurd (lt_of_mem_ascii h hcr) (by decide),
    fun hlf => absurd (lt_of_mem_ascii h hlf) (by decide)⟩

theorem not_mem_codeInfo (code : ℤ) :
    13 ∉ (Response.codeInfo code).getD (ascii " ".toList) ∧
      10 ∉ (Response.codeInfo code).getD (ascii " ".toList) := by
  have htable : ∀ entry ∈ kHttpCodeWithInfo, (entry.2.toList.all fun c =>
      Nat.blt 31 c.toNat && Nat.blt c.toNat 128) = true := by decide +kernel
  rw [Response.codeInfo]
  cases hfind : kHttpCodeWithInfo.find? (·.1 = code) with
  | none => decide
  | some entry => exact not_mem_ascii (htable entry (List.mem_of_find?_eq_some hfind))

theorem fits_contentType (type : Bytes) :
    Fits (ascii "Content-Type".toList, (Response.contentType type).getD []) := by
  have htable : ∀ entry ∈ kHttpExtensionWithContentType, (entry.2.toList.all fun c =>
      Nat.blt 31 c.toNat && Nat.blt c.toNat 128) = true := by decide +kernel
  have hname : 58 ∉ ascii "Content-Type".toList ∧
      13 ∉ ascii "Content-Type".toList ∧ 10 ∉ ascii "Content-Type".toList := by decide
  refine ⟨hname.1, hname.2, ?_⟩
  rw [Response.contentType]
  cases hfind : kHttpExtensionWithContentType.find? (ascii ·.1.toList = type) with
  | none => exact ⟨List.not_mem_nil, List.not_mem_nil⟩
  | some entry => exact not_mem_ascii (htable entry (List.mem_of_find?_eq_some hfind))

/-- Every header that is set fits a line and is not `Content-Length`. -/
theorem fits_header {call : Setter} {k v : Bytes} (h : call.header? = some (k, v)) :
    Fits (k, v) ∧ k ≠ ascii "Content-Length".toList := by
  cases call with
  | setHeader k v fits other =>
    cases h
    exact ⟨fits, other⟩
  | setType type =>
    cases h
    exact ⟨fits_contentType type, by decide⟩
  | _ => cases h

theorem fits_names {calls : List Setter} {k : Bytes} (h : k ∈ names calls) :
    Fits (k, value calls k) ∧ k ≠ ascii "Content-Length".toList := by
  rw [names, List.mem_eraseDups, List.mem_map] at h
  obtain ⟨⟨k', v⟩, hmem, hk⟩ := h
  have hsome : ((calls.filterMap header?).reverse.lookup k).isSome := by
    rw [List.lookup_isSome_iff]
    exact ⟨(k', v), List.mem_reverse.mpr hmem, beq_iff_eq.mpr hk.symm⟩
  obtain ⟨v', hv'⟩ := Option.isSome_iff_exists.mp hsome
  obtain ⟨l₁, l₂, hsplit, -⟩ := List.lookup_eq_some_iff.mp hv'
  have hmem' : (k, v') ∈ calls.filterMap header? := by
    rw [← List.mem_reverse, hsplit]
    simp
  obtain ⟨call, -, hcall⟩ := List.mem_filterMap.mp hmem'
  rw [value, hv']
  exact fits_header hcall

theorem decimal_eq (n : ℤ) : Response.decimal n = HttpMessage.decimal n := by
  rw [Response.decimal, HttpMessage.decimal, ascii, List.map_append]
  split <;> rfl

/-- The head and what is sent behind it, as one message. -/
theorem makeHttpHead_render (res : Response) (size : ℕ) (behind : Bytes) :
    res.makeHttpHead size ++ behind =
      HttpMessage.render (ascii "HTTP/1.1".toList) res.code
        ((Response.codeInfo res.code).getD (ascii " ".toList))
        (res.headers ++ [(ascii "Content-Length".toList, digits size)]) behind := by
  have hversion : ascii "HTTP/1.1 ".toList = ascii "HTTP/1.1".toList ++ [32] := by decide
  have hspace : ascii " ".toList = [32] := by decide
  have hcolon : ascii ": ".toList = [58, 32] := by decide
  have hlength : ascii "Content-Length: ".toList =
      ascii "Content-Length".toList ++ [58, 32] := by decide
  have hsize : Response.decimal size = digits size := by
    rw [decimal_eq, HttpMessage.decimal, if_neg (by omega)]
    rfl
  have hlines : res.headers.flatMap (fun th => th.1 ++ ascii ": ".toList ++ th.2 ++ [13, 10]) =
      res.headers.flatMap fun f => HttpMessage.fieldLine f.1 f.2 := by
    simp only [hcolon, HttpMessage.fieldLine, List.append_assoc, List.cons_append,
      List.nil_append]
  rw [Response.makeHttpHead, HttpMessage.render, hlines, hversion, hlength, hsize, decimal_eq,
    hspace, List.flatMap_append]
  simp [HttpMessage.fieldLine]

/-- The bytes of the response: the head, the body and the file. -/
theorem sent_eq {calls : List Setter} {res : Response} (h : Built calls res) :
    res.getDataReader.beginData ++ content calls =
      HttpMessage.render (ascii "HTTP/1.1".toList) (last code? calls 200)
        ((Response.codeInfo res.code).getD (ascii " ".toList))
        (((names calls).map fun k => (k, value calls k)) ++
          [(ascii "Content-Length".toList, digits (body calls ++ content calls).length)])
        (body calls ++ content calls) := by
  have hsmall := h.small
  have hstream := h.stream.small
  have hsize : (res.bodyData.length + res.dataReader.streamSize) % 2 ^ 64 =
      (body calls ++ content calls).length := by
    rw [h.stream.size, List.length_append, ← h.bodyData, Nat.mod_eq_of_lt (by omega)]
  rw [Response.getDataReader, hsize, List.append_assoc, makeHttpHead_render, h.code, h.headers,
    h.bodyData]

/-- The `Content-Length` line fits, whatever the number. -/
theorem fits_contentLength (n : ℕ) : Fits (ascii "Content-Length".toList, digits n) := by
  have hname : 58 ∉ ascii "Content-Length".toList ∧
      13 ∉ ascii "Content-Length".toList ∧ 10 ∉ ascii "Content-Length".toList := by decide
  exact ⟨hname.1, hname.2, HttpMessage.not_mem_digits (by decide) n,
    HttpMessage.not_mem_digits (by decide) n⟩

/-- Of the fields of the calls and one more, a test of the name that the names of the calls do
not pass leaves the last. -/
theorem filter_fields {calls : List Setter} {test : Bytes → Prop} [DecidablePred test]
    (h : ∀ k ∈ names calls, ¬ test k) {last : Bytes × Bytes} (hlast : test last.1) :
    ((((names calls).map fun k => (k, value calls k)) ++ [last]).map fun f =>
      Field.of f.1 f.2).filter (fun f => test f.name) = [Field.of last.1 last.2] := by
  rw [List.map_append, List.map_map, List.filter_append]
  have hnone : ((names calls).map ((fun f : Bytes × Bytes => Field.of f.1 f.2) ∘
      fun k => (k, value calls k))).filter (fun f => test f.name) = [] := by
    rw [List.filter_eq_nil_iff]
    intro f hf
    obtain ⟨k, hk, rfl⟩ := List.mem_map.mp hf
    rw [decide_eq_true_iff]
    exact h k hk
  rw [hnone]
  simp [Field.of, hlast]

/-- A message with the headers of the calls and the length of the body is what they ask for. -/
theorem recovers (calls : List Setter) (reason : Bytes) :
    Recovers calls
      ⟨ascii "HTTP/1.1".toList, last code? calls 200, reason,
        (((names calls).map fun k => (k, value calls k)) ++
          [(ascii "Content-Length".toList, digits (body calls ++ content calls).length)]).map
            fun f => Field.of f.1 f.2,
        body calls ++ content calls⟩ where
  version := rfl
  code := rfl
  names_nodup := by
    have hnames : (names calls ++ [ascii "Content-Length".toList]).Nodup := by
      rw [List.nodup_append]
      refine ⟨Response.nodup_eraseDups _, List.nodup_singleton _, ?_⟩
      intro k hk k' hk' heq
      rw [List.mem_singleton.mp hk'] at heq
      exact (fits_names hk).2 heq
    simpa [Function.comp_def, Field.of] using hnames
  fields := by simp [Function.comp_def]
  length := by
    refine ⟨_, filter_fields (fun k hk => (fits_names hk).2) rfl, ?_⟩
    rw [Field.value_of, HttpMessage.trim_digits, HttpMessage.parseNat_digits]
  behind := rfl
  frame := by
    intro hnames
    exact HttpMessage.frame_of_lengths (filter_fields hnames rfl)

theorem fits_fields (calls : List Setter) :
    ∀ f ∈ ((names calls).map fun k => (k, value calls k)) ++
      [(ascii "Content-Length".toList, digits (body calls ++ content calls).length)], Fits f := by
  intro f hf
  rcases List.mem_append.mp hf with hf | hf
  · obtain ⟨k, hk, rfl⟩ := List.mem_map.mp hf
    exact (fits_names hk).1
  · rw [List.mem_singleton.mp hf]
    exact fits_contentLength _

theorem parse_built {calls : List Setter} {res : Response} (h : Built calls res) :
    ∃ m, HttpMessage.parse (res.getDataReader.beginData ++ content calls) = some m ∧
      Recovers calls m := by
  rw [sent_eq h, HttpMessage.parse_render _ _ (by decide) (not_mem_codeInfo _).1
    (fits_fields calls)]
  exact ⟨_, rfl, recovers calls _⟩

/-- `BufferRead` returns when the answers to `::send` cover the head with the body and what is
read of the file, and what it has sent is read as the calls ask. -/
theorem recovers_sent (calls : List Setter) :
    ∃ m pieces, Recovers calls m ∧ pieces.flatten = content calls ∧
      ∀ answers : List (Option ℕ),
        ((∃ wire, (build calls).getDataReader.bufferRead ⟨answers, []⟩ = some wire) ↔
          DataReader.Covers ((build calls).getDataReader.beginData :: pieces) answers) ∧
        ∀ wire, (build calls).getDataReader.bufferRead ⟨answers, []⟩ = some wire →
          HttpMessage.parse wire.sent = some m := by
  have hbuilt := built_build calls
  have hlength : (build calls).getDataReader.reads.flatten.length =
      (build calls).getDataReader.streamSize := by
    change (build calls).dataReader.reads.flatten.length = (build calls).dataReader.streamSize
    rw [hbuilt.stream.reads, hbuilt.stream.size]
  obtain ⟨m, hparse, hm⟩ := parse_built hbuilt
  obtain ⟨pieces, hpieces⟩ := DataReader.exists_reaches_iff.mpr hlength.ge
  have hflatten : pieces.flatten = content calls :=
    (hpieces.flatten hlength).trans hbuilt.stream.reads
  refine ⟨m, pieces, hm, hflatten, fun answers => ⟨?_, ?_⟩⟩
  · rw [DataReader.bufferRead_isSome]
    constructor
    · rintro ⟨pieces', hpieces', hcovers⟩
      rwa [hpieces.unique hpieces']
    · exact fun hcovers => ⟨pieces, hpieces, hcovers⟩
  · intro wire hwire
    obtain ⟨pieces', hpieces', hsent⟩ := DataReader.bufferRead_sent hwire
    rw [hsent, ← hpieces.unique hpieces', hflatten]
    exact hparse

example :
    (build [.setHeader (ascii ['A']) (ascii ['1']) ⟨by decide, by decide, by decide⟩ (by decide),
      .setCode 404, .setType (ascii ".css".toList),
      .setHeader (ascii ['A']) (ascii ['2']) ⟨by decide, by decide, by decide⟩ (by decide),
      .bodyData (ascii ['x']) (by decide)]).getDataReader.beginData =
      ascii ("HTTP/1.1 404 Not Found\r\nA: 2\r\nContent-Type: text/css; charset=utf-8\r\n" ++
        "Content-Length: 1\r\n\r\nx").toList := by
  decide +kernel

end Setter
end Calabash
