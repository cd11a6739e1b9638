import Calabash.Web.HeadBounds
import Calabash.Web.Message

/-!
# Heads of every shape

A head may have no field at all, and behind the colon of a field there may be no blank, no
value, or blanks at the end. The parser is made for lines `name: value`: it skips the blank line
together with the blanks in front of the first field, takes the first word of a line for the
name and its colon, and keeps the blanks behind a value.

## Main results

* `RequestHead.parsed_iff` — the heads that come out as they went in.
-/

namespace Calabash

open RequestMaker Reads

namespace Field

/-- A blank stands right behind the colon. -/
def Spaced (f : Field) : Prop := ∃ c ∈ f.rest.head?, isBlank c = true

/-- No blanks stand behind the value. -/
def Tight (f : Field) : Prop := f.rest.dropWhile isBlank = f.value

instance (f : Field) : Decidable f.Tight := inferInstanceAs (Decidable (_ = _))

theorem Spaced.exists_cons {f : Field} (h : f.Spaced) :
    ∃ c t, f.rest = c :: t ∧ isBlank c = true := by
  obtain ⟨c, hc, hblank⟩ := h
  obtain ⟨t, ht⟩ := List.head?_eq_some_iff.mp hc
  exact ⟨c, t, ht, hblank⟩

/-- A field with a blank behind its colon is stored under its name, with what follows the
blanks. -/
theorem Spaced.stored {f : Field} (h : f.Spaced) :
    f.key = f.name ∧ headerValue f.line = f.rest.dropWhile isBlank := by
  obtain ⟨c, t, hrest, hc⟩ := h.exists_cons
  constructor
  · rw [key, headerWord_line, hrest]
    simp [hc]
  · rw [headerValue_line, hrest]
    simp [hc]

theorem value_ne_iff (f : Field) : f.value ≠ [] ↔ f.rest.dropWhile isBlank ≠ [] := by
  rw [value, ne_eq, List.rdropWhile_eq_nil_iff]
  constructor
  · intro h hnil
    rw [hnil] at h
    exact h nofun
  · intro hne hall
    have hhead := List.head_dropWhile_not isBlank hne
    rw [hall _ (List.head_mem hne)] at hhead
    cases hhead

/-- A field without one that can be taken apart is stored under a name with a colon in it. -/
theorem colon_mem_key {f : Field} (hs : Scannable f.line) (h : ¬ f.Spaced) : 58 ∈ f.key := by
  have hne : (f.rest.takeWhile fun c => !isBlank c) ≠ [] := by
    intro hnil
    cases hrest : f.rest with
    | nil =>
      rw [Scannable, headerValue_line, hrest] at hs
      exact hs rfl
    | cons c t =>
      cases hc : isBlank c with
      | true => exact h ⟨c, by rw [hrest]; rfl, hc⟩
      | false =>
        rw [hrest] at hnil
        simp [hc] at hnil
  rw [key, headerWord_line, List.dropLast_append_of_ne_nil (by simp),
    List.dropLast_cons_of_ne_nil hne]
  simp

end Field

/-- The head of a request, with any number of fields. -/
structure RequestHead where
  method : Bytes
  target : Bytes
  version : Bytes
  crlf : Bool
  fields : List Field
  blankCrlf : Bool
  method_word : Word method
  target_word : Word target
  version_word : Word version

namespace RequestHead

def text (head : RequestHead) : Bytes :=
  head.method ++ ([32] ++ (head.target ++ ([32] ++ (head.version ++ (lineEnd head.crlf ++
    (Message.fieldText head.fields ++ lineEnd head.blankCrlf))))))

/-- The value of the first field of a name. -/
def firstValue (head : RequestHead) (name : Bytes) : Option Bytes :=
  (head.fields.find? fun f => f.name = name).map Field.value

/-- The parser looked at nothing behind the head, has stopped right behind it, and has stored
the value of the first field of each name. -/
structure Parsed (head : RequestHead) (run : Except Fault (ℕ × Request) × ℕ) : Prop where
  inside : run.2 ≤ head.text.length
  stored : ∃ req, run.1 = .ok (head.text.length, req) ∧
    ∀ name, req.headers.lookup name = head.firstValue name

/-- There are fields, the target is taken apart, every field has a blank behind its colon and a
value, and the first field of a name has no blanks behind its value. -/
structure Ordinary (head : RequestHead) : Prop where
  fields_ne : head.fields ≠ []
  target_fine : targetFate head.target = .fine
  spaced : ∀ f ∈ head.fields, f.Spaced ∧ f.value ≠ []
  tight : ∀ name, ∀ f ∈ head.fields.find? fun g => g.name = name, f.Tight

/-! ## The words in front of the fields -/

theorem local_parseHttpHeaderIn (fuel : ℕ) (req : Request) : Local (parseHttpHeaderIn fuel req) :=
  (local_getNextWord _).bind fun _ => (local_getNextWord _).bind fun _ =>
    (local_getNextWord _).bind fun _ =>
      ((local_getNextLine _).bind fun _ => local_headerLoop _ _ _ _).bind fun _ =>
        (local_lift _).bind fun _ => local_pure _

/-- Where the version starts. -/
def versionOffset (head : RequestHead) : ℕ := head.method.length + 1 + head.target.length + 1

/-- The parser from the version on. -/
def fromVersion (head : RequestHead) (fuel : ℕ) (req : Request) :
    Reads UInt8 Fault (ℕ × Request) := do
  let c ← getNextWord head.versionOffset
  let d ← linesFrom fuel c.2 req.headers
  let t ← lift (parseTarget head.target req.params)
  return (d.1, { req with method := head.method, path := t.1, version := c.1,
                          headers := d.2, params := t.2 })

theorem drop_versionOffset (head : RequestHead) (rest : Bytes) :
    (head.text ++ rest).drop head.versionOffset = head.version ++ (lineEnd head.crlf ++
      (Message.fieldText head.fields ++ (lineEnd head.blankCrlf ++ rest))) := by
  have hat : (head.text ++ rest).drop 0 = head.method ++ ([32] ++ (head.target ++ ([32] ++
      (head.version ++ (lineEnd head.crlf ++
        (Message.fieldText head.fields ++ (lineEnd head.blankCrlf ++ rest))))))) := by
    simp [text]
  have hdrop := drop_add_of_drop_eq (drop_add_of_drop_eq (drop_add_of_drop_eq
    (drop_add_of_drop_eq hat)))
  rwa [Nat.zero_add] at hdrop

theorem parseHttpHeaderIn_eq_from (head : RequestHead) (fuel : ℕ) (req : Request)
    (rest : Bytes) : ∃ n, parseHttpHeaderIn fuel req (head.text ++ rest) =
      ((head.fromVersion fuel req (head.text ++ rest)).1,
        max n (head.fromVersion fuel req (head.text ++ rest)).2) := by
  have hspace : Gap [32] := by decide
  obtain ⟨c₂, t₂, ht, hc₂, -⟩ := head.target_word.exists_cons
  obtain ⟨c₃, t₃, hv, hc₃, -⟩ := head.version_word.exists_cons
  have hat₁ : (head.text ++ rest).drop 0 = head.method ++ ([32] ++ (c₂ :: (t₂ ++ ([32] ++
      (head.version ++ (lineEnd head.crlf ++
        (Message.fieldText head.fields ++ (lineEnd head.blankCrlf ++ rest)))))))) := by
    simp [text, ht]
  have hat₂ : (head.text ++ rest).drop (0 + head.method.length + [(32 : UInt8)].length) =
      head.target ++ ([32] ++ (c₃ :: (t₃ ++ (lineEnd head.crlf ++
        (Message.fieldText head.fields ++ (lineEnd head.blankCrlf ++ rest)))))) := by
    rw [drop_add_of_drop_eq (drop_add_of_drop_eq hat₁), ht, hv]
    rfl
  have hfirst := getNextWord_eq hat₁ head.method_word hspace hc₂
  have hsecond := getNextWord_eq hat₂ head.target_word hspace hc₃
  have hoffset : 0 + head.method.length + [(32 : UInt8)].length + head.target.length +
      [(32 : UInt8)].length = head.versionOffset := by
    rw [versionOffset, Nat.zero_add]
    rfl
  rw [hoffset] at hsecond
  refine ⟨max (0 + head.method.length + [(32 : UInt8)].length + 1) (head.versionOffset + 1), ?_⟩
  rw [parseHttpHeaderIn, run_bind_ok hfirst, run_bind_ok hsecond, max_assoc]
  rfl

/-! ## A head without fields -/

/-- The text up to the first blank. -/
theorem takeWhile_word {w r : Bytes} {b : UInt8} (hw : Word w) (hb : isBlank b = true) :
    (w ++ b :: r).takeWhile (fun c => !isBlank c) = w := by
  have hplain : ∀ c ∈ w, (!isBlank c) = true := by simpa using hw.2
  rw [List.takeWhile_append_of_pos hplain, List.takeWhile_cons_of_neg (by simp [hb]),
    List.append_nil]

/-- A blank run in front of something else is at least as long as the blanks it starts with. -/
theorem length_le_of_blanks {s t r r' : Bytes} {d : UInt8} (hs : ∀ c ∈ s, isBlank c = true)
    (h : s ++ r = t ++ d :: r') (hd : isBlank d = false) : s.length ≤ t.length := by
  rcases List.append_eq_append_iff.mp h with ⟨x, rfl, -⟩ | ⟨y, rfl, hy⟩
  · rw [List.length_append]
    omega
  · cases y with
    | nil => rw [List.append_nil]
    | cons c y =>
      have hblank := hs d (by rw [(List.cons.inj hy).1]; simp)
      rw [hblank] at hd
      cases hd

/-- The blank line is skipped together with the end of the request line, and the byte behind
it is looked at. -/
theorem not_inside_of_no_fields {head : RequestHead} (hnone : head.fields = []) (fuel : ℕ)
    (req : Request) (rest : Bytes) :
    head.text.length < (parseHttpHeaderIn fuel req (head.text ++ rest)).2 := by
  obtain ⟨n, hrun⟩ := head.parseHttpHeaderIn_eq_from fuel req rest
  have hat := head.drop_versionOffset rest
  rw [hnone] at hat
  have hends : ∀ c ∈ lineEnd head.crlf ++ lineEnd head.blankCrlf, isBlank c = true := by
    intro c hc
    rcases List.mem_append.mp hc with hc | hc
    · exact (Message.lineEnd_gap _).2 c hc
    · exact (Message.lineEnd_gap _).2 c hc
  have hlen : head.text.length = head.versionOffset + head.version.length +
      (lineEnd head.crlf ++ lineEnd head.blankCrlf).length := by
    simp only [text, hnone, Message.fieldText, List.flatMap_nil, List.length_append,
      List.length_nil, List.length_singleton, versionOffset]
    omega
  suffices hword : head.text.length < (getNextWord head.versionOffset none (head.text ++ rest)).2 by
    have hle : (getNextWord head.versionOffset none (head.text ++ rest)).2 ≤
        (head.fromVersion fuel req (head.text ++ rest)).2 := reach_le_bind _ _ _
    rw [hrun]
    exact lt_of_lt_of_le hword (le_trans hle (le_max_right _ _))
  rcases getNextWord_cases (head.text ++ rest) head.versionOffset with
    ⟨k, hover, hk⟩ | ⟨s, d, r, hgap, hs, -⟩ | ⟨w, s, d, r, hword, hw, hs, hd⟩
  · rw [hover]
    rw [List.length_append] at hk
    simp only
    omega
  · -- The version starts with no blank.
    obtain ⟨c, t, hversion, hc, -⟩ := head.version_word.exists_cons
    obtain ⟨b, t', rfl, hb, -⟩ := hs.exists_cons
    rw [hat, hversion] at hgap
    rw [(List.cons.inj hgap).1, hb] at hc
    cases hc
  · obtain ⟨e, ends, hend, he, -⟩ := (Message.lineEnd_gap head.crlf).exists_cons
    obtain ⟨b, s', rfl, hb, -⟩ := hs.exists_cons
    rw [hat, hend] at hword
    have hsame : w = head.version := by
      have hwords := congrArg (List.takeWhile fun c => !isBlank c) hword
      rw [List.cons_append, List.cons_append, takeWhile_word head.version_word he,
        takeWhile_word hw hb] at hwords
      exact hwords.symm
    rw [hsame] at hword
    have hblanks : lineEnd head.crlf ++ lineEnd head.blankCrlf ++ rest = b :: s' ++ d :: r := by
      have hcancel := List.append_cancel_left hword
      simpa [hend, Message.fieldText] using hcancel
    have hlong := length_le_of_blanks hends hblanks hd
    rw [getNextWord_eq (hat.trans (by rw [hend, hword])) head.version_word hs hd]
    simp only
    omega

/-! ## A head with fields -/

/-- The header lines, without their ends. -/
def lines (head : RequestHead) : List Bytes := head.fields.map Field.line

/-- A head whose fields can be taken apart is what the parser is looking for. -/
theorem headText {head : RequestHead} (hsome : head.fields ≠ [])
    (hscan : ∀ f ∈ head.fields, Scannable f.line) (rest : Bytes) :
    HeadText (head.text ++ rest) head.method head.target head.version head.lines
      head.text.length .inside :=
  Message.headText_fields head.method_word head.target_word head.version_word head.crlf hsome hscan
    head.blankCrlf rest

/-- What is stored of the fields. -/
theorem lookup_lines (head : RequestHead) (name : Bytes) :
    (storeLines head.lines ∅).lookup name =
      (head.fields.find? fun f => f.key = name).map fun f => headerValue f.line := by
  rw [lookup_storeLines, AList.lookup_empty, Option.none_or, lines, List.find?_map, Option.map_map]
  rfl

/-- Where the fields start. -/
def fieldsOffset (head : RequestHead) : ℕ :=
  head.versionOffset + head.version.length + (lineEnd head.crlf).length

theorem drop_fieldsOffset (head : RequestHead) (rest : Bytes) :
    (head.text ++ rest).drop head.fieldsOffset =
      Message.fieldText head.fields ++ (lineEnd head.blankCrlf ++ rest) :=
  drop_add_of_drop_eq (drop_add_of_drop_eq (head.drop_versionOffset rest))

/-- The version of a head with fields is read up to the first of them. -/
theorem getNextWord_version {head : RequestHead} (hsome : head.fields ≠ []) (rest : Bytes) :
    ∃ n, getNextWord head.versionOffset none (head.text ++ rest) =
      (.ok (head.version, head.fieldsOffset), n) := by
  obtain ⟨d, b, hcons, hd⟩ :=
    Message.exists_fieldText_cons hsome (lineEnd head.blankCrlf ++ rest)
  have hat := head.drop_versionOffset rest
  rw [hcons] at hat
  exact ⟨_, getNextWord_eq hat head.version_word (Message.lineEnd_gap head.crlf) hd⟩

/-- A parser that returns on a head with fields has taken all of them apart, and the target. -/
theorem taken_of_ok {head : RequestHead} (hsome : head.fields ≠ []) {fuel : ℕ} {rest : Bytes}
    {size : ℕ} {req : Request}
    (h : (parseHttpHeaderIn fuel {} (head.text ++ rest)).1 = .ok (size, req)) :
    (∀ f ∈ head.fields, Scannable f.line) ∧ targetFate head.target = .fine ∧
      req.headers = storeLines head.lines ∅ := by
  obtain ⟨n, hrun⟩ := head.parseHttpHeaderIn_eq_from fuel {} rest
  obtain ⟨m, hversion⟩ := getNextWord_version hsome rest
  rw [hrun, fromVersion, run_bind_ok hversion] at h
  obtain ⟨block, k, hblock, h, -⟩ := bind_eq_ok h
  obtain ⟨hs, hfound⟩ := Message.linesFrom_fields_ok (head.drop_fieldsOffset rest) (by rw [hblock])
  obtain ⟨t, k', htarget, hret, -⟩ := bind_eq_ok h
  simp only [run_lift, Prod.mk.injEq] at htarget
  simp only [run_pure, Except.ok.injEq, Prod.mk.injEq] at hret
  have hfate := parseTarget_fate head.target_word.1 (∅ : StringMap)
  refine ⟨hs, ?_, ?_⟩
  · have hok : parseTarget head.target ∅ = .ok t := htarget.1
    cases hf : targetFate head.target with
    | fine => rfl
    | throws | overruns =>
      rw [hf, hok] at hfate
      cases hfate
  · rw [← hret.2, hfound]
    rfl

/-- With a blank behind every colon, the first field of a name is found under it. -/
theorem find?_key {fields : List Field} (h : ∀ f ∈ fields, f.Spaced) (name : Bytes) :
    (fields.find? fun f => f.key = name) = fields.find? fun f => f.name = name := by
  induction fields with
  | nil => rfl
  | cons f fields ih =>
    have hkey := (h f List.mem_cons_self).stored.1
    rw [List.find?_cons, List.find?_cons, hkey, ih fun g hg => h g (List.mem_cons_of_mem _ hg)]

/-- What comes out as it went in. -/
theorem ordinary_of_parsed {head : RequestHead} {fuel : ℕ} {rest : Bytes}
    (h : head.Parsed (parseHttpHeaderIn fuel {} (head.text ++ rest))) : head.Ordinary := by
  have hsome : head.fields ≠ [] := by
    intro hnone
    exact absurd h.inside (not_le.mpr (not_inside_of_no_fields hnone fuel {} rest))
  obtain ⟨req, hok, hlookup⟩ := h.stored
  obtain ⟨hscan, hfine, hheaders⟩ := taken_of_ok hsome hok
  rw [hheaders] at hlookup
  have hspaced : ∀ f ∈ head.fields, f.Spaced := by
    intro f hf
    by_contra hnot
    have hcolon := Field.colon_mem_key (hscan f hf) hnot
    -- Something is stored under a name that no field has.
    have hnone : head.firstValue f.key = none := by
      rw [firstValue, Option.map_eq_none_iff, List.find?_eq_none]
      intro g _ hname
      rw [decide_eq_true_eq] at hname
      exact g.name_plain (hname ▸ hcolon)
    have hkey := hlookup f.key
    rw [hnone, lookup_lines, Option.map_eq_none_iff, List.find?_eq_none] at hkey
    exact hkey f hf (decide_eq_true rfl)
  refine ⟨hsome, hfine, fun f hf => ⟨hspaced f hf, ?_⟩, fun name f hf => ?_⟩
  · rw [Field.value_ne_iff, ← (hspaced f hf).stored.2]
    exact hscan f hf
  · have hf := Option.mem_def.mp hf
    have hvalue := hlookup name
    rw [lookup_lines, find?_key hspaced, firstValue, hf, Option.map_some, Option.map_some,
      Option.some.injEq, (hspaced f (List.mem_of_find?_eq_some hf)).stored.2] at hvalue
    exact hvalue

/-- What is ordinary comes out as it went in. -/
theorem parsed_of_ordinary {head : RequestHead} (h : head.Ordinary) {fuel : ℕ} {rest : Bytes}
    (hfuel : (head.text ++ rest).length < fuel) :
    head.Parsed (parseHttpHeaderIn fuel {} (head.text ++ rest)) := by
  have hspaced : ∀ f ∈ head.fields, f.Spaced := fun f hf => (h.spaced f hf).1
  have hscan : ∀ f ∈ head.fields, Scannable f.line := by
    intro f hf
    rw [Scannable, (hspaced f hf).stored.2, ← Field.value_ne_iff]
    exact (h.spaced f hf).2
  have htext := headText h.fields_ne hscan []
  rw [List.append_nil] at htext
  have hshort : head.text.length < fuel := by
    rw [List.length_append] at hfuel
    omega
  obtain ⟨m, e, r, hrun, hlast, -⟩ := parseHttpHeaderIn_eq htext hshort {}
  have hinside : (parseHttpHeaderIn fuel {} head.text).2 ≤ head.text.length := by
    rw [hrun]
    exact lt_length_of_drop_eq hlast
  rw [(local_parseHttpHeaderIn fuel {}).extend_eq hinside]
  have hfate := parseTarget_fate head.target_word.1 (∅ : StringMap)
  rw [h.target_fine] at hfate
  obtain ⟨t, ht⟩ := hfate
  refine ⟨hinside, ?_⟩
  rw [hrun]
  refine ⟨_, by simp only [headOutcome, ht]; rfl, fun name => ?_⟩
  change (storeLines head.lines ∅).lookup name = _
  rw [lookup_lines, find?_key hspaced, firstValue]
  cases hfind : head.fields.find? fun f => f.name = name with
  | none => rfl
  | some f =>
    have hvalue : f.rest.dropWhile isBlank = f.value := h.tight name f hfind
    rw [Option.map_some, Option.map_some,
      (hspaced f (List.mem_of_find?_eq_some hfind)).stored.2, hvalue]

/-- The heads that come out as they went in, whatever is behind them: the ordinary ones. -/
theorem parsed_iff (head : RequestHead) {fuel : ℕ} {rest : Bytes}
    (hfuel : (head.text ++ rest).length < fuel) :
    head.Parsed (parseHttpHeaderIn fuel {} (head.text ++ rest)) ↔ head.Ordinary :=
  ⟨ordinary_of_parsed, fun h => parsed_of_ordinary h hfuel⟩

/-- `HEAD /h W` with these fields. -/
def small (fields : List Field) : RequestHead where
  method := ascii ['H', 'E', 'A', 'D']
  target := ascii ['/', 'h']
  version := ascii ['W']
  crlf := true
  fields := fields
  blankCrlf := true
  method_word := by decide
  target_word := by decide
  version_word := by decide

/-- `B: bc`. -/
def fieldB : Field :=
  ⟨ascii ['B'], ascii [' ', 'b', 'c'], true, by decide, by decide, by decide⟩

theorem parsed_small : (small [fieldB]).Parsed
    (parseHttpHeaderIn 100 {} ((small [fieldB]).text ++ ascii ['x'])) := by
  refine ((small [fieldB]).parsed_iff (by decide)).mpr ⟨by decide, by decide +kernel, ?_, ?_⟩
  · intro f hf
    rw [List.mem_singleton.mp hf]
    exact ⟨⟨32, rfl, rfl⟩, by decide⟩
  · intro name f hf
    have hmem : f ∈ [fieldB] := List.mem_of_find?_eq_some hf
    rw [List.mem_singleton.mp hmem]
    decide

/-- On a head without fields the parser looks behind it. -/
theorem parsed_fails : ¬ ∀ (head : RequestHead) (fuel : ℕ) (rest : Bytes),
    (head.text ++ rest).length < fuel → targetFate head.target = .fine →
    head.fields = [] ∨ (∃ f ∈ head.fields, ¬ f.Spaced ∨ f.value = []) →
    head.Parsed (parseHttpHeaderIn fuel {} (head.text ++ rest)) := by
  intro hall
  have hparsed := hall (small []) 100 [] (by decide) (by decide +kernel) (.inl rfl)
  have hover := not_inside_of_no_fields (show (small []).fields = [] from rfl) 100 {} []
  exact absurd hparsed.inside (not_le.mpr hover)

end RequestHead
end Calabash
