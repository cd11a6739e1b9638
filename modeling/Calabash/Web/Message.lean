import Calabash.Lib.HttpMessage
import Calabash.Web.Head

/-!
# Complete requests

What a client sends: a request line, header fields, a blank line and a body of the
length the fields declare. A `Field` and a `Message` carry their well-formedness, so
a value of these types is a complete request. Line ends are `"\r\n"` or `"\n"`, as the
parser takes either. Field names compare without regard to case; the parser compares
them exactly, which is why `Message` and the parser can disagree about a length.

## Main results

* `Message.headText` — the head is a `HeadText` when the scanner can take every header
  line apart.
* `Message.parseHttpHeader_ok` — a parser that returns passed over exactly the head.
* `Message.strtol_stored` — the length the parser takes from the fields.
-/

namespace Calabash

open RequestMaker Reads

/-- A line end. -/
def lineEnd (crlf : Bool) : Bytes := if crlf then [13, 10] else [10]

/-- A decimal numeral for `n`. -/
def IsDecimal (ds : Bytes) (n : ℕ) : Prop :=
  ds ≠ [] ∧ (∀ c ∈ ds, isDigit c = true) ∧ digitsValue 0 ds = n

instance (ds : Bytes) (n : ℕ) : Decidable (IsDecimal ds n) :=
  decidable_of_iff (ds ≠ [] ∧ ds.all isDigit = true ∧ digitsValue 0 ds = n)
    (by rw [IsDecimal, List.all_eq_true])

/-- A header field: a name, a colon (58) and the rest of the line. -/
structure Field where
  name : Bytes
  rest : Bytes
  crlf : Bool
  name_word : Word name
  name_plain : 58 ∉ name
  rest_oneLine : OneLine rest

namespace Field

def line (f : Field) : Bytes := f.name ++ 58 :: f.rest

def text (f : Field) : Bytes := f.line ++ lineEnd f.crlf

/-- The text behind the colon, without the blanks around it. -/
def value (f : Field) : Bytes := (f.rest.dropWhile isBlank).rdropWhile isBlank

/-- The name the parser stores the field under. -/
def key (f : Field) : Bytes := (headerWord f.line).dropLast

theorem exists_line_cons (f : Field) : ∃ c l, f.line = c :: l ∧ isBlank c = false := by
  obtain ⟨c, t, hname, hc, -⟩ := f.name_word.exists_cons
  exact ⟨c, t ++ 58 :: f.rest, by rw [line, hname, List.cons_append], hc⟩

theorem oneLine_line (f : Field) : OneLine f.line := by
  intro c hc
  rcases List.mem_append.mp hc with h | h
  · have hb := f.name_word.2 c h
    by_contra he
    rw [isBlank_of_isLineEnd (by simpa using he)] at hb
    cases hb
  · rcases List.mem_cons.mp h with rfl | h
    · decide
    · exact f.rest_oneLine c h

/-- The first word of the line is the name, the colon, and what follows it up to a
blank. -/
theorem headerWord_line (f : Field) :
    headerWord f.line = f.name ++ 58 :: f.rest.takeWhile fun c => !isBlank c := by
  have hname : ∀ c ∈ f.name, (!isBlank c) = true := by simpa using f.name_word.2
  rw [headerWord, line, List.takeWhile_append_of_pos hname, List.takeWhile_cons_of_pos]
  decide

theorem headerValue_line (f : Field) :
    headerValue f.line = (f.rest.dropWhile fun c => !isBlank c).dropWhile isBlank := by
  have hname : ∀ c ∈ f.name, (!isBlank c) = true := by simpa using f.name_word.2
  rw [headerValue, line, List.dropWhile_append_of_pos hname, List.dropWhile_cons_of_pos]
  decide

/-- A field is stored under a name without a colon only if it is its own and a blank
follows the colon. -/
theorem of_key_eq {f : Field} {k : Bytes} (hk : 58 ∉ k) (h : f.key = k) :
    f.name = k ∧ headerValue f.line = f.rest.dropWhile isBlank := by
  rw [key, headerWord_line, List.dropLast_append_of_ne_nil (by simp)] at h
  have hword : (f.rest.takeWhile fun c => !isBlank c) = [] := by
    by_contra hne
    rw [List.dropLast_cons_of_ne_nil hne] at h
    exact hk (by rw [← h]; simp)
  rw [hword] at h
  refine ⟨by simpa using h, ?_⟩
  have hrest : (f.rest.dropWhile fun c => !isBlank c) = f.rest := by
    conv_rhs => rw [← List.takeWhile_append_dropWhile (p := fun c => !isBlank c) (l := f.rest)]
    rw [hword, List.nil_append]
  rw [headerValue_line, hrest]

theorem digit_not_blank {c : UInt8} (h : isDigit c = true) : isBlank c = false := by
  have hc := isDigit_iff.mp h
  by_contra hb
  simp only [isBlank, Bool.not_eq_false, Bool.or_eq_true, beq_iff_eq] at hb
  rcases hb with ((rfl | rfl) | rfl) | rfl <;> exact absurd hc.1 (by decide)

/-- What is stored of a field: its value, and the blanks behind it. -/
theorem rest_eq (f : Field) :
    f.rest.dropWhile isBlank = f.value ++ (f.rest.dropWhile isBlank).rtakeWhile isBlank :=
  List.rdropWhile_append_rtakeWhile.symm

/-- A field with a decimal value that can be taken apart is stored under its name. -/
theorem key_eq_name {f : Field} {n : ℕ} (hs : Scannable f.line) (hd : IsDecimal f.value n) :
    f.key = f.name := by
  rw [key, headerWord_line, List.dropLast_append_of_ne_nil (by simp)]
  suffices hword : (f.rest.takeWhile fun c => !isBlank c) = [] by simp [hword]
  cases hrest : f.rest with
  | nil => rfl
  | cons b t =>
    cases hb : isBlank b with
    | true => simp [hb]
    | false =>
      -- The value would follow the colon directly, with only blanks behind it.
      have hsame : f.rest.dropWhile isBlank = f.rest := by simp [hrest, hb]
      have hsplit : f.rest = f.value ++ f.rest.rtakeWhile isBlank := by
        conv_lhs => rw [← hsame, rest_eq, hsame]
      have hdigits : ∀ c ∈ f.value, (!isBlank c) = true := fun c hc => by
        rw [digit_not_blank (hd.2.1 c hc)]
        rfl
      have hblanks : ∀ c ∈ f.rest.rtakeWhile isBlank, isBlank c = true :=
        fun c hc => List.mem_rtakeWhile_imp hc
      refine absurd ?_ hs
      rw [headerValue_line, hsplit, List.dropWhile_append_of_pos hdigits,
        List.dropWhile_eq_nil_iff]
      intro c hc
      exact hblanks c ((List.dropWhile_suffix _).mem hc)

end Field

/-- A complete request. The declared length is that of the body, which is empty when
no field declares one. -/
structure Message where
  method : Bytes
  target : Bytes
  version : Bytes
  crlf : Bool
  fields : List Field
  blankCrlf : Bool
  body : Bytes
  method_word : Word method
  target_word : Word target
  version_word : Word version
  fields_ne : fields ≠ []
  length_declared : ∀ f ∈ fields, SameName f.name contentLength → IsDecimal f.value body.length
  body_declared : (∀ f ∈ fields, ¬ SameName f.name contentLength) → body = []
  body_small : body.length < 2 ^ 63

namespace Message

/-- The header fields as they are sent. -/
def fieldText (fields : List Field) : Bytes := fields.flatMap Field.text

/-- The request line, the fields and the blank line. -/
def head (m : Message) : Bytes :=
  m.method ++ ([32] ++ (m.target ++ ([32] ++ (m.version ++ (lineEnd m.crlf ++
    (fieldText m.fields ++ lineEnd m.blankCrlf))))))

/-- The whole request. -/
def text (m : Message) : Bytes := m.head ++ m.body

/-- The header lines, without their ends. -/
def lines (m : Message) : List Bytes := m.fields.map Field.line

/-- Some field says that the body is multipart. -/
def Multipart (m : Message) : Prop :=
  ∃ f ∈ m.fields, SameName f.name contentType ∧
    (ascii ['m', 'u', 'l', 't', 'i', 'p', 'a', 'r', 't']).isPrefixOf (f.value.map toLower) = true

instance (m : Message) : Decidable m.Multipart :=
  inferInstanceAs (Decidable (∃ f ∈ m.fields, _))

/-- The parser can take every header line, and the target, apart. -/
def Readable (m : Message) : Prop :=
  (∀ f ∈ m.fields, Scannable f.line) ∧ targetFate m.target = .fine

/-- What the parser stores under a name: the value of the first field with that key. -/
def stored (m : Message) (name : Bytes) : Bytes :=
  ((m.fields.find? fun f => f.key = name).map fun f => headerValue f.line).getD []

/-! ## The head, as the parser takes it -/

/-- A header line that the parser can take apart. -/
structure HeaderLine (l : Bytes) : Prop where
  start : ∃ c t, l = c :: t ∧ isBlank c = false
  oneLine : OneLine l
  scannable : Scannable l

/-- Lines with their ends. -/
def endedLines (ls : List (Bytes × Bool)) : Bytes := ls.flatMap fun l => l.1 ++ lineEnd l.2

theorem lineEnd_gap (crlf : Bool) : Gap (lineEnd crlf) := by
  cases crlf <;> decide

/-- A line end is one byte that the scanner stops at and what it passes over unread. -/
theorem exists_lineEnd_cons (crlf : Bool) :
    ∃ e t, lineEnd crlf = e :: t ∧ isLineEnd e = true ∧ eolWidth e = t.length + 1 := by
  cases crlf
  · exact ⟨10, [], rfl, rfl, rfl⟩
  · exact ⟨13, [10], rfl, rfl, rfl⟩

theorem headerBlock_lines {ls : List (Bytes × Bool)} (h : ∀ l ∈ ls, HeaderLine l.1)
    (crlf : Bool) (rest : Bytes) :
    HeaderBlock (endedLines ls ++ (lineEnd crlf ++ rest)) (ls.map Prod.fst)
      (endedLines ls ++ lineEnd crlf).length .inside := by
  induction ls with
  | nil =>
    obtain ⟨e, t, hend, he, hw⟩ := exists_lineEnd_cons crlf
    have hblank : HeaderBlock (e :: (t ++ rest)) [] (eolWidth e) .inside :=
      .blank he (by rw [hw, List.length_append]; omega)
    simpa [endedLines, hend, hw] using hblank
  | cons l ls ih =>
    obtain ⟨⟨c, line, hline, hc⟩, hone, hs⟩ := h l List.mem_cons_self
    obtain ⟨e, t, hend, he, hw⟩ := exists_lineEnd_cons l.2
    rw [hline] at hone hs
    have hrest : (t ++ (endedLines ls ++ (lineEnd crlf ++ rest))).drop (eolWidth e - 1) =
        endedLines ls ++ (lineEnd crlf ++ rest) := by
      rw [hw, Nat.add_sub_cancel, List.drop_left]
    have htail := ih fun k hk => h k (List.mem_cons_of_mem _ hk)
    rw [← hrest] at htail
    have hblock := HeaderBlock.line hc hone he hs htail
    have htext : endedLines (l :: ls) ++ (lineEnd crlf ++ rest) =
        c :: line ++ e :: (t ++ (endedLines ls ++ (lineEnd crlf ++ rest))) := by
      simp [endedLines, hline, hend]
    have hlen : (endedLines (l :: ls) ++ lineEnd crlf).length =
        (c :: line).length + eolWidth e + (endedLines ls ++ lineEnd crlf).length := by
      rw [hw]
      simp only [endedLines, List.flatMap_cons, hline, hend, List.length_append,
        List.length_cons]
      omega
    rw [htext, hlen, List.map_cons, hline]
    exact hblock

/-- Three words, at least one header line and a blank line, with anything behind them, are
what the parser is looking for. -/
theorem headText_lines {method target version : Bytes} (hm : Word method) (ht : Word target)
    (hv : Word version) (crlf : Bool) {ls : List (Bytes × Bool)} (hne : ls ≠ [])
    (h : ∀ l ∈ ls, HeaderLine l.1) (blankCrlf : Bool) (rest : Bytes) :
    HeadText (method ++ ([32] ++ (target ++ ([32] ++ (version ++ (lineEnd crlf ++
        (endedLines ls ++ lineEnd blankCrlf)))))) ++ rest) method target version (ls.map Prod.fst)
      (method ++ ([32] ++ (target ++ ([32] ++ (version ++ (lineEnd crlf ++
        (endedLines ls ++ lineEnd blankCrlf))))))).length .inside := by
  have hspace : Gap [32] := by decide
  have hblock := headerBlock_lines h blankCrlf rest
  obtain ⟨d, b, hcons, hd⟩ : ∃ d b, endedLines ls ++ (lineEnd blankCrlf ++ rest) = d :: b ∧
      isBlank d = false := by
    obtain ⟨l, ls, rfl⟩ := List.exists_cons_of_ne_nil hne
    obtain ⟨c, line, hline, hc⟩ := (h l List.mem_cons_self).start
    exact ⟨c, line ++ (lineEnd l.2 ++ (endedLines ls ++ (lineEnd blankCrlf ++ rest))),
      by simp [endedLines, hline], hc⟩
  rw [hcons] at hblock
  have htext := HeadText.intro hm hspace ht hspace hv (lineEnd_gap crlf) hd hblock
  rw [← hcons] at htext
  have hlen : (method ++ ([32] ++ (target ++ ([32] ++ (version ++ (lineEnd crlf ++
      (endedLines ls ++ lineEnd blankCrlf))))))).length =
      method.length + [(32 : UInt8)].length + target.length + [(32 : UInt8)].length +
        version.length + (lineEnd crlf).length + (endedLines ls ++ lineEnd blankCrlf).length := by
    simp only [List.length_append]
    omega
  rw [hlen]
  simpa only [List.append_assoc] using htext

theorem fieldText_eq (fields : List Field) :
    fieldText fields = endedLines (fields.map fun f => (f.line, f.crlf)) := by
  rw [fieldText, endedLines, List.flatMap_map]
  rfl

/-- The fields start with a character that is no blank. -/
theorem exists_fieldText_cons {fields : List Field} (hne : fields ≠ []) (rest : Bytes) :
    ∃ d b, fieldText fields ++ rest = d :: b ∧ isBlank d = false := by
  obtain ⟨f, fs, rfl⟩ := List.exists_cons_of_ne_nil hne
  obtain ⟨c, l, hline, hc⟩ := f.exists_line_cons
  exact ⟨c, l ++ (lineEnd f.crlf ++ (fieldText fs ++ rest)),
    by simp [fieldText, Field.text, hline], hc⟩

theorem headerLine_of_scannable {f : Field} (hs : Scannable f.line) : HeaderLine f.line :=
  ⟨f.exists_line_cons, f.oneLine_line, hs⟩

/-- The same with fields that can be taken apart. -/
theorem headText_fields {method target version : Bytes} (hm : Word method) (ht : Word target)
    (hv : Word version) (crlf : Bool) {fields : List Field} (hne : fields ≠ [])
    (hs : ∀ f ∈ fields, Scannable f.line) (blankCrlf : Bool) (rest : Bytes) :
    HeadText (method ++ ([32] ++ (target ++ ([32] ++ (version ++ (lineEnd crlf ++
        (fieldText fields ++ lineEnd blankCrlf)))))) ++ rest) method target version
      (fields.map Field.line)
      (method ++ ([32] ++ (target ++ ([32] ++ (version ++ (lineEnd crlf ++
        (fieldText fields ++ lineEnd blankCrlf))))))).length .inside := by
  have hlines : ∀ l ∈ fields.map fun f => (f.line, f.crlf), HeaderLine l.1 := by
    intro l hl
    obtain ⟨f, hf, rfl⟩ := List.mem_map.mp hl
    exact headerLine_of_scannable (hs f hf)
  have htext := headText_lines hm ht hv crlf (by simpa using hne) hlines blankCrlf rest
  rwa [← fieldText_eq, List.map_map] at htext

/-- Followed by anything, the head is what the parser is looking for. -/
theorem headText (m : Message) (hs : ∀ f ∈ m.fields, Scannable f.line) (rest : Bytes) :
    HeadText (m.head ++ rest) m.method m.target m.version m.lines m.head.length .inside :=
  headText_fields m.method_word m.target_word m.version_word m.crlf m.fields_ne hs m.blankCrlf rest

/-- One pass of the header loop, at a field. -/
theorem linesFrom_field {f : Field} {more mem : Bytes} {i : ℕ}
    (hmem : mem.drop i = f.text ++ more) (fuel : ℕ) (stored : StringMap) :
    (linesFrom (fuel + 1) i stored mem).1 =
      if Scannable f.line then
        (linesFrom fuel (i + f.text.length) (emplace stored f.key (headerValue f.line)) mem).1
      else .error .undefined := by
  obtain ⟨e, t, hend, he, hw⟩ := exists_lineEnd_cons f.crlf
  obtain ⟨c, l, hline, hc⟩ := f.exists_line_cons
  have hone := f.oneLine_line
  have hat : mem.drop i = f.line ++ e :: (t ++ more) := by
    rw [hmem]
    simp [Field.text, hend]
  have hwidth : i + f.line.length + eolWidth e = i + f.text.length := by
    rw [hw, Field.text, hend, List.length_append, List.length_cons]
    omega
  rw [linesFrom, run_bind_ok (getNextLine_eq hat hone he), hwidth, Field.key]
  rw [hline] at hone ⊢
  simp only [headerLoop_cons, parseHeaderLine_eq hc hone]
  by_cases hs : Scannable (c :: l)
  · rw [if_pos hs, if_pos hs, run_bind_ok (run_lift _ _)]
  · rw [if_neg hs, if_neg hs, run_bind_error (run_lift _ _)]

/-- Without a pass left the header loop gives up. -/
theorem linesFrom_zero {f : Field} {more mem : Bytes} {i : ℕ}
    (hmem : mem.drop i = f.text ++ more) (stored : StringMap) :
    (linesFrom 0 i stored mem).1 = .error .undefined := by
  obtain ⟨e, t, hend, he, -⟩ := exists_lineEnd_cons f.crlf
  have hat : mem.drop i = f.line ++ e :: (t ++ more) := by
    rw [hmem]
    simp [Field.text, hend]
  rw [linesFrom, run_bind_ok (getNextLine_eq hat f.oneLine_line he)]
  rfl

/-- A header loop that ends in a value took every field apart, whatever its fuel. -/
theorem linesFrom_fields_ok {fields : List Field} {crlf : Bool} {tail mem : Bytes}
    {fuel i : ℕ} {stored : StringMap} {found : ℕ × StringMap}
    (hmem : mem.drop i = fieldText fields ++ (lineEnd crlf ++ tail))
    (h : (linesFrom fuel i stored mem).1 = .ok found) :
    (∀ f ∈ fields, Scannable f.line) ∧
      found = (i + (fieldText fields ++ lineEnd crlf).length,
        storeLines (fields.map Field.line) stored) := by
  induction fields generalizing fuel i stored with
  | nil =>
    obtain ⟨e, t, hend, he, hw⟩ := exists_lineEnd_cons crlf
    have hat : mem.drop i = [] ++ e :: (t ++ tail) := by simpa [fieldText, hend] using hmem
    rw [linesFrom, run_bind_ok (getNextLine_eq hat (by simp [OneLine]) he)] at h
    cases fuel with
    | zero => cases h
    | succ fuel =>
      simp only [headerLoop, if_pos, run_pure, Except.ok.injEq] at h
      rw [← h]
      exact ⟨by simp, by simp [fieldText, hend, hw]⟩
  | cons f fields ih =>
    rw [fieldText, List.flatMap_cons, List.append_assoc] at hmem
    cases fuel with
    | zero =>
      rw [linesFrom_zero hmem] at h
      cases h
    | succ fuel =>
      rw [linesFrom_field hmem] at h
      by_cases hs : Scannable f.line
      · rw [if_pos hs] at h
        obtain ⟨hrest, hfound⟩ := ih (drop_add_of_drop_eq hmem) h
        refine ⟨fun g hg => ?_, ?_⟩
        · rcases List.mem_cons.mp hg with rfl | hg
          · exact hs
          · exact hrest g hg
        · rw [hfound, List.map_cons, storeLines_cons, Field.key]
          simp only [fieldText, List.flatMap_cons, List.length_append, Prod.mk.injEq, and_true]
          omega
      · rw [if_neg hs] at h
        cases h

/-- A header loop that comes to a field that cannot be taken apart leaves its object. -/
theorem linesFrom_unscannable {fields : List Field} {tail mem : Bytes} {fuel i : ℕ}
    {stored : StringMap} (hmem : mem.drop i = fieldText fields ++ tail)
    (h : ∃ f ∈ fields, ¬ Scannable f.line) :
    (linesFrom fuel i stored mem).1 = .error .undefined := by
  induction fields generalizing fuel i stored with
  | nil =>
    obtain ⟨f, hf, -⟩ := h
    cases hf
  | cons f fields ih =>
    rw [fieldText, List.flatMap_cons, List.append_assoc] at hmem
    cases fuel with
    | zero => exact linesFrom_zero hmem _
    | succ fuel =>
      rw [linesFrom_field hmem]
      by_cases hs : Scannable f.line
      · rw [if_pos hs]
        obtain ⟨g, hg, hbad⟩ := h
        refine ih (drop_add_of_drop_eq hmem) ⟨g, ?_, hbad⟩
        rcases List.mem_cons.mp hg with rfl | hg
        · exact absurd hs hbad
        · exact hg
      · rw [if_neg hs]

/-- The request after its head has been read, with the target taken apart as `t`. -/
def read (m : Message) (req : Request) (t : Bytes × StringMap) : Request :=
  { req with method := m.method, path := t.1, version := m.version,
             headers := storeLines m.lines req.headers, params := t.2 }

/-- On a readable head the parser returns. -/
theorem parseHttpHeader_readable {m : Message} (hr : m.Readable) {rest : Bytes}
    (hsize : (m.head ++ rest).length ≤ kReqBufSize) (req : Request) :
    ∃ t, parseTarget m.target req.params = .ok t ∧
      (parseHttpHeader req (m.head ++ rest)).1 = .ok (m.head.length, m.read req t) := by
  obtain ⟨k, e, r, hrun, -, -⟩ := parseHttpHeader_eq (m.headText hr.1 rest) hsize req
  have hfate := parseTarget_fate m.target_word.1 req.params
  rw [hr.2] at hfate
  obtain ⟨t, ht⟩ := hfate
  refine ⟨t, ht, ?_⟩
  rw [hrun]
  simp only [headOutcome, ht]
  rfl

/-- A parser that returns on a request took every field apart, and passed over the
head. -/
theorem parseHttpHeader_ok (m : Message) {rest : Bytes} {req found : Request} {size : ℕ}
    (h : (parseHttpHeader req (m.head ++ rest)).1 = .ok (size, found)) :
    m.Readable ∧ size = m.head.length ∧
      ∃ t, parseTarget m.target req.params = .ok t ∧ found = m.read req t := by
  have hspace : Gap [32] := by decide
  obtain ⟨d, b, hcons, hd⟩ := exists_fieldText_cons m.fields_ne (lineEnd m.blankCrlf ++ rest)
  obtain ⟨c₂, t₂, ht, hc₂, -⟩ := m.target_word.exists_cons
  obtain ⟨c₃, t₃, hv, hc₃, -⟩ := m.version_word.exists_cons
  have hat₁ : (m.head ++ rest).drop 0 = m.method ++ ([32] ++ (m.target ++ ([32] ++
      (m.version ++ (lineEnd m.crlf ++ d :: b))))) := by
    rw [← hcons]
    simp [head]
  have hat₂ := drop_add_of_drop_eq (drop_add_of_drop_eq hat₁)
  have hat₃ := drop_add_of_drop_eq (drop_add_of_drop_eq hat₂)
  have hat := drop_add_of_drop_eq (drop_add_of_drop_eq hat₃)
  have htarget := m.target_word
  have hversion := m.version_word
  rw [ht] at hat₁ hat₂ hat₃ hat htarget
  rw [hv] at hat₁ hat₂ hat₃ hat hversion
  rw [← hcons] at hat
  rw [parseHttpHeader_eq_in, parseHttpHeaderIn,
    run_bind_ok (getNextWord_eq hat₁ m.method_word hspace hc₂),
    run_bind_ok (getNextWord_eq hat₂ htarget hspace hc₃),
    run_bind_ok (getNextWord_eq hat₃ hversion (lineEnd_gap m.crlf) hd)] at h
  obtain ⟨block, n, hrun, htail, -⟩ := bind_eq_ok h
  obtain ⟨hs, hblock⟩ := linesFrom_fields_ok hat (by rw [hrun])
  obtain ⟨t, k, htarget', hret, -⟩ := bind_eq_ok htail
  simp only [run_lift, Prod.mk.injEq] at htarget'
  rw [← ht] at htarget'
  have hfate := parseTarget_fate m.target_word.1 req.params
  simp only [run_pure, Except.ok.injEq, Prod.mk.injEq] at hret
  refine ⟨⟨hs, ?_⟩, ?_, t, htarget'.1, ?_⟩
  · cases hf : targetFate m.target with
    | fine => rfl
    | throws | overruns =>
      rw [hf, htarget'.1] at hfate
      cases hfate
  · rw [← hret.1, hblock, head, ht, hv]
    simp only [List.length_append]
    omega
  · rw [← hret.2, hblock, read, lines, hv]

/-! ## What the parser stores -/

theorem header_eq_stored (m : Message) (name : Bytes) (req : Request)
    (h : req.headers = storeLines m.lines ∅) : req.header name = m.stored name := by
  rw [Request.header, h, lookup_storeLines, AList.lookup_empty, Option.none_or, stored, lines,
    List.find?_map, Option.map_map]
  rfl

/-- A field with the exact name. -/
def Declares (m : Message) : Prop := ∃ f ∈ m.fields, f.name = contentLength

instance (m : Message) : Decidable m.Declares :=
  inferInstanceAs (Decidable (∃ f ∈ m.fields, f.name = contentLength))

/-- The length the parser takes from the fields: the declared one, if the field has the
exact name, and zero otherwise. -/
theorem strtol_stored (m : Message) (hs : ∀ f ∈ m.fields, Scannable f.line) :
    strtol (m.stored contentLength) = if m.Declares then (m.body.length : ℤ) else 0 := by
  cases hfind : m.fields.find? fun f => f.key = contentLength with
  | none =>
    have hnone : ¬ m.Declares := by
      rintro ⟨f, hf, hname⟩
      have hdec := m.length_declared f hf (by rw [hname]; rfl)
      have hkey := Field.key_eq_name (hs f hf) hdec
      have hno := List.find?_eq_none.mp hfind f hf
      rw [hkey, hname] at hno
      simp at hno
    rw [if_neg hnone, stored, hfind]
    rfl
  | some f =>
    have hf : f ∈ m.fields := List.mem_of_find?_eq_some hfind
    have hkey : f.key = contentLength := by simpa using List.find?_some hfind
    obtain ⟨hname, hval⟩ := Field.of_key_eq (by decide) hkey
    have hdec := m.length_declared f hf (by rw [hname]; rfl)
    rw [if_pos ⟨f, hf, hname⟩, stored, hfind]
    simp only [Option.map_some, Option.getD_some]
    rw [hval, f.rest_eq, strtol_digits hdec.1 hdec.2.1 ?_ ?_, hdec.2.2]
    · intro c hc
      have hb : isBlank c = true :=
        List.mem_rtakeWhile_imp (List.mem_of_mem_head? hc)
      by_contra hd
      rw [Field.digit_not_blank (by simpa using hd)] at hb
      cases hb
    · rw [hdec.2.2]
      exact m.body_small

/-- Where the parser takes a request for multipart, it is. -/
theorem multipart_of_stored {m : Message}
    (h : testContentTypeMultipart (m.stored contentType) = true) : m.Multipart := by
  set word := ascii ['m', 'u', 'l', 't', 'i', 'p', 'a', 'r', 't'] with hword
  have hall : word.all (fun c => !isBlank c) = true := by decide
  have hplain : ∀ c ∈ word, isBlank c = false := by simpa [List.all_eq_true] using hall
  rw [stored] at h
  cases hfind : m.fields.find? fun f => f.key = contentType with
  | none =>
    rw [hfind] at h
    exact absurd h (by decide)
  | some f =>
    have hkey : f.key = contentType := by simpa using List.find?_some hfind
    obtain ⟨hname, hval⟩ := Field.of_key_eq (by decide) hkey
    rw [hfind] at h
    simp only [Option.map_some, Option.getD_some] at h
    rw [hval, f.rest_eq] at h
    obtain ⟨more, hmore⟩ := List.isPrefixOf_iff_prefix.mp h
    refine ⟨f, List.mem_of_find?_eq_some hfind, by rw [hname]; rfl, ?_⟩
    have hfront : word <+: f.value := by
      rcases List.append_eq_append_iff.mp hmore with ⟨x, hx, -⟩ | ⟨y, hy, hblanks⟩
      · exact ⟨x, hx.symm⟩
      · cases y with
        | nil => exact ⟨[], by simpa using hy⟩
        | cons b y =>
          have hb : isBlank b = true := by
            refine List.mem_rtakeWhile_imp (l := f.rest.dropWhile isBlank) ?_
            rw [hblanks]
            exact List.mem_append_left _ List.mem_cons_self
          rw [hplain b (by rw [hword, hy]; simp)] at hb
          cases hb
    obtain ⟨x, hx⟩ := hfront
    refine List.isPrefixOf_iff_prefix.mpr ⟨x.map toLower, ?_⟩
    rw [← hx, List.map_append]
    rfl

end Message
end Calabash
