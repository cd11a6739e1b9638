import Calabash.Web.Message

/-!
# Heads of ordinary requests

A request line of three words with single spaces between them, lines `name: value` and a
blank line, each ended by `"\r\n"` or by `"\n"`. The parser finds in it what was put in, and
stops right behind it.
-/

namespace Calabash

open RequestMaker Reads

/-- A line `name: value`. There may be colons in the name, and blanks at the end of the
value. -/
structure Header where
  name : Bytes
  value : Bytes
  crlf : Bool
  name_word : Word name
  value_ne : value ≠ []
  value_oneLine : OneLine value
  value_start : ∀ c ∈ value.head?, c ≠ 32 ∧ c ≠ 9

namespace Header

def line (h : Header) : Bytes := h.name ++ 58 :: 32 :: h.value

theorem value_head (h : Header) : ∀ c ∈ h.value.head?, isBlank c = false := by
  intro c hc
  obtain ⟨hspace, htab⟩ := h.value_start c hc
  have hend := h.value_oneLine c (List.mem_of_mem_head? hc)
  simp only [isLineEnd, Bool.or_eq_false_iff] at hend
  simp [isBlank, hspace, htab, hend]

theorem headerWord_line (h : Header) : headerWord h.line = h.name ++ [58] := by
  have hname : ∀ c ∈ h.name, (!isBlank c) = true := by simpa using h.name_word.2
  rw [headerWord, line, List.takeWhile_append_of_pos hname]
  rfl

theorem headerValue_line (h : Header) : headerValue h.line = h.value := by
  have hname : ∀ c ∈ h.name, (!isBlank c) = true := by simpa using h.name_word.2
  obtain ⟨c, t, hvalue⟩ := List.exists_cons_of_ne_nil h.value_ne
  have hc := h.value_head c (by rw [hvalue]; rfl)
  rw [headerValue, line, List.dropWhile_append_of_pos hname]
  change (h.value.dropWhile isBlank) = h.value
  rw [hvalue, List.dropWhile_cons_of_neg (by simp [hc])]

theorem headerLine_line (h : Header) : Message.HeaderLine h.line where
  start := by
    obtain ⟨c, t, hname, hc, -⟩ := h.name_word.exists_cons
    exact ⟨c, t ++ 58 :: 32 :: h.value, by rw [line, hname, List.cons_append], hc⟩
  oneLine := by
    intro c hc
    rcases List.mem_append.mp hc with hname | hrest
    · have hb := h.name_word.2 c hname
      by_contra he
      rw [isBlank_of_isLineEnd (by simpa using he)] at hb
      cases hb
    · rcases List.mem_cons.mp hrest with rfl | hrest
      · decide
      · rcases List.mem_cons.mp hrest with rfl | hvalue
        · decide
        · exact h.value_oneLine c hvalue
  scannable := by
    rw [Scannable, headerValue_line]
    exact h.value_ne

end Header

/-- The head of an ordinary request. `'?'` (63) and `'%'` (37) are not in its path. -/
structure OrdinaryHead where
  method : Bytes
  path : Bytes
  version : Bytes
  crlf : Bool
  headers : List Header
  blankCrlf : Bool
  method_word : Word method
  path_word : Word path
  path_plain : 63 ∉ path ∧ 37 ∉ path
  version_word : Word version
  headers_ne : headers ≠ []

namespace OrdinaryHead

def text (head : OrdinaryHead) : Bytes :=
  head.method ++ ([32] ++ (head.path ++ ([32] ++ (head.version ++ (lineEnd head.crlf ++
    ((head.headers.flatMap fun h => h.line ++ lineEnd h.crlf) ++ lineEnd head.blankCrlf))))))

/-- The value of the first header of a name. -/
def firstValue (head : OrdinaryHead) (name : Bytes) : Option Bytes :=
  (head.headers.find? fun h => h.name = name).map Header.value

/-- The parser has stopped right behind the head, and has put its words and headers into the
request. What a request has before the parse is kept, as the first header of a name is. -/
def Parsed (head : OrdinaryHead) (req : Request) (out : Except Fault (ℕ × Request)) : Prop :=
  ∃ headers : StringMap,
    out = .ok (head.text.length, { req with
      method := head.method, path := head.path, version := head.version, headers }) ∧
    ∀ name, headers.lookup name = (req.headers.lookup name).or (head.firstValue name)

theorem headText (head : OrdinaryHead) (rest : Bytes) :
    HeadText (head.text ++ rest) head.method head.path head.version
      (head.headers.map Header.line) head.text.length .inside := by
  have hne : (head.headers.map fun h => (h.line, h.crlf)) ≠ [] := by simpa using head.headers_ne
  have hlines : ∀ l ∈ head.headers.map fun h => (h.line, h.crlf), Message.HeaderLine l.1 := by
    intro l hl
    obtain ⟨h, -, rfl⟩ := List.mem_map.mp hl
    exact h.headerLine_line
  have htext := Message.headText_lines head.method_word head.path_word head.version_word
    head.crlf hne hlines head.blankCrlf rest
  rw [Message.endedLines, List.flatMap_map, List.map_map] at htext
  exact htext

/-- What is stored under a name is the value of the first header of that name. -/
theorem lookup_storeLines (head : OrdinaryHead) (stored : StringMap) (name : Bytes) :
    (storeLines (head.headers.map Header.line) stored).lookup name =
      (stored.lookup name).or (head.firstValue name) := by
  rw [RequestMaker.lookup_storeLines, List.find?_map, firstValue, Option.map_map]
  congr 1
  have hvalue : headerValue ∘ Header.line = Header.value := funext Header.headerValue_line
  have hname : ∀ h : Header, (headerWord h.line).dropLast = h.name := by
    intro h
    rw [Header.headerWord_line, List.dropLast_concat]
  rw [hvalue]
  simp only [Function.comp_def, hname]

theorem urlDecode_plain {s : Bytes} (h : 37 ∉ s) : urlDecode s = .ok s := by
  induction s with
  | nil => rfl
  | cons c s ih =>
    have hc := List.ne_of_not_mem_cons h
    conv_lhs => unfold urlDecode
    rw [if_neg (Ne.symm hc), ih (List.not_mem_of_not_mem_cons h)]
    rfl

/-- A target without `'?'` and `'%'` is its own path. -/
theorem parseTarget_plain {path : Bytes} (hne : path ≠ []) (hquery : 63 ∉ path)
    (hescape : 37 ∉ path) (params : StringMap) : parseTarget path params = .ok (path, params) := by
  rw [parseTarget, split_plain hquery hne]
  simp only [urlDecode_plain hescape]
  rfl

/-- `ParseHttpHeader` on the head and anything behind it, with enough passes of the loop for
the text; a buffer of the server's size has them. -/
theorem parseHttpHeader_parsed (head : OrdinaryHead) (rest : Bytes) (req : Request) :
    (∀ fuel, (head.text ++ rest).length < fuel →
      head.Parsed req ((parseHttpHeaderIn fuel req).result (head.text ++ rest))) ∧
    ((head.text ++ rest).length ≤ kReqBufSize →
      head.Parsed req ((parseHttpHeader req).result (head.text ++ rest))) := by
  have henough : ∀ fuel, (head.text ++ rest).length < fuel →
      head.Parsed req ((parseHttpHeaderIn fuel req).result (head.text ++ rest)) := by
    intro fuel hfuel
    obtain ⟨m, e, r, hrun, -, -⟩ := parseHttpHeaderIn_eq (head.headText rest) hfuel req
    have htarget := parseTarget_plain head.path_word.1 head.path_plain.1 head.path_plain.2
      req.params
    refine ⟨storeLines (head.headers.map Header.line) req.headers, ?_, ?_⟩
    · rw [Reads.result, hrun]
      simp only [headOutcome, htarget]
      rfl
    · exact head.lookup_storeLines req.headers
  refine ⟨henough, fun hsize => ?_⟩
  rw [parseHttpHeader_eq_in]
  exact henough _ (Nat.lt_succ_of_le hsize)

/-- `GET /a V`, the headers `A: b` and `A: c` with different line ends, and a blank line. -/
def small : OrdinaryHead where
  method := ascii ['G', 'E', 'T']
  path := ascii ['/', 'a']
  version := ascii ['V']
  crlf := true
  headers :=
    [⟨ascii ['A'], ascii ['b'], true, by decide, by decide, by decide, by decide +kernel⟩,
     ⟨ascii ['A'], ascii ['c'], false, by decide, by decide, by decide, by decide +kernel⟩]
  blankCrlf := true
  method_word := by decide
  path_word := by decide
  path_plain := by decide
  version_word := by decide
  headers_ne := by decide

theorem parseHttpHeader_parsed_small :
    small.Parsed {} ((parseHttpHeader {}).result (small.text ++ ascii ['x'])) ∧
      small.firstValue (ascii ['A']) = some (ascii ['b']) :=
  ⟨(small.parseHttpHeader_parsed (ascii ['x']) {}).2 (by decide), by decide⟩

end OrdinaryHead

end Calabash
