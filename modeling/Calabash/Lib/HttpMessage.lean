import Mathlib.Data.List.DropRight
import Mathlib.Data.UInt
import Mathlib.Data.Int.Notation

/-!
# HTTP/1.1 messages

Field names, and a reader of responses: a status line, field lines, a blank line, all of them
ended by `"\r\n"`, and what is behind it. A field is its name and the text behind the colon;
blanks around the value are not part of it. The body is as long as the one `Content-Length`
says.

## Main definitions

* `parse` — the reader.
* `Message.frame` — the body, and what follows it.
* `render`, `parse_render` — a message as it is sent, and that the reader finds it.
* `receive`, `receive_of_readsAs` — messages one behind the other.
-/

namespace Calabash

/-- ASCII lower case. -/
def toLower (c : UInt8) : UInt8 := if 65 ≤ c ∧ c ≤ 90 then c + 32 else c

/-- Field names are compared without regard to case. -/
def SameName (a b : List UInt8) : Prop := a.map toLower = b.map toLower

instance (a b : List UInt8) : Decidable (SameName a b) :=
  inferInstanceAs (Decidable (a.map toLower = b.map toLower))

namespace HttpMessage

/-- The bytes of an ASCII text. -/
def text (s : String) : List UInt8 := s.toList.map fun c => UInt8.ofNat c.toNat

/-- A header field: its name, and what is behind the colon (58). -/
structure Field where
  name : List UInt8
  rest : List UInt8
  deriving DecidableEq, Repr

/-- A space or a tab. -/
def isOws (c : UInt8) : Bool := c == 32 || c == 9

/-- Blanks at either end are not part of a value. -/
def trim (s : List UInt8) : List UInt8 := (s.dropWhile isOws).rdropWhile isOws

def Field.value (f : Field) : List UInt8 := trim f.rest

/-- A field with its value behind a single space. -/
def Field.of (name value : List UInt8) : Field := ⟨name, 32 :: value⟩

theorem Field.value_of (name value : List UInt8) : (Field.of name value).value = trim value := rfl

/-- A response, with everything that is behind its blank line. -/
structure Message where
  version : List UInt8
  code : ℤ
  reason : List UInt8
  fields : List Field
  behind : List UInt8
  deriving DecidableEq, Repr

/-! ## The reader -/

/-- The text up to the first separator, and the text behind it. -/
def cut (sep : UInt8) (s : List UInt8) : Option (List UInt8 × List UInt8) :=
  match s.dropWhile (· ≠ sep) with
  | _ :: rest => some (s.takeWhile (· ≠ sep), rest)
  | [] => none

/-- The text up to the first `"\r\n"`, and the text behind that. -/
def takeLine : List UInt8 → Option (List UInt8 × List UInt8)
  | 13 :: 10 :: rest => some ([], rest)
  | c :: rest => (takeLine rest).map fun found => (c :: found.1, found.2)
  | [] => none

/-- A decimal numeral. -/
def parseNat (ds : List UInt8) : Option ℕ :=
  if ds ≠ [] ∧ ds.all fun d => 48 ≤ d && d ≤ 57 then
    some (ds.foldl (fun n d => 10 * n + (d.toNat - 48)) 0)
  else none

/-- A decimal numeral, with a minus sign (45) or without. -/
def parseInt (s : List UInt8) : Option ℤ :=
  match s with
  | 45 :: ds => (parseNat ds).map fun n : ℕ => -(n : ℤ)
  | ds => (parseNat ds).map fun n : ℕ => (n : ℤ)

/-- `HTTP-version SP status-code SP reason-phrase`. -/
def parseStatusLine (line : List UInt8) : Option (List UInt8 × ℤ × List UInt8) := do
  let (version, line) ← cut 32 line
  let (code, reason) ← cut 32 line
  let code ← parseInt code
  return (version, code, reason)

/-- The fields up to the blank line, and the text behind it. Every line has a byte at least,
so `fuel` beyond the length of the text is never used up. -/
def parseFields : ℕ → List UInt8 → Option (List Field × List UInt8)
  | 0, _ => none
  | fuel + 1, s => do
    let (line, s) ← takeLine s
    if line = [] then return ([], s)
    else do
      let (name, rest) ← cut 58 line
      let (fields, s) ← parseFields fuel s
      return (⟨name, rest⟩ :: fields, s)

def parse (s : List UInt8) : Option Message := do
  let (line, s) ← takeLine s
  let (version, code, reason) ← parseStatusLine line
  let (fields, behind) ← parseFields (s.length + 1) s
  return ⟨version, code, reason, fields, behind⟩

/-- The fields that declare a length. -/
def Message.lengths (m : Message) : List Field :=
  m.fields.filter fun f => SameName f.name (text "Content-Length")

/-- The body, which is as long as the one length that is declared, and what follows it. -/
def Message.frame (m : Message) : Option (List UInt8 × List UInt8) :=
  match m.lengths with
  | [f] => do
    let n ← parseNat f.value
    if n ≤ m.behind.length then return (m.behind.take n, m.behind.drop n) else none
  | _ => none

/-! ## What the reader finds -/

theorem cut_append {sep : UInt8} {s : List UInt8} (h : sep ∉ s) (rest : List UInt8) :
    cut sep (s ++ sep :: rest) = some (s, rest) := by
  have hs : ∀ c ∈ s, decide (c ≠ sep) = true := by
    intro c hc
    rw [decide_eq_true_iff]
    rintro rfl
    exact h hc
  rw [cut, List.dropWhile_append_of_pos hs, List.takeWhile_append_of_pos hs,
    List.dropWhile_cons_of_neg (by simp), List.takeWhile_cons_of_neg (by simp), List.append_nil]

theorem takeLine_append {line : List UInt8} (h : 13 ∉ line) (rest : List UInt8) :
    takeLine (line ++ 13 :: 10 :: rest) = some (line, rest) := by
  induction line with
  | nil => rw [List.nil_append, takeLine]
  | cons c line ih =>
    have hc := List.ne_of_not_mem_cons h
    rw [List.cons_append, takeLine, ih (List.not_mem_of_not_mem_cons h)]
    · rfl
    · rintro rest' rfl
      exact absurd rfl hc

/-- The digits of a number. -/
def digits (n : ℕ) : List UInt8 := (Nat.toDigits 10 n).map fun c => UInt8.ofNat c.toNat

theorem digits_ne_nil (n : ℕ) : digits n ≠ [] := by
  simp [digits]

theorem toNat_isDigit {c : Char} (h : c.isDigit = true) : 48 ≤ c.toNat ∧ c.toNat ≤ 57 := by
  simp only [Char.isDigit, Bool.and_eq_true, decide_eq_true_eq, UInt32.le_iff_toNat_le] at h
  exact h

theorem toNat_ofChar {c : Char} (h : c.isDigit = true) : (UInt8.ofNat c.toNat).toNat = c.toNat := by
  have hc := toNat_isDigit h
  apply UInt8.toNat_ofNat_of_lt'
  change c.toNat < 256
  omega

theorem mem_digits {n : ℕ} {d : UInt8} (h : d ∈ digits n) : 48 ≤ d ∧ d ≤ 57 := by
  obtain ⟨c, hc, rfl⟩ := List.mem_map.mp h
  have hdigit := Nat.isDigit_of_mem_toDigits (by decide) (by decide) hc
  rw [UInt8.le_iff_toNat_le, UInt8.le_iff_toNat_le, toNat_ofChar hdigit]
  exact toNat_isDigit hdigit

theorem not_mem_digits {c : UInt8} (h : c < 48) (n : ℕ) : c ∉ digits n := by
  intro hc
  exact absurd (mem_digits hc).1 (UInt8.not_le.mpr h)

/-- The bytes of digits are read as the characters are. -/
theorem foldl_digits {cs : List Char} (h : ∀ c ∈ cs, c.isDigit = true) (n : ℕ) :
    (cs.map fun c => UInt8.ofNat c.toNat).foldl (fun n d => 10 * n + (d.toNat - 48)) n =
      Nat.ofDigitChars 10 cs n := by
  induction cs generalizing n with
  | nil => rfl
  | cons c cs ih =>
    rw [List.map_cons, List.foldl_cons, ih fun d hd => h d (List.mem_cons_of_mem _ hd),
      Nat.ofDigitChars_cons, toNat_ofChar (h c List.mem_cons_self)]
    rfl

theorem parseNat_digits (n : ℕ) : parseNat (digits n) = some n := by
  have hall : (digits n).all fun d => 48 ≤ d && d ≤ 57 := by
    rw [List.all_eq_true]
    intro d hd
    simpa using mem_digits hd
  rw [parseNat, if_pos ⟨digits_ne_nil n, hall⟩, digits,
    foldl_digits fun c hc => Nat.isDigit_of_mem_toDigits (by decide) (by decide) hc,
    Nat.ofDigitChars_ten_toDigits]

/-- A number as it is printed. -/
def decimal (z : ℤ) : List UInt8 := (if z < 0 then [45] else []) ++ digits z.natAbs

theorem parseInt_decimal (z : ℤ) : parseInt (decimal z) = some z := by
  have hread := parseNat_digits z.natAbs
  rw [decimal]
  split
  · next hneg =>
    have habs : -(z.natAbs : ℤ) = z := by omega
    rw [List.singleton_append, parseInt, hread, Option.map_some, habs]
  · next hpos =>
    have habs : (z.natAbs : ℤ) = z := by omega
    rw [List.nil_append]
    obtain ⟨d, ds, hds⟩ := List.exists_cons_of_ne_nil (digits_ne_nil z.natAbs)
    have hd : d ≠ 45 := by
      have hdigit := mem_digits (n := z.natAbs) (d := d) (by rw [hds]; simp)
      rintro rfl
      exact absurd hdigit.1 (by decide)
    rw [hds] at hread ⊢
    simp [parseInt, hd, hread, habs]

/-- The bytes of a number that is printed. -/
theorem mem_decimal {z : ℤ} {c : UInt8} (h : c ∈ decimal z) : c = 45 ∨ 48 ≤ c ∧ c ≤ 57 := by
  rcases List.mem_append.mp h with hsign | hdigit
  · split at hsign
    · exact .inl (List.mem_singleton.mp hsign)
    · cases hsign
  · exact .inr (mem_digits hdigit)

/-! ## Messages as they are sent -/

/-- A field line, with its value behind a single space. -/
def fieldLine (name value : List UInt8) : List UInt8 := name ++ 58 :: 32 :: value ++ [13, 10]

/-- A response as it is sent. -/
def render (version : List UInt8) (code : ℤ) (reason : List UInt8)
    (fields : List (List UInt8 × List UInt8)) (behind : List UInt8) : List UInt8 :=
  version ++ 32 :: (decimal code ++ 32 :: (reason ++ 13 :: 10 ::
    ((fields.flatMap fun f => fieldLine f.1 f.2) ++ 13 :: 10 :: behind)))

theorem render_append (version : List UInt8) (code : ℤ) (reason : List UInt8)
    (fields : List (List UInt8 × List UInt8)) (behind more : List UInt8) :
    render version code reason fields behind ++ more =
      render version code reason fields (behind ++ more) := by
  simp [render]

/-- A name and a value that fit a field line: no colon in the name, and no line end (13, 10)
in either. -/
structure Fits (f : List UInt8 × List UInt8) : Prop where
  colon : 58 ∉ f.1
  name : 13 ∉ f.1 ∧ 10 ∉ f.1
  value : 13 ∉ f.2 ∧ 10 ∉ f.2

theorem parseFields_lines {fields : List (List UInt8 × List UInt8)} (h : ∀ f ∈ fields, Fits f)
    (behind : List UInt8) {fuel : ℕ} (hfuel : fields.length < fuel) :
    parseFields fuel ((fields.flatMap fun f => fieldLine f.1 f.2) ++ 13 :: 10 :: behind) =
      some (fields.map fun f => Field.of f.1 f.2, behind) := by
  induction fields generalizing fuel with
  | nil =>
    obtain ⟨fuel, rfl⟩ := Nat.exists_eq_succ_of_ne_zero (Nat.ne_of_gt hfuel)
    simp [parseFields, takeLine]
  | cons f fields ih =>
    obtain ⟨fuel, rfl⟩ := Nat.exists_eq_succ_of_ne_zero (Nat.ne_zero_of_lt hfuel)
    obtain ⟨hcolon, hname, hvalue⟩ := h f List.mem_cons_self
    have hrest := ih (fun g hg => h g (List.mem_cons_of_mem _ hg)) (Nat.lt_of_succ_lt_succ hfuel)
    have hline : 13 ∉ f.1 ++ 58 :: 32 :: f.2 := by
      simp [hname.1, hvalue.1]
    have htext : ((f :: fields).flatMap fun f => fieldLine f.1 f.2) ++ 13 :: 10 :: behind =
        (f.1 ++ 58 :: 32 :: f.2) ++ 13 :: 10 ::
          ((fields.flatMap fun f => fieldLine f.1 f.2) ++ 13 :: 10 :: behind) := by
      simp [fieldLine]
    rw [htext, parseFields, takeLine_append hline]
    simp [cut_append hcolon, hrest, Field.of]

theorem length_le_flatMap (fields : List (List UInt8 × List UInt8)) :
    fields.length ≤ (fields.flatMap fun f => fieldLine f.1 f.2).length := by
  induction fields with
  | nil => exact le_refl 0
  | cons f fields ih =>
    have hline : 0 < (fieldLine f.1 f.2).length := by
      simp only [fieldLine, List.length_append, List.length_cons]
      omega
    rw [List.flatMap_cons, List.length_append, List.length_cons]
    omega

/-- The reader finds in a message what was put into it. -/
theorem parse_render {version reason : List UInt8} {fields : List (List UInt8 × List UInt8)}
    (code : ℤ) (behind : List UInt8) (hversion : 32 ∉ version ∧ 13 ∉ version)
    (hreason : 13 ∉ reason) (hfields : ∀ f ∈ fields, Fits f) :
    parse (render version code reason fields behind) =
      some ⟨version, code, reason, fields.map fun f => Field.of f.1 f.2, behind⟩ := by
  have hdecimal : 32 ∉ decimal code ∧ 13 ∉ decimal code := by
    constructor <;>
    · intro h
      rcases mem_decimal h with h | h
      · exact absurd h (by decide)
      · exact absurd h.1 (by decide)
  have hline : 13 ∉ version ++ 32 :: (decimal code ++ 32 :: reason) := by
    simp [hversion.2, hdecimal.2, hreason]
  have htext : render version code reason fields behind =
      (version ++ 32 :: (decimal code ++ 32 :: reason)) ++ 13 :: 10 ::
        ((fields.flatMap fun f => fieldLine f.1 f.2) ++ 13 :: 10 :: behind) := by
    simp [render]
  have hstatus : parseStatusLine (version ++ 32 :: (decimal code ++ 32 :: reason)) =
      some (version, code, reason) := by
    simp [parseStatusLine, cut_append hversion.1, cut_append hdecimal.1, parseInt_decimal]
  have hlength : fields.length <
      ((fields.flatMap fun f => fieldLine f.1 f.2) ++ 13 :: 10 :: behind).length + 1 := by
    have hfields := length_le_flatMap fields
    rw [List.length_append]
    omega
  rw [htext, parse, takeLine_append hline]
  simp only [Option.bind_eq_bind, Option.bind_some, hstatus,
    parseFields_lines hfields behind hlength]
  rfl

/-! ## The body -/

theorem trim_eq_self {s : List UInt8} (h : ∀ c ∈ s, isOws c = false) : trim s = s := by
  have hfront : s.dropWhile isOws = s := by
    cases s with
    | nil => rfl
    | cons c s => rw [List.dropWhile_cons_of_neg (by simp [h c List.mem_cons_self])]
  rw [trim, hfront]
  induction s using List.reverseRecOn with
  | nil => rfl
  | append_singleton s c _ =>
    have hc : ¬ isOws c = true := by simp [h c (by simp)]
    exact List.rdropWhile_concat_neg isOws s c hc

theorem trim_digits (n : ℕ) : trim (digits n) = digits n := by
  apply trim_eq_self
  intro c hc
  simp only [isOws, Bool.or_eq_false_iff, beq_eq_false_iff_ne, ne_eq]
  constructor
  · rintro rfl
    exact not_mem_digits (by decide) n hc
  · rintro rfl
    exact not_mem_digits (by decide) n hc

/-- A message that declares the length of its body is framed so, whatever follows it. -/
theorem frame_of_append {m : Message} {name body more : List UInt8}
    (h : m.lengths = [Field.of name (digits body.length)]) (hbehind : m.behind = body ++ more) :
    m.frame = some (body, more) := by
  rw [Message.frame, h]
  simp [Field.value_of, trim_digits, parseNat_digits, hbehind]

/-- A message that declares the length of what is behind its head is framed so. -/
theorem frame_of_lengths {m : Message} {name : List UInt8}
    (h : m.lengths = [Field.of name (digits m.behind.length)]) :
    m.frame = some (m.behind, []) :=
  frame_of_append h (List.append_nil _).symm

/-! ## Messages one behind the other -/

/-- The first message with its own body behind it, and the text that follows. -/
def readMessage (s : List UInt8) : Option (Message × List UInt8) := do
  let m ← parse s
  let (body, s) ← m.frame
  return ({ m with behind := body }, s)

/-- A message that is sent with one length, the one of its body, is read as it is. -/
theorem readMessage_render {version reason name body : List UInt8}
    {fields : List (List UInt8 × List UInt8)} (code : ℤ) (more : List UInt8)
    (hversion : 32 ∉ version ∧ 13 ∉ version) (hreason : 13 ∉ reason)
    (hfields : ∀ f ∈ fields, Fits f)
    (hlengths : (fields.map fun f => Field.of f.1 f.2).filter
      (fun f => SameName f.name (text "Content-Length")) = [Field.of name (digits body.length)]) :
    readMessage (render version code reason fields (body ++ more)) =
      some (⟨version, code, reason, fields.map fun f => Field.of f.1 f.2, body⟩, more) := by
  have hframe : (⟨version, code, reason, fields.map fun f => Field.of f.1 f.2,
      body ++ more⟩ : Message).frame = some (body, more) := frame_of_append hlengths rfl
  rw [readMessage, parse_render code _ hversion hreason hfields]
  simp [hframe]

/-- So many messages, and the text that follows. -/
def receive : ℕ → List UInt8 → Option (List Message × List UInt8)
  | 0, s => some ([], s)
  | n + 1, s => do
    let (m, s) ← readMessage s
    let (ms, s) ← receive n s
    return (m :: ms, s)

/-- A text is read as a message, whatever follows it. -/
def ReadsAs (s : List UInt8) (m : Message) : Prop :=
  ∀ more, readMessage (s ++ more) = some (m, more)

theorem receive_of_readsAs {texts : List (List UInt8)} {ms : List Message}
    (h : List.Forall₂ ReadsAs texts ms) (more : List UInt8) :
    receive ms.length (texts.flatten ++ more) = some (ms, more) := by
  induction h with
  | nil => rfl
  | @cons text m texts ms hread _ ih =>
    rw [List.flatten_cons, List.append_assoc, List.length_cons, receive, hread]
    simp [ih]

end HttpMessage
end Calabash
