import Calabash.Lib.Lines
import Calabash.Web.Framing

/-!
# The lines of a head

`MakeHttpHead` writes the names and values of the headers as they are, and its own
`Content-Length` behind them. Whether the lines of the head are then those it means is up to
what the handler gave to `SetHeader`.

## Main results

* `lines_makeHttpHead` — the lines of a head, whatever the headers.
* `keepsStructure_iff` — when they are the lines that were meant.
-/

namespace Calabash
namespace Response

open HttpMessage (digits)

/-- The headers set one after the other on a response with this code. -/
def setHeaders (code : ℤ) (sets : List (Bytes × Bytes)) : Response :=
  sets.foldl (fun res th => res.setHeader th.1 th.2) { code }

/-! ## The lines that are meant -/

def statusLine (code : ℤ) : Bytes :=
  ascii "HTTP/1.1 ".toList ++ decimal code ++ ascii " ".toList ++
    (codeInfo code).getD (ascii " ".toList)

def fieldLine (th : Bytes × Bytes) : Bytes := th.1 ++ ascii ": ".toList ++ th.2

def lengthLine (size : ℕ) : Bytes := ascii "Content-Length: ".toList ++ decimal size

/-- The line gives a length to a reader, who does not mind the case of a name. -/
def IsContentLength (line : Bytes) : Prop :=
  SameName (line.takeWhile (· ≠ 58)) (ascii "Content-Length".toList)

instance : DecidablePred IsContentLength := fun line =>
  inferInstanceAs (Decidable (SameName (line.takeWhile (· ≠ 58)) _))

/-- The status line, a line for each name that was set, and the line with the length. -/
def meantLines (code : ℤ) (sets : List (Bytes × Bytes)) (size : ℕ) : List Bytes :=
  statusLine code :: (setNames sets).map (fun k => fieldLine (k, setValue sets k)) ++
    [lengthLine size]

/-- The lines of the head are those that are meant, a blank line, and nothing behind it. -/
structure KeepsStructure (lenient : Bool) (code : ℤ) (sets : List (Bytes × Bytes)) (size : ℕ) :
    Prop where
  lines : lines lenient ((setHeaders code sets).makeHttpHead size) =
    meantLines code sets size ++ [[], []]
  /-- The first blank line is the one at the end. -/
  blank : [] ∉ meantLines code sets size
  length : (meantLines code sets size).filter (fun line => IsContentLength line) =
    [lengthLine size]

/-! ## The lines that there are -/

theorem headers_setHeaders (code : ℤ) (sets : List (Bytes × Bytes)) :
    (setHeaders code sets).headers = (setNames sets).map fun k => (k, setValue sets k) := by
  induction sets using List.reverseRecOn with
  | nil => rfl
  | append_singleton sets th ih =>
    rw [setNames_concat, setValue_concat, setHeaders, List.foldl_concat, setHeader, ← setHeaders,
      ih]
    exact setHeaderIn_map (nodup_eraseDups _) th.1 th.2 _

theorem code_setHeaders (code : ℤ) (sets : List (Bytes × Bytes)) :
    (setHeaders code sets).code = code := by
  induction sets using List.reverseRecOn with
  | nil => rfl
  | append_singleton sets th ih =>
    rw [setHeaders, List.foldl_concat]
    exact ih

theorem makeHttpHead_eq (res : Response) (size : ℕ) :
    res.makeHttpHead size = statusLine res.code ++ 13 :: 10 ::
      (res.headers.flatMap (fun th => fieldLine th ++ [13, 10]) ++
        (lengthLine size ++ 13 :: 10 :: [13, 10])) := by
  simp [makeHttpHead, statusLine, fieldLine, lengthLine]

theorem not_mem_decimal (n : ℤ) : 10 ∉ decimal n := by
  rw [Setter.decimal_eq, HttpMessage.decimal]
  split
  · simpa using HttpMessage.not_mem_digits (by decide) n.natAbs
  · simpa using HttpMessage.not_mem_digits (by decide) n.natAbs

theorem unbroken_statusLine (lenient : Bool) (code : ℤ) : Unbroken lenient (statusLine code) := by
  have hversion : 10 ∉ ascii "HTTP/1.1 ".toList := by decide
  have hspace : 10 ∉ ascii " ".toList := by decide
  apply unbroken_of_not_mem
  simp only [statusLine, List.mem_append, not_or]
  exact ⟨⟨⟨hversion, not_mem_decimal code⟩, hspace⟩, (Setter.not_mem_codeInfo code).2⟩

theorem unbroken_lengthLine (lenient : Bool) (size : ℕ) : Unbroken lenient (lengthLine size) := by
  have hname : 10 ∉ ascii "Content-Length: ".toList := by decide
  apply unbroken_of_not_mem
  rw [lengthLine, List.mem_append, not_or]
  exact ⟨hname, not_mem_decimal size⟩

theorem unbroken_fieldLine {lenient : Bool} {k v : Bytes} :
    Unbroken lenient (fieldLine (k, v)) ↔ Unbroken lenient k ∧ Unbroken lenient v := by
  have hcolon : ascii ": ".toList = [58, 32] := by decide
  have hblank : Unbroken lenient (58 :: 32 :: v) ↔ Unbroken lenient v := by
    rw [unbroken_cons_of_ne (by decide) (by decide), unbroken_cons_of_ne (by decide) (by decide)]
  rw [fieldLine, hcolon, List.append_assoc, ← hblank]
  exact unbroken_append (by decide)

theorem lines_flatMap (lenient : Bool) (ths : List (Bytes × Bytes)) (rest : Bytes) :
    lines lenient (ths.flatMap (fun th => fieldLine th ++ [13, 10]) ++ rest) =
      ths.flatMap (fun th => lines lenient (fieldLine th)) ++ lines lenient rest := by
  induction ths with
  | nil => rfl
  | cons th ths ih =>
    rw [List.flatMap_cons, List.append_assoc, List.append_assoc, List.cons_append,
      List.cons_append, List.nil_append, lines_append, ih, List.flatMap_cons, List.append_assoc]

/-- The lines of a head: every header gives those of its name and value. -/
theorem lines_makeHttpHead (lenient : Bool) (res : Response) (size : ℕ) :
    lines lenient (res.makeHttpHead size) =
      statusLine res.code :: res.headers.flatMap (fun th => lines lenient (fieldLine th)) ++
        [lengthLine size, [], []] := by
  have hend : lines lenient [13, 10] = [[], []] := by rw [lines, lines]
  rw [makeHttpHead_eq, lines_append, lines_flatMap, lines_append, hend,
    lines_of_unbroken (unbroken_statusLine lenient res.code),
    lines_of_unbroken (unbroken_lengthLine lenient size)]
  rfl

/-- Lists with an element at least are as many as their elements only if each has one. -/
theorem length_eq_one_of_flatMap {α β : Type} {f : α → List β} {xs : List α}
    (hne : ∀ x, f x ≠ []) (h : (xs.flatMap f).length = xs.length) :
    ∀ x ∈ xs, (f x).length = 1 := by
  have hle : ∀ ys : List α, ys.length ≤ (ys.flatMap f).length := by
    intro ys
    induction ys with
    | nil => exact Nat.le_refl 0
    | cons y ys ih =>
      have hpos := List.length_pos_iff.mpr (hne y)
      rw [List.flatMap_cons, List.length_append, List.length_cons]
      omega
  induction xs with
  | nil => exact fun x hx => absurd hx List.not_mem_nil
  | cons y ys ih =>
    have hpos := List.length_pos_iff.mpr (hne y)
    have hrest := hle ys
    rw [List.flatMap_cons, List.length_append, List.length_cons] at h
    intro x hx
    rcases List.mem_cons.mp hx with rfl | hx
    · omega
    · exact ih (by omega) x hx

/-- The lines are those that are meant exactly when no header breaks its own. -/
theorem lines_eq_iff (lenient : Bool) (code : ℤ) (sets : List (Bytes × Bytes)) (size : ℕ) :
    lines lenient ((setHeaders code sets).makeHttpHead size) =
        meantLines code sets size ++ [[], []] ↔
      ∀ k ∈ setNames sets, Unbroken lenient k ∧ Unbroken lenient (setValue sets k) := by
  rw [lines_makeHttpHead, code_setHeaders, headers_setHeaders, List.flatMap_map]
  constructor
  · intro h
    have hlength := congrArg List.length h
    simp only [meantLines, List.length_cons, List.length_append, List.length_map,
      List.length_nil] at hlength
    have hone := length_eq_one_of_flatMap (fun k => lines_ne_nil lenient _)
      (Nat.add_right_cancel (Nat.add_right_cancel hlength))
    intro k hk
    exact unbroken_fieldLine.mp (length_lines_eq_one.mp (hone k hk))
  · intro h
    have hlines :
        (setNames sets).flatMap (fun k => lines lenient (fieldLine (k, setValue sets k))) =
        (setNames sets).flatMap fun k => [fieldLine (k, setValue sets k)] :=
      List.flatMap_congr fun k hk => lines_of_unbroken (unbroken_fieldLine.mpr (h k hk))
    rw [hlines, meantLines, List.map_eq_flatMap]
    simp

/-! ## Lengths -/

theorem isContentLength_fieldLine {k v : Bytes} :
    IsContentLength (fieldLine (k, v)) ↔
      SameName (k.takeWhile (· ≠ 58)) (ascii "Content-Length".toList) := by
  have hcolon : ascii ": ".toList = [58, 32] := by decide
  have hname : (k ++ 58 :: 32 :: v).takeWhile (· ≠ 58) = k.takeWhile (· ≠ 58) := by
    induction k with
    | nil => rfl
    | cons c k ih =>
      rw [List.cons_append, List.takeWhile_cons, List.takeWhile_cons, ih]
  rw [IsContentLength, fieldLine, hcolon, List.append_assoc]
  simp only [List.cons_append, List.nil_append, hname]

theorem isContentLength_lengthLine (size : ℕ) : IsContentLength (lengthLine size) := by
  have hname : ascii "Content-Length: ".toList = ascii "Content-Length".toList ++ [58, 32] := by
    decide
  have hcolon : (ascii "Content-Length".toList).takeWhile (· ≠ 58) =
      ascii "Content-Length".toList := by decide
  have hline : lengthLine size = fieldLine (ascii "Content-Length".toList, decimal size) := by
    rw [lengthLine, hname]
    rfl
  rw [hline, isContentLength_fieldLine, hcolon]
  rfl

/-- A status line starts with another letter. -/
theorem not_isContentLength_statusLine (code : ℤ) : ¬ IsContentLength (statusLine code) := by
  have hversion : ascii "HTTP/1.1 ".toList = 72 :: ascii "TTP/1.1 ".toList := by decide
  intro h
  have hhead := congrArg List.head? h
  rw [statusLine, hversion] at hhead
  revert hhead
  simp [ascii, toLower]

/-- Of the lines that are meant, the last is the only one with a length exactly when no name is
that of a length. -/
theorem filter_meantLines_iff (code : ℤ) (sets : List (Bytes × Bytes)) (size : ℕ) :
    (meantLines code sets size).filter (fun line => IsContentLength line) = [lengthLine size] ↔
      ∀ k ∈ setNames sets,
        ¬ SameName (k.takeWhile (· ≠ 58)) (ascii "Content-Length".toList) := by
  have hlast : [lengthLine size].filter (fun line => IsContentLength line) = [lengthLine size] := by
    simp [isContentLength_lengthLine]
  rw [meantLines, List.filter_append, hlast, List.append_left_eq_self, List.filter_cons_of_neg
    (by simpa using not_isContentLength_statusLine code), List.filter_eq_nil_iff]
  simp [isContentLength_fieldLine]

theorem nil_not_mem_meantLines (code : ℤ) (sets : List (Bytes × Bytes)) (size : ℕ) :
    [] ∉ meantLines code sets size := by
  simp [meantLines, statusLine, fieldLine, lengthLine, ascii]

/-- Whatever a handler sets, the head keeps its structure exactly when the names, and the values
they were last set to, have no line ends, and no name, up to a colon in it, is
`Content-Length`. -/
theorem keepsStructure_iff (lenient : Bool) (code : ℤ) (sets : List (Bytes × Bytes)) (size : ℕ) :
    KeepsStructure lenient code sets size ↔
      (∀ k ∈ setNames sets, Unbroken lenient k ∧ Unbroken lenient (setValue sets k)) ∧
        ∀ k ∈ setNames sets,
          ¬ SameName (k.takeWhile (· ≠ 58)) (ascii "Content-Length".toList) := by
  rw [← lines_eq_iff lenient code sets size, ← filter_meantLines_iff code sets size]
  constructor
  · exact fun h => ⟨h.lines, h.length⟩
  · exact fun ⟨hlines, hlength⟩ => ⟨hlines, nil_not_mem_meantLines code sets size, hlength⟩

/-- A value with a blank line in it. -/
theorem keepsStructure_fails :
    ¬ KeepsStructure false 200 [(ascii ['A'], [13, 10, 13, 10])] 0 := by
  intro h
  have hbroken := (lines_eq_iff false 200 _ 0).mp h.lines (ascii ['A']) (by decide)
  revert hbroken
  decide

end Response
end Calabash
