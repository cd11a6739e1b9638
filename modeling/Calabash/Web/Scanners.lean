import Calabash.Web.RequestMaker

/-!
# What the scanners do

One equation per scanner for the inputs it handles, and one case distinction that
says nothing else can happen. The parser's proofs go through these and never
unfold a scanning loop.

A *gap* is a non-empty run of blanks, a *word* a non-empty run of anything else.
-/

namespace Calabash
namespace RequestMaker

open Reads

/-- A non-empty run of blanks. -/
def Gap (s : Bytes) : Prop := s ≠ [] ∧ ∀ c ∈ s, isBlank c = true

/-- A non-empty run without blanks. -/
def Word (w : Bytes) : Prop := w ≠ [] ∧ ∀ c ∈ w, isBlank c = false

/-- Text that contains no line end. -/
def OneLine (l : Bytes) : Prop := ∀ c ∈ l, isLineEnd c = false

instance (s : Bytes) : Decidable (Gap s) :=
  decidable_of_iff (s ≠ [] ∧ s.all isBlank = true) (by rw [Gap, List.all_eq_true])

instance (w : Bytes) : Decidable (Word w) :=
  decidable_of_iff (w ≠ [] ∧ w.all (fun c => !isBlank c) = true) (by simp [Word])

instance (l : Bytes) : Decidable (OneLine l) :=
  decidable_of_iff (l.all (fun c => !isLineEnd c) = true) (by simp [OneLine])

theorem isBlank_of_isLineEnd {c : UInt8} (h : isLineEnd c = true) : isBlank c = true := by
  simp only [isLineEnd, isBlank, Bool.or_eq_true] at h ⊢
  tauto

theorem Gap.exists_cons {s : Bytes} (h : Gap s) :
    ∃ c t, s = c :: t ∧ isBlank c = true ∧ ∀ x ∈ t, isBlank x = true := by
  obtain ⟨c, t, rfl⟩ := List.exists_cons_of_ne_nil h.1
  exact ⟨c, t, rfl, h.2 c List.mem_cons_self, fun x hx => h.2 x (List.mem_cons_of_mem _ hx)⟩

theorem Word.exists_cons {w : Bytes} (h : Word w) :
    ∃ c t, w = c :: t ∧ isBlank c = false ∧ ∀ x ∈ t, isBlank x = false := by
  obtain ⟨c, t, rfl⟩ := List.exists_cons_of_ne_nil h.1
  exact ⟨c, t, rfl, h.2 c List.mem_cons_self, fun x hx => h.2 x (List.mem_cons_of_mem _ hx)⟩

theorem drop_add_of_drop_eq {mem w r : Bytes} {i : ℕ} (h : mem.drop i = w ++ r) :
    mem.drop (i + w.length) = r := by
  rw [← List.drop_drop, h, List.drop_left]

theorem length_of_drop_eq {mem w r : Bytes} {i : ℕ} (h : mem.drop i = w ++ r) (hw : w ≠ []) :
    i + w.length + r.length = mem.length := by
  have hlen := congrArg List.length h
  have hpos := List.length_pos_iff.mpr hw
  simp only [List.length_drop, List.length_append] at hlen
  omega

/-! ## `GetNextWord` -/

/-- A word, a gap and something after it: the word is stored and the gap passed. -/
theorem getNextWord_eq {mem w s r : Bytes} {d : UInt8} {i : ℕ}
    (hmem : mem.drop i = w ++ (s ++ d :: r)) (hw : Word w) (hs : Gap s)
    (hd : isBlank d = false) :
    getNextWord i none mem = (.ok (w, i + w.length + s.length), i + w.length + s.length + 1) := by
  obtain ⟨c, w', rfl, hc, -⟩ := hw.exists_cons
  obtain ⟨b, s', rfl, hb, -⟩ := hs.exists_cons
  have hfirst : scanWhile Fault.undefined isBlank none i mem = (.ok i, i + 1) :=
    scanWhile_eq (w := []) hmem (by simp) hc
  have hword : scanWhile Fault.undefined (fun c => !isBlank c) none i mem =
      (.ok (i + (c :: w').length), i + (c :: w').length + 1) :=
    scanWhile_eq hmem (by simpa using hw.2) (by simp [hb])
  have hafter : mem.drop (i + (c :: w').length) = b :: s' ++ d :: r := drop_add_of_drop_eq hmem
  have hcopy : makeString i (((i + (c :: w').length : ℕ) : ℤ) - i) mem =
      (.ok (c :: w'), i + (c :: w').length) := by
    have hpos : ¬ ((i + (c :: w').length : ℕ) : ℤ) - i < 0 := by omega
    have hnat : (((i + (c :: w').length : ℕ) : ℤ) - i).toNat = (c :: w').length := by omega
    have hin := length_of_drop_eq hmem (by simp)
    rw [makeString, if_neg hpos, hnat, copy_eq hmem (by omega)]
  have hgap : scanWhile Fault.undefined isBlank none (i + (c :: w').length) mem =
      (.ok (i + (c :: w').length + (b :: s').length),
        i + (c :: w').length + (b :: s').length + 1) :=
    scanWhile_eq hafter hs.2 hd
  rw [getNextWord, run_bind_ok hfirst, run_bind_ok hword, run_bind_ok hcopy, run_bind_ok hgap]
  simp only [run_pure, Prod.mk.injEq, true_and]
  omega

/-- Leading blanks: the word would have a negative length. -/
theorem getNextWord_gap {mem s r : Bytes} {d : UInt8} {i : ℕ}
    (hmem : mem.drop i = s ++ d :: r) (hs : Gap s) (hd : isBlank d = false) :
    getNextWord i none mem = (.error .lengthError, i + s.length + 1) := by
  obtain ⟨b, s', rfl, hb, -⟩ := hs.exists_cons
  have hfirst : scanWhile Fault.undefined isBlank none i mem =
      (.ok (i + (b :: s').length), i + (b :: s').length + 1) := scanWhile_eq hmem hs.2 hd
  have hword : scanWhile Fault.undefined (fun c => !isBlank c) none i mem = (.ok i, i + 1) :=
    scanWhile_eq (w := []) hmem (by simp) (by simp [hb])
  have hneg : ((i : ℕ) : ℤ) - ((i + (b :: s').length : ℕ) : ℤ) < 0 := by
    simp only [List.length_cons]
    omega
  rw [getNextWord, run_bind_ok hfirst, run_bind_ok hword, makeString, if_pos hneg,
    run_bind_error (run_throw _ _)]
  simp only [Prod.mk.injEq, true_and]
  omega

/-- Nothing but blanks, or no gap after the word, or nothing after the gap: the
scan leaves the object. -/
theorem getNextWord_overrun {mem : Bytes} {i : ℕ}
    (hlead : ∀ s d r, mem.drop i = s ++ d :: r → Gap s → isBlank d = true)
    (hword : ∀ w s d r, mem.drop i = w ++ (s ++ d :: r) → Word w → Gap s → isBlank d = true) :
    ∃ n, getNextWord i none mem = (.error .undefined, n) ∧ mem.length < n := by
  rcases exists_split isBlank (mem.drop i) with hall | ⟨s, d, r, hsplit, hs, hd⟩
  · rw [getNextWord, run_bind_error (scanWhile_overrun hall)]
    exact ⟨_, rfl, by omega⟩
  · have hs0 : s = [] := by
      by_contra hne
      rw [hlead s d r hsplit ⟨hne, hs⟩] at hd
      cases hd
    subst hs0
    have hfirst : scanWhile Fault.undefined isBlank none i mem = (.ok i, i + 1) :=
      scanWhile_eq hsplit (by simp) hd
    rw [getNextWord, run_bind_ok hfirst]
    rcases exists_split (fun c => !isBlank c) (mem.drop i) with hall | ⟨w, b, t, hsplit', hw, hb⟩
    · rw [run_bind_error (scanWhile_overrun hall)]
      exact ⟨_, rfl, by omega⟩
    · have hb' : isBlank b = true := by simpa using hb
      have hwne : w ≠ [] := by
        rintro rfl
        rw [hsplit] at hsplit'
        have hdb : d = b := (List.cons.inj hsplit').1
        rw [hdb, hb'] at hd
        cases hd
      have hwordw : Word w := ⟨hwne, by simpa using hw⟩
      have hin := length_of_drop_eq hsplit' hwne
      have hpos : ¬ ((i + w.length : ℕ) : ℤ) - i < 0 := by omega
      have hnat : (((i + w.length : ℕ) : ℤ) - i).toNat = w.length := by omega
      have hcopy : makeString i (((i + w.length : ℕ) : ℤ) - i) mem =
          (.ok w, i + w.length) := by
        rw [makeString, if_neg hpos, hnat, copy_eq hsplit' (by omega)]
      have hafter : mem.drop (i + w.length) = b :: t := drop_add_of_drop_eq hsplit'
      rw [run_bind_ok (scanWhile_eq hsplit' hw hb), run_bind_ok hcopy]
      rcases exists_split isBlank (b :: t) with hall | ⟨s, d', r', hgap, hs', hd'⟩
      · rw [run_bind_error (scanWhile_overrun (by rw [hafter]; exact hall))]
        exact ⟨_, rfl, by omega⟩
      · have hsne : s ≠ [] := by
          rintro rfl
          have hbd : b = d' := (List.cons.inj hgap).1
          rw [← hbd, hb'] at hd'
          cases hd'
        rw [hword w s d' r' (by rw [hsplit', hgap]) hwordw ⟨hsne, hs'⟩] at hd'
        cases hd'

/-- Everything `GetNextWord` can do. -/
theorem getNextWord_cases (mem : Bytes) (i : ℕ) :
    (∃ n, getNextWord i none mem = (.error .undefined, n) ∧ mem.length < n) ∨
      (∃ s d r, mem.drop i = s ++ d :: r ∧ Gap s ∧ isBlank d = false) ∨
      ∃ w s d r, mem.drop i = w ++ (s ++ d :: r) ∧ Word w ∧ Gap s ∧ isBlank d = false := by
  by_cases hlead : ∃ s d r, mem.drop i = s ++ d :: r ∧ Gap s ∧ isBlank d = false
  · exact .inr (.inl hlead)
  by_cases hword : ∃ w s d r, mem.drop i = w ++ (s ++ d :: r) ∧ Word w ∧ Gap s ∧
      isBlank d = false
  · exact .inr (.inr hword)
  refine .inl (getNextWord_overrun ?_ ?_)
  · intro s d r h hs
    by_contra hd
    exact hlead ⟨s, d, r, h, hs, by simpa using hd⟩
  · intro w s d r h hw hs
    by_contra hd
    exact hword ⟨w, s, d, r, h, hw, hs, by simpa using hd⟩

/-- Where a word starts, either it is followed by a gap and more, or the scan leaves
the object. -/
theorem getNextWord_cases_word {mem r : Bytes} {c : UInt8} {i : ℕ} (hat : mem.drop i = c :: r)
    (hc : isBlank c = false) :
    (∃ n, getNextWord i none mem = (.error .undefined, n) ∧ mem.length < n) ∨
      ∃ w s d r, mem.drop i = w ++ (s ++ d :: r) ∧ Word w ∧ Gap s ∧ isBlank d = false := by
  rcases getNextWord_cases mem i with hund | ⟨s, d, r', hgap, hs, -⟩ | hword
  · exact .inl hund
  · obtain ⟨b, t, rfl, hb, -⟩ := hs.exists_cons
    rw [hat] at hgap
    rw [(List.cons.inj hgap).1, hb] at hc
    cases hc
  · exact .inr hword

/-- A buffer in which blanks, a word, a gap and something else follow each other. -/
structure SpacedWord where
  lead : Bytes
  word : Bytes
  gap : Bytes
  next : UInt8
  rest : Bytes
  lead_blank : ∀ c ∈ lead, isBlank c = true
  isWord : Word word
  isGap : Gap gap
  next_not_blank : isBlank next = false

namespace SpacedWord

def bytes (w : SpacedWord) : Bytes := w.lead ++ (w.word ++ (w.gap ++ w.next :: w.rest))

/-- Behind the bytes `before`, the scan stores the word and stops behind the gap, and no string
of a negative length is made. -/
def Scanned (w : SpacedWord) (before : Bytes) : Prop :=
  (getNextWord before.length none (before ++ w.bytes)).1 =
      .ok (w.word, before.length + w.lead.length + w.word.length + w.gap.length) ∧
    (getNextWord before.length none (before ++ w.bytes)).1 ≠ .error .lengthError

/-- The first byte of the word ends the blanks in front of it. -/
theorem getNextWord_lead {w : SpacedWord} (hlead : w.lead ≠ []) (before : Bytes) :
    (getNextWord before.length none (before ++ w.bytes)).1 = .error .lengthError := by
  obtain ⟨c, t, hword, hc, -⟩ := w.isWord.exists_cons
  have hat : (before ++ w.bytes).drop before.length =
      w.lead ++ c :: (t ++ (w.gap ++ w.next :: w.rest)) := by
    rw [List.drop_left, bytes, hword, List.cons_append]
  rw [getNextWord_gap hat ⟨hlead, w.lead_blank⟩ hc]

/-- A word is scanned as meant exactly when no blank is in front of it, whatever the buffer holds
before. -/
theorem scanned_iff (w : SpacedWord) (before : Bytes) : w.Scanned before ↔ w.lead = [] := by
  constructor
  · rintro ⟨-, hlength⟩
    by_contra hlead
    exact hlength (getNextWord_lead hlead before)
  · intro hlead
    have hat : (before ++ w.bytes).drop before.length =
        w.word ++ (w.gap ++ w.next :: w.rest) := by
      rw [List.drop_left, bytes, hlead, List.nil_append]
    have hrun := getNextWord_eq hat w.isWord w.isGap w.next_not_blank
    rw [Scanned, hrun, hlead, List.length_nil, Nat.add_zero]
    exact ⟨rfl, nofun⟩

/-- `" a b"`: a blank in front of a word. -/
def spacedA : SpacedWord where
  lead := [32]
  word := [97]
  gap := [32]
  next := 98
  rest := []
  lead_blank := by simp [isBlank]
  isWord := by decide
  isGap := by decide
  next_not_blank := by decide

theorem spacedA_not_scanned : ¬ spacedA.Scanned [] := by
  rintro ⟨-, hlength⟩
  exact hlength (getNextWord_lead (by decide) [])

end SpacedWord

theorem local_makeString (start : ℕ) (len : ℤ) : Local (makeString start len) := by
  rw [makeString]
  split
  · exact local_throw _
  · exact local_copy _ _ _

theorem local_getNextWord (i : ℕ) : Local (getNextWord i none) :=
  (local_scanWhile _ _ _).bind fun _ => (local_scanWhile _ _ _).bind fun _ =>
    (local_makeString _ _).bind fun _ => (local_scanWhile _ _ _).bind fun _ => local_pure _

/-! ## `GetNextLine` -/

/-- How far `GetNextLine` moves past the line end `e`. -/
def eolWidth (e : UInt8) : ℕ := if e = 13 then 2 else 1

@[simp] theorem eolWidth_cr : eolWidth 13 = 2 := rfl

theorem eolWidth_pos (e : UInt8) : 0 < eolWidth e := by
  rw [eolWidth]
  split <;> omega

theorem getNextLine_eq {mem l r : Bytes} {e : UInt8} {i : ℕ}
    (hmem : mem.drop i = l ++ e :: r) (hl : OneLine l) (he : isLineEnd e = true) :
    getNextLine i mem = (.ok (l, i + l.length + eolWidth e), i + l.length + 1) := by
  have hscan : scanWhile Fault.undefined (fun c => !isLineEnd c) none i mem =
      (.ok (i + l.length), i + l.length + 1) :=
    scanWhile_eq hmem (by simpa [OneLine] using hl) (by simp [he])
  have hcopy : makeString i (((i + l.length : ℕ) : ℤ) - i) mem = (.ok l, i + l.length) := by
    have hpos : ¬ ((i + l.length : ℕ) : ℤ) - i < 0 := by omega
    have hnat : (((i + l.length : ℕ) : ℤ) - i).toNat = l.length := by omega
    have hin : i ≤ mem.length := by
      have hlen := congrArg List.length hmem
      simp only [List.length_drop, List.length_append, List.length_cons] at hlen
      omega
    rw [makeString, if_neg hpos, hnat, copy_eq hmem hin]
  have hpeek : peek Fault.undefined (i + l.length) mem = (.ok e, i + l.length + 1) :=
    peek_eq (drop_add_of_drop_eq hmem)
  rw [getNextLine, run_bind_ok hscan, run_bind_ok hcopy, run_bind_ok hpeek]
  simp only [run_pure, Prod.mk.injEq, Except.ok.injEq, true_and, eolWidth]
  refine ⟨?_, by omega⟩
  split <;> omega

theorem getNextLine_overrun {mem : Bytes} {i : ℕ} (h : OneLine (mem.drop i)) :
    ∃ n, getNextLine i mem = (.error .undefined, n) ∧ mem.length < n := by
  rw [getNextLine, run_bind_error (scanWhile_overrun (by simpa [OneLine] using h))]
  exact ⟨_, rfl, by omega⟩

/-- Text either is a single line, or starts with one that ends. -/
theorem oneLine_or_split (text : Bytes) :
    OneLine text ∨ ∃ l e r, text = l ++ e :: r ∧ OneLine l ∧ isLineEnd e = true := by
  rcases exists_split (fun c => !isLineEnd c) text with h | ⟨l, e, r, h, hl, he⟩
  · exact .inl (by simpa [OneLine] using h)
  · exact .inr ⟨l, e, r, h, by simpa [OneLine] using hl, by simpa using he⟩

theorem local_getNextLine (i : ℕ) : Local (getNextLine i) :=
  (local_scanWhile _ _ _).bind fun _ => (local_makeString _ _).bind fun _ =>
    (local_peek _ _).bind fun _ => local_pure _

/-! ## Header lines -/

/-- The first word of a line. -/
def headerWord (line : Bytes) : Bytes := line.takeWhile fun c => !isBlank c

/-- What follows the blanks after the first word. -/
def headerValue (line : Bytes) : Bytes :=
  (line.dropWhile fun c => !isBlank c).dropWhile isBlank

/-- A line the scanner can take apart: a blank, and later something else. -/
def Scannable (line : Bytes) : Prop := headerValue line ≠ []

instance (line : Bytes) : Decidable (Scannable line) :=
  inferInstanceAs (Decidable (headerValue line ≠ []))

theorem headerWord_append (line : Bytes) :
    line = headerWord line ++ (line.dropWhile fun c => !isBlank c) :=
  List.takeWhile_append_dropWhile.symm

theorem headerWord_word {c : UInt8} (line : Bytes) (hc : isBlank c = false) :
    Word (headerWord (c :: line)) := by
  refine ⟨by simp [headerWord, hc], fun x hx => ?_⟩
  have := List.mem_takeWhile_imp hx
  simpa using this

/-- The gap after the first word, when a line end is put behind the line. -/
theorem exists_gap (line : Bytes) :
    ∃ s, Gap s ∧ (line.dropWhile fun c => !isBlank c) ++ [10, 0] =
        s ++ (if headerValue line = [] then [0] else headerValue line ++ [10, 0]) ∧
      (Scannable line → ∀ c ∈ (headerValue line).head?, isBlank c = false) := by
  set tail := line.dropWhile fun c => !isBlank c with htail
  have hsplit : tail = tail.takeWhile isBlank ++ headerValue line :=
    List.takeWhile_append_dropWhile.symm
  by_cases hval : headerValue line = []
  · refine ⟨tail ++ [10], ⟨by simp, ?_⟩, by simp [hval], fun h => absurd hval h⟩
    intro c hc
    rcases List.mem_append.mp hc with hc | hc
    · rw [hsplit, hval, List.append_nil] at hc
      exact List.mem_takeWhile_imp hc
    · rw [List.mem_singleton.mp hc]
      rfl
  · have hne : tail ≠ [] := by
      intro h0
      exact hval (by rw [headerValue, ← htail, h0]; rfl)
    obtain ⟨b, t, hbt⟩ := List.exists_cons_of_ne_nil hne
    have hb : isBlank b = true := by
      have hhead := List.head?_dropWhile_not (p := fun c => !isBlank c) (l := line)
      rw [← htail, hbt] at hhead
      simpa using hhead
    refine ⟨tail.takeWhile isBlank, ⟨by simp [hbt, hb], fun c hc => List.mem_takeWhile_imp hc⟩,
      ?_, ?_⟩
    · rw [if_neg hval, ← List.append_assoc, ← hsplit]
    · intro _ c hc
      have hhead := List.head?_dropWhile_not (p := isBlank) (l := tail)
      rw [headerValue, ← htail] at hc
      rw [Option.mem_def.mp hc] at hhead
      simpa using hhead

/-- The copy of a line that starts with a blank throws. -/
theorem parseHeaderLine_folded {c : UInt8} {line : Bytes} (hc : isBlank c = true) :
    parseHeaderLine (c :: line) = .error .lengthError := by
  have hsplit : ∃ s d r, (c :: line ++ [10, 0]) = s ++ d :: r ∧ Gap s ∧ isBlank d = false := by
    rcases exists_split isBlank (c :: line ++ [10, 0]) with hall | ⟨s, d, r, h, hs, hd⟩
    · exact absurd (hall 0 (by simp)) (by decide)
    · refine ⟨s, d, r, h, ⟨?_, hs⟩, hd⟩
      rintro rfl
      have hcd : c = d := (List.cons.inj h).1
      rw [hcd, hd] at hc
      cases hc
  obtain ⟨s, d, r, hmem, hs, hd⟩ := hsplit
  have hat : (c :: line ++ [10, 0]).drop 0 = s ++ d :: r := hmem
  have hrun := getNextWord_gap hat hs hd
  rw [parseHeaderLine, Reads.result, run_bind_error hrun]
  rfl

/-- A line that starts with a word. -/
theorem parseHeaderLine_eq {c : UInt8} {line : Bytes} (hc : isBlank c = false)
    (hline : OneLine (c :: line)) :
    parseHeaderLine (c :: line) =
      if Scannable (c :: line) then
        .ok ((headerWord (c :: line)).dropLast, headerValue (c :: line))
      else .error .undefined := by
  obtain ⟨s, hs, hgap, hhead⟩ := exists_gap (c :: line)
  have hw := headerWord_word line hc
  set w := headerWord (c :: line) with hwdef
  have hmem : c :: line ++ [10, 0] = w ++ (s ++
      (if headerValue (c :: line) = [] then [0] else headerValue (c :: line) ++ [10, 0])) := by
    rw [← hgap, ← List.append_assoc, ← headerWord_append]
  by_cases hval : headerValue (c :: line) = []
  · rw [if_pos hval] at hmem
    rw [if_neg (by simpa [Scannable] using hval)]
    have hat : (c :: line ++ [10, 0]).drop 0 = w ++ (s ++ 0 :: []) := hmem
    have hrun := getNextWord_eq hat hw hs (by decide)
    obtain ⟨n, hover, -⟩ : ∃ n, getNextLine (0 + w.length + s.length) (c :: line ++ [10, 0]) =
        (.error .undefined, n) ∧ (c :: line ++ [10, 0]).length < n := by
      refine getNextLine_overrun ?_
      rw [hmem, ← List.append_assoc, Nat.zero_add, ← List.length_append, List.drop_left]
      simp [OneLine, isLineEnd]
    rw [parseHeaderLine, Reads.result, run_bind_ok hrun]
    simp only [run_bind_error hover]
    rfl
  · rw [if_neg hval] at hmem
    have hscan : Scannable (c :: line) := hval
    rw [if_pos hscan]
    obtain ⟨d, t, hdt⟩ := List.exists_cons_of_ne_nil hval
    have hd : isBlank d = false := hhead hval d (by rw [hdt]; rfl)
    have hat : (c :: line ++ [10, 0]).drop 0 = w ++ (s ++ d :: (t ++ [10, 0])) := by
      rw [List.drop_zero, hmem, hdt]
      rfl
    have hrun := getNextWord_eq hat hw hs hd
    have hvalLine : OneLine (headerValue (c :: line)) := by
      intro x hx
      refine hline x ?_
      exact (List.dropWhile_suffix _).mem ((List.dropWhile_suffix _).mem hx)
    have hat' : (c :: line ++ [10, 0]).drop (0 + w.length + s.length) =
        headerValue (c :: line) ++ 10 :: [0] := by
      rw [hmem, ← List.append_assoc, Nat.zero_add, ← List.length_append, List.drop_left]
    have hnext := getNextLine_eq hat' hvalLine (by decide)
    have hpop : popBack w = .ok w.dropLast := by rw [popBack, if_neg hw.1]
    rw [parseHeaderLine, Reads.result, run_bind_ok hrun]
    simp only [run_bind_ok hnext, run_pure]
    change (do let key ← popBack w; Except.ok (key, headerValue (c :: line))) = _
    rw [hpop]
    rfl

end RequestMaker
end Calabash
