import Calabash.Web.Scanners
import Calabash.Web.Target

/-!
# The request head, as the parser takes it

`HeaderBlock` describes the byte strings on which the header loop comes to an
end, and how it ends; `HeadText` puts the three words of the request line in front.
Both directions are proved: on such text the parser does what the description
says, and on any other text it leaves its object.

The loop ends in one of three ways: at a blank line whose line end lies inside the
text, at a blank line whose `'\r'` is the last byte, so that the cursor stops one
byte past the text, or at a line that starts with a blank, which throws.

## Main results

* `linesFrom_eq`, `exists_headerBlock` — the header loop.
* `parseHttpHeader_eq`, `parseHttpHeader_cases` — the whole head.
* `local_parseHttpHeader` — unread bytes do not matter.
-/

namespace Calabash
namespace RequestMaker

open Reads

/-- How the header loop ends. -/
inductive BlockEnd
  /-- The blank line lies inside the text. -/
  | inside
  /-- The blank line is a `'\r'` in the last byte. -/
  | clipped
  /-- A line starts with a blank. -/
  | folded
  deriving DecidableEq, Repr

/-- Text that starts at a header line and brings the loop to an end: its lines
before that, the length the loop passes over, and how it ends. -/
inductive HeaderBlock : Bytes → List Bytes → ℕ → BlockEnd → Prop
  | blank {e : UInt8} {r : Bytes} : isLineEnd e = true → eolWidth e ≤ r.length + 1 →
      HeaderBlock (e :: r) [] (eolWidth e) .inside
  | clipped : HeaderBlock [13] [] 2 .clipped
  | folded {c e : UInt8} {l r : Bytes} : isBlank c = true → OneLine (c :: l) →
      isLineEnd e = true → HeaderBlock (c :: l ++ e :: r) [] 0 .folded
  | line {c e : UInt8} {l r : Bytes} {ls : List Bytes} {n : ℕ} {k : BlockEnd} :
      isBlank c = false → OneLine (c :: l) → isLineEnd e = true → Scannable (c :: l) →
      HeaderBlock (r.drop (eolWidth e - 1)) ls n k →
      HeaderBlock (c :: l ++ e :: r) ((c :: l) :: ls) ((c :: l).length + eolWidth e + n) k

theorem HeaderBlock.ne_nil {text : Bytes} {ls : List Bytes} {n : ℕ} {k : BlockEnd}
    (h : HeaderBlock text ls n k) : text ≠ [] := by
  cases h <;> simp

/-- The length passed over, for the two ways to end at a blank line. -/
theorem HeaderBlock.length_le {text : Bytes} {ls : List Bytes} {n : ℕ} {k : BlockEnd}
    (h : HeaderBlock text ls n k) :
    (k = .inside → n ≤ text.length) ∧ (k = .clipped → n = text.length + 1) := by
  induction h with
  | blank he hw => exact ⟨fun _ => by simpa using hw, by simp⟩
  | clipped => simp
  | folded => simp
  | @line c e l r ls n k hc hl he hs hblock ih =>
    have hpos := eolWidth_pos e
    have hw : eolWidth e ≤ 2 := by
      rw [eolWidth]
      split <;> omega
    have hlen := List.length_pos_iff.mpr hblock.ne_nil
    simp only [List.length_append, List.length_cons, List.length_drop] at ih hlen ⊢
    refine ⟨fun hk => ?_, fun hk => ?_⟩
    · have hn := ih.1 hk
      omega
    · have hn := ih.2 hk
      omega

/-- The stored headers after the lines: the first entry of a key is kept. -/
def storeLines (ls : List Bytes) (stored : StringMap) : StringMap :=
  ls.foldl (fun m l => emplace m (headerWord l).dropLast (headerValue l)) stored

@[simp] theorem storeLines_nil (stored : StringMap) : storeLines [] stored = stored := rfl
@[simp] theorem storeLines_cons (l : Bytes) (ls : List Bytes) (stored : StringMap) :
    storeLines (l :: ls) stored =
      storeLines ls (emplace stored (headerWord l).dropLast (headerValue l)) := rfl

/-- The stored value of a key: what was there before, or that of the first line with
the key. -/
theorem lookup_storeLines (ls : List Bytes) (stored : StringMap) (k : Bytes) :
    (storeLines ls stored).lookup k = (stored.lookup k).or
      ((ls.find? fun l => (headerWord l).dropLast = k).map headerValue) := by
  induction ls generalizing stored with
  | nil => simp
  | cons l ls ih =>
    rw [storeLines_cons, ih]
    by_cases hk : (headerWord l).dropLast = k
    · subst hk
      rw [lookup_emplace_self, List.find?_cons_of_pos (by simp)]
      cases stored.lookup (headerWord l).dropLast <;> simp
    · rw [lookup_emplace_ne _ (Ne.symm hk), List.find?_cons_of_neg (by simpa using hk)]

/-- The header loop together with the `GetNextLine` that feeds it. -/
def linesFrom (fuel buf : ℕ) (stored : StringMap) : Reads UInt8 Fault (ℕ × StringMap) := do
  let (headers, buf) ← getNextLine buf
  headerLoop fuel buf headers stored

theorem headerLoop_cons (fuel buf : ℕ) (c : UInt8) (l : Bytes) (stored : StringMap) :
    headerLoop (fuel + 1) buf (c :: l) stored =
      (lift (parseHeaderLine (c :: l)) >>= fun kv =>
        linesFrom fuel buf (emplace stored kv.1 kv.2)) := rfl

/-- What the loop leaves behind, by the way it ends. -/
def BlockEnd.outcome (k : BlockEnd) (found : ℕ × StringMap) :
    Except Fault (ℕ × StringMap) :=
  match k with
  | .folded => .error .lengthError
  | _ => .ok found

/-- The loop on a header block. The last byte it looks at is a line end. -/
theorem linesFrom_eq {text : Bytes} {ls : List Bytes} {n : ℕ} {k : BlockEnd}
    (h : HeaderBlock text ls n k) :
    ∀ (mem : Bytes) (fuel i : ℕ) (stored : StringMap), mem.drop i = text →
      text.length < fuel →
      ∃ m e r, linesFrom fuel i stored mem = (k.outcome (i + n, storeLines ls stored), m + 1) ∧
        i ≤ m ∧ mem.drop m = e :: r ∧ isLineEnd e = true := by
  induction h with
  | @blank e r he hw =>
    intro mem fuel i stored hmem hfuel
    obtain ⟨f, rfl⟩ : ∃ f, fuel = f + 1 := ⟨fuel - 1, by omega⟩
    have hline := getNextLine_eq (l := []) hmem (by simp [OneLine]) he
    refine ⟨i, e, r, ?_, le_refl _, hmem, he⟩
    rw [linesFrom, run_bind_ok hline]
    simp [headerLoop, BlockEnd.outcome]
  | clipped =>
    intro mem fuel i stored hmem hfuel
    obtain ⟨f, rfl⟩ : ∃ f, fuel = f + 1 := ⟨fuel - 1, by omega⟩
    have hline := getNextLine_eq (l := []) hmem (by simp [OneLine]) (by decide)
    refine ⟨i, 13, [], ?_, le_refl _, hmem, by decide⟩
    rw [linesFrom, run_bind_ok hline]
    simp [headerLoop, BlockEnd.outcome]
  | @folded c e l r hc hl he =>
    intro mem fuel i stored hmem hfuel
    obtain ⟨f, rfl⟩ : ∃ f, fuel = f + 1 := ⟨fuel - 1, by omega⟩
    have hline := getNextLine_eq hmem hl he
    refine ⟨i + (c :: l).length, e, r, ?_, by omega, drop_add_of_drop_eq hmem, he⟩
    rw [linesFrom, run_bind_ok hline]
    simp only [headerLoop_cons, parseHeaderLine_folded hc]
    rw [run_bind_error (run_lift _ _)]
    simp [BlockEnd.outcome]
  | @line c e l r ls n k hc hl he hs hblock ih =>
    intro mem fuel i stored hmem hfuel
    obtain ⟨f, rfl⟩ : ∃ f, fuel = f + 1 := ⟨fuel - 1, by omega⟩
    have hline := getNextLine_eq hmem hl he
    have hpos := eolWidth_pos e
    have hnext : mem.drop (i + (c :: l).length + eolWidth e) = r.drop (eolWidth e - 1) := by
      have hrest : mem.drop (i + (c :: l).length) = e :: r := drop_add_of_drop_eq hmem
      rw [← List.drop_drop, hrest]
      obtain ⟨w, hw⟩ : ∃ w, eolWidth e = w + 1 := ⟨eolWidth e - 1, by omega⟩
      simp [hw]
    have hshort : (r.drop (eolWidth e - 1)).length < f := by
      simp only [List.length_append, List.length_cons] at hfuel
      rw [List.length_drop]
      omega
    obtain ⟨m, e', r', hrun, him, hdrop, he'⟩ := ih mem f (i + (c :: l).length + eolWidth e)
      (emplace stored (headerWord (c :: l)).dropLast (headerValue (c :: l))) hnext hshort
    refine ⟨m, e', r', ?_, by omega, hdrop, he'⟩
    rw [linesFrom, run_bind_ok hline]
    simp only [headerLoop_cons, parseHeaderLine_eq hc hl, if_pos hs]
    rw [run_bind_ok (run_lift _ _), hrun]
    simp only [storeLines_cons, Prod.mk.injEq]
    refine ⟨?_, by omega⟩
    congr 2
    omega

theorem linesFrom_overrun {mem : Bytes} {i : ℕ} (h : OneLine (mem.drop i)) (fuel : ℕ)
    (stored : StringMap) : (linesFrom fuel i stored mem).1 = .error .undefined := by
  obtain ⟨n, hover, -⟩ := getNextLine_overrun h
  rw [linesFrom, run_bind_error hover]

/-- Outside header blocks the loop leaves its object. -/
theorem exists_headerBlock (mem : Bytes) :
    ∀ (size fuel i : ℕ) (stored : StringMap), (mem.drop i).length ≤ size → size < fuel →
      (linesFrom fuel i stored mem).1 ≠ .error .undefined →
      ∃ ls n k, HeaderBlock (mem.drop i) ls n k := by
  intro size
  induction size with
  | zero =>
    intro fuel i stored hsize hfuel hrun
    have hnil : mem.drop i = [] := List.length_eq_zero_iff.mp (by omega)
    exact absurd (linesFrom_overrun (by simp [hnil, OneLine]) fuel stored) hrun
  | succ size ih =>
    intro fuel i stored hsize hfuel hrun
    obtain ⟨f, rfl⟩ : ∃ f, fuel = f + 1 := ⟨fuel - 1, by omega⟩
    rcases oneLine_or_split (mem.drop i) with hone | ⟨l, e, r, hsplit, hl, he⟩
    · exact absurd (linesFrom_overrun hone _ stored) hrun
    · have hline := getNextLine_eq hsplit hl he
      cases l with
      | nil =>
        by_cases hw : eolWidth e ≤ r.length + 1
        · exact ⟨[], eolWidth e, .inside, by rw [hsplit]; exact .blank he hw⟩
        · have hcr : e = 13 ∧ r = [] := by
            rw [eolWidth] at hw
            split at hw
            · rename_i h13
              exact ⟨h13, List.length_eq_zero_iff.mp (by omega)⟩
            · omega
          exact ⟨[], 2, .clipped, by rw [hsplit, hcr.1, hcr.2]; exact .clipped⟩
      | cons c l =>
        cases hc : isBlank c with
        | true => exact ⟨[], 0, .folded, by rw [hsplit]; exact .folded hc hl he⟩
        | false =>
          rw [linesFrom, run_bind_ok hline] at hrun
          simp only [headerLoop_cons, parseHeaderLine_eq hc hl] at hrun
          by_cases hs : Scannable (c :: l)
          · rw [if_pos hs, run_bind_ok (run_lift _ _)] at hrun
            have hpos := eolWidth_pos e
            have hnext : mem.drop (i + (c :: l).length + eolWidth e) =
                r.drop (eolWidth e - 1) := by
              have hrest : mem.drop (i + (c :: l).length) = e :: r := drop_add_of_drop_eq hsplit
              rw [← List.drop_drop, hrest]
              obtain ⟨w, hw⟩ : ∃ w, eolWidth e = w + 1 := ⟨eolWidth e - 1, by omega⟩
              simp [hw]
            have hlen := congrArg List.length hsplit
            simp only [List.length_append, List.length_cons] at hlen
            have hshort : (mem.drop (i + (c :: l).length + eolWidth e)).length ≤ size := by
              rw [hnext, List.length_drop]
              omega
            obtain ⟨ls, n, k, hblock⟩ := ih f _ _ hshort (by omega) hrun
            rw [hnext] at hblock
            exact ⟨_, _, k, by rw [hsplit]; exact .line hc hl he hs hblock⟩
          · rw [if_neg hs, run_bind_error (run_lift _ _)] at hrun
            exact absurd rfl hrun

/-- Everything the header loop can do in a buffer of the server's size. -/
theorem linesFrom_cases {mem : Bytes} (hsize : mem.length ≤ kReqBufSize) (i : ℕ)
    (stored : StringMap) :
    (∃ n, linesFrom (kReqBufSize + 1) i stored mem = (.error .undefined, n)) ∨
      ∃ ls n k, HeaderBlock (mem.drop i) ls n k := by
  rcases hloop : linesFrom (kReqBufSize + 1) i stored mem with ⟨e, p⟩
  by_cases hund : e = .error .undefined
  · exact .inl ⟨p, by rw [hund]⟩
  · refine .inr (exists_headerBlock mem mem.length (kReqBufSize + 1) i stored ?_ (by omega) ?_)
    · rw [List.length_drop]
      omega
    · rw [hloop]
      exact hund

/-! ## The whole head -/

/-- A request line of three words, and a header block: the words, the header
lines, the length passed over and how the loop ends. -/
inductive HeadText : Bytes → Bytes → Bytes → Bytes → List Bytes → ℕ → BlockEnd → Prop
  | intro {method target version s₁ s₂ s₃ b : Bytes} {d : UInt8} {ls : List Bytes} {n : ℕ}
      {k : BlockEnd} : Word method → Gap s₁ → Word target → Gap s₂ → Word version → Gap s₃ →
      isBlank d = false → HeaderBlock (d :: b) ls n k →
      HeadText (method ++ (s₁ ++ (target ++ (s₂ ++ (version ++ (s₃ ++ d :: b))))))
        method target version ls
        (method.length + s₁.length + target.length + s₂.length + version.length + s₃.length + n)
        k

/-- Blanks in front of the request line. -/
def LeadingGap (text : Bytes) : Prop :=
  ∃ s d r, text = s ++ d :: r ∧ Gap s ∧ isBlank d = false

/-- The outcome of the parser on a head: the header loop throws, or what is left
is the target. -/
def headOutcome (req : Request) (method target version : Bytes) (ls : List Bytes) (n : ℕ) :
    BlockEnd → Except Fault (ℕ × Request)
  | .folded => .error .lengthError
  | _ => (parseTarget target req.params).map fun found =>
    (n, { req with method, path := found.1, version,
                   headers := storeLines ls req.headers, params := found.2 })

theorem HeadText.length_le {text method target version : Bytes} {ls : List Bytes} {n : ℕ}
    {k : BlockEnd} (h : HeadText text method target version ls n k) :
    (k = .inside → n ≤ text.length) ∧ (k = .clipped → n = text.length + 1) := by
  cases h with
  | intro hm h₁ ht h₂ hv h₃ hd hblock =>
    have hb := hblock.length_le
    simp only [List.length_append] at hb ⊢
    exact ⟨fun hk => by have := hb.1 hk; omega, fun hk => by have := hb.2 hk; omega⟩

theorem HeadText.word_target {text method target version : Bytes} {ls : List Bytes} {n : ℕ}
    {k : BlockEnd} (h : HeadText text method target version ls n k) : Word target := by
  cases h
  assumption

theorem HeadText.ne_zero {text method target version : Bytes} {ls : List Bytes} {n : ℕ}
    {k : BlockEnd} (h : HeadText text method target version ls n k) : n ≠ 0 := by
  cases h with
  | intro hm =>
    have hlen := List.length_pos_iff.mpr hm.1
    omega

/-- Past the header loop, the fate of the target decides. -/
theorem headOutcome_fate (req : Request) (method version : Bytes) {target : Bytes}
    (ht : Word target) (ls : List Bytes) (n : ℕ) {k : BlockEnd} (hk : k ≠ .folded) :
    match targetFate target with
    | .fine => ∃ r, headOutcome req method target version ls n k = .ok (n, r)
    | .throws => headOutcome req method target version ls n k = .error .invalidArgument
    | .overruns => headOutcome req method target version ls n k = .error .undefined := by
  have hfate := parseTarget_fate ht.1 req.params
  have hout : headOutcome req method target version ls n k =
      (parseTarget target req.params).map fun found =>
        (n, { req with method, path := found.1, version,
                       headers := storeLines ls req.headers, params := found.2 }) := by
    cases k with
    | folded => exact absurd rfl hk
    | inside | clipped => rfl
  rw [hout]
  cases hf : targetFate target with
  | fine =>
    rw [hf] at hfate
    obtain ⟨found, hfound⟩ := hfate
    rw [hfound]
    exact ⟨_, rfl⟩
  | throws | overruns =>
    rw [hf] at hfate
    simp only [Fate.Describes, Fate.fault] at hfate
    rw [hfate]
    rfl

/-- `ParseHttpHeader`, with so many passes of its header loop. -/
def parseHttpHeaderIn (fuel : ℕ) (req : Request) : Reads UInt8 Fault (ℕ × Request) := do
  let a ← getNextWord 0
  let b ← getNextWord a.2
  let c ← getNextWord b.2
  let d ← linesFrom fuel c.2 req.headers
  let t ← lift (parseTarget b.1 req.params)
  return (d.1, { req with method := a.1, path := t.1, version := c.1,
                          headers := d.2, params := t.2 })

/-- The header loop in the form of `linesFrom`: a buffer of the server's size has no room for more
passes. -/
theorem parseHttpHeader_eq_in (req : Request) :
    parseHttpHeader req = parseHttpHeaderIn (kReqBufSize + 1) req := by
  simp only [parseHttpHeaderIn, linesFrom, bind_assoc]
  rfl

/-- The parser on a head. The last byte it looks at is a line end. -/
theorem parseHttpHeaderIn_eq {mem method target version : Bytes} {ls : List Bytes} {n fuel : ℕ}
    {k : BlockEnd} (h : HeadText mem method target version ls n k)
    (hsize : mem.length < fuel) (req : Request) :
    ∃ m e r, parseHttpHeaderIn fuel req mem =
        (headOutcome req method target version ls n k, m + 1) ∧
      mem.drop m = e :: r ∧ isLineEnd e = true := by
  obtain @⟨_, _, _, s₁, s₂, s₃, b, d, _, nb, _, hm, h₁, ht, h₂, hv, h₃, hd, hblock⟩ := h
  set mem := method ++ (s₁ ++ (target ++ (s₂ ++ (version ++ (s₃ ++ d :: b))))) with hmem
  obtain ⟨c₂, t₂, rfl, hc₂, -⟩ := ht.exists_cons
  obtain ⟨c₃, t₃, rfl, hc₃, -⟩ := hv.exists_cons
  have hat₁ : mem.drop 0 = method ++ (s₁ ++ (c₂ :: t₂ ++ (s₂ ++ (c₃ :: t₃ ++ (s₃ ++ d :: b))))) :=
    hmem
  have hfirst := getNextWord_eq hat₁ hm h₁ hc₂
  have hat₂ : mem.drop (0 + method.length + s₁.length) =
      c₂ :: t₂ ++ (s₂ ++ (c₃ :: t₃ ++ (s₃ ++ d :: b))) :=
    drop_add_of_drop_eq (drop_add_of_drop_eq hat₁)
  have hsecond := getNextWord_eq hat₂ ht h₂ hc₃
  have hat₃ : mem.drop (0 + method.length + s₁.length + (c₂ :: t₂).length + s₂.length) =
      c₃ :: t₃ ++ (s₃ ++ d :: b) := drop_add_of_drop_eq (drop_add_of_drop_eq hat₂)
  have hthird := getNextWord_eq hat₃ hv h₃ hd
  have hat : mem.drop (0 + method.length + s₁.length + (c₂ :: t₂).length + s₂.length +
      (c₃ :: t₃).length + s₃.length) = d :: b := drop_add_of_drop_eq (drop_add_of_drop_eq hat₃)
  have hfuel : (d :: b).length < fuel := by
    have hlen := congrArg List.length hmem
    simp only [List.length_append] at hlen
    omega
  obtain ⟨m, e, r, hloop, him, hdrop, he⟩ := linesFrom_eq hblock mem _ _ req.headers hat hfuel
  refine ⟨m, e, r, ?_, hdrop, he⟩
  rw [parseHttpHeaderIn, run_bind_ok hfirst, run_bind_ok hsecond, run_bind_ok hthird]
  have hoffset : 0 + method.length + s₁.length + (c₂ :: t₂).length + s₂.length +
      (c₃ :: t₃).length + s₃.length + nb =
      method.length + s₁.length + (c₂ :: t₂).length + s₂.length + (c₃ :: t₃).length +
        s₃.length + nb := by omega
  cases k with
  | folded =>
    rw [run_bind_error hloop]
    simp only [headOutcome, Prod.mk.injEq, true_and]
    omega
  | inside | clipped =>
    rw [run_bind_ok hloop]
    rcases htarget : parseTarget (c₂ :: t₂) req.params with f | ⟨path, params⟩
    · rw [run_bind_error (run_lift _ _)]
      simp only [headOutcome, htarget, Except.map, Prod.mk.injEq, true_and]
      omega
    · rw [run_bind_ok (run_lift _ _)]
      simp only [headOutcome, htarget, Except.map, run_pure, hoffset, Prod.mk.injEq, true_and]
      omega

theorem parseHttpHeader_eq {mem method target version : Bytes} {ls : List Bytes} {n : ℕ}
    {k : BlockEnd} (h : HeadText mem method target version ls n k)
    (hsize : mem.length ≤ kReqBufSize) (req : Request) :
    ∃ m e r, parseHttpHeader req mem = (headOutcome req method target version ls n k, m + 1) ∧
      mem.drop m = e :: r ∧ isLineEnd e = true := by
  rw [parseHttpHeader_eq_in]
  exact parseHttpHeaderIn_eq h (Nat.lt_succ_of_le hsize) req

/-- Blanks in front of the request line throw, once the first byte behind them is
read. -/
theorem parseHttpHeader_gap {mem : Bytes} (h : LeadingGap mem) (req : Request) :
    ∃ n, parseHttpHeader req mem = (.error .lengthError, n) ∧ n ≤ mem.length := by
  obtain ⟨s, d, r, rfl, hs, hd⟩ := h
  have hat : (s ++ d :: r).drop 0 = s ++ d :: r := rfl
  refine ⟨0 + s.length + 1, ?_, ?_⟩
  · rw [parseHttpHeader_eq_in, parseHttpHeaderIn]
    exact run_bind_error (getNextWord_gap hat hs hd) _
  · simp only [List.length_append, List.length_cons]
    omega

/-- Everything the parser can do. -/
theorem parseHttpHeader_cases {mem : Bytes} (hsize : mem.length ≤ kReqBufSize)
    (req : Request) :
    (parseHttpHeader req mem).1 = .error .undefined ∨ LeadingGap mem ∨
      ∃ method target version ls n k, HeadText mem method target version ls n k := by
  rcases getNextWord_cases mem 0 with ⟨n, hund, -⟩ | hgap | ⟨m, s₁, c₂, r₁, hat₁, hm, h₁, hc₂⟩
  · rw [parseHttpHeader_eq_in, parseHttpHeaderIn, run_bind_error hund]
    exact .inl rfl
  · exact .inr (.inl (by simpa [LeadingGap] using hgap))
  have hat₂ : mem.drop (0 + m.length + s₁.length) = c₂ :: r₁ :=
    drop_add_of_drop_eq (drop_add_of_drop_eq hat₁)
  rw [parseHttpHeader_eq_in, parseHttpHeaderIn, run_bind_ok (getNextWord_eq hat₁ hm h₁ hc₂)]
  rcases getNextWord_cases_word hat₂ hc₂ with
    ⟨n, hund, -⟩ | ⟨t, s₂, c₃, r₂, hat₂', ht, h₂, hc₃⟩
  · rw [run_bind_error hund]
    exact .inl rfl
  have hat₃ : mem.drop (0 + m.length + s₁.length + t.length + s₂.length) = c₃ :: r₂ :=
    drop_add_of_drop_eq (drop_add_of_drop_eq hat₂')
  rw [run_bind_ok (getNextWord_eq hat₂' ht h₂ hc₃)]
  rcases getNextWord_cases_word hat₃ hc₃ with
    ⟨n, hund, -⟩ | ⟨v, s₃, d, r₃, hat₃', hv, h₃, hd⟩
  · rw [run_bind_error hund]
    exact .inl rfl
  have hat : mem.drop (0 + m.length + s₁.length + t.length + s₂.length + v.length +
      s₃.length) = d :: r₃ := drop_add_of_drop_eq (drop_add_of_drop_eq hat₃')
  rw [run_bind_ok (getNextWord_eq hat₃' hv h₃ hd)]
  rcases linesFrom_cases hsize _ req.headers with ⟨n, hund⟩ | ⟨ls, n, k, hblock⟩
  · rw [run_bind_error hund]
    exact .inl rfl
  · rw [hat] at hblock
    have hmem : mem = m ++ (s₁ ++ (t ++ (s₂ ++ (v ++ (s₃ ++ d :: r₃))))) := by
      rw [← hat₃.symm.trans hat₃', ← hat₂.symm.trans hat₂', ← hat₁, List.drop_zero]
    have htext := HeadText.intro hm h₁ ht h₂ hv h₃ hd hblock
    rw [← hmem] at htext
    exact .inr (.inr ⟨m, t, v, ls, _, k, htext⟩)

theorem local_headerLoop (fuel buf : ℕ) (headers : Bytes) (stored : StringMap) :
    Local (headerLoop fuel buf headers stored) := by
  induction fuel generalizing buf headers stored with
  | zero => exact local_throw _
  | succ fuel ih =>
    rw [headerLoop]
    split
    · exact local_pure _
    · exact (local_lift _).bind fun _ => (local_getNextLine _).bind fun _ => ih _ _ _

theorem local_parseHttpHeader (req : Request) : Local (parseHttpHeader req) :=
  (local_getNextWord _).bind fun _ => (local_getNextWord _).bind fun _ =>
    (local_getNextWord _).bind fun _ => (local_getNextLine _).bind fun _ =>
      (local_headerLoop _ _ _ _).bind fun _ => (local_lift _).bind fun _ => local_pure _

end RequestMaker
end Calabash
