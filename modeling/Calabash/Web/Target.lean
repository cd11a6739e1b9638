import Calabash.Web.Split

/-!
# The request target

What `parseTarget` does with a target can be read off the target: whether the
escapes of its path are complete, and, when it has exactly one `'?'`-separated
query, what the first of its parameters that does not read well looks like. A
parameter without `'='` sends the scan past the end of its piece; one whose key
or value ends in the middle of an escape throws.

`targetFate` is that reading, and `parseTarget_fate` says it is right.
-/

namespace Calabash
namespace RequestMaker

/-! ## Escapes -/

/-- Every `'%'` met from left to right has two bytes behind it. -/
def escapesComplete : Bytes → Bool
  | [] => true
  | c :: cs =>
    if c = 37 then
      match cs with
      | _ :: _ :: rest => escapesComplete rest
      | _ => false
    else escapesComplete cs

/-- The length of the decoded text: an escape is one byte. -/
def decodedLength : Bytes → ℕ
  | [] => 0
  | c :: cs =>
    if c = 37 then
      match cs with
      | _ :: _ :: rest => decodedLength rest + 1
      | _ => 0
    else decodedLength cs + 1

@[simp] theorem escapesComplete_plain {c : UInt8} (hc : c ≠ 37) (cs : Bytes) :
    escapesComplete (c :: cs) = escapesComplete cs := by
  conv_lhs => unfold escapesComplete
  exact if_neg hc

@[simp] theorem decodedLength_plain {c : UInt8} (hc : c ≠ 37) (cs : Bytes) :
    decodedLength (c :: cs) = decodedLength cs + 1 := by
  conv_lhs => unfold decodedLength
  exact if_neg hc

/-- Complete escapes decode. -/
theorem urlDecode_eq {s : Bytes} (h : escapesComplete s = true) :
    ∃ r, urlDecode s = .ok r ∧ r.length = decodedLength s := by
  fun_induction urlDecode s with
  | case1 => exact ⟨[], rfl, rfl⟩
  | case2 l r rest ih =>
    obtain ⟨t, ht, hlen⟩ := ih (by simpa [escapesComplete] using h)
    exact ⟨urlCodeGetHEX l r :: t, by rw [ht]; rfl, by simp [decodedLength, hlen]⟩
  | case3 cs hshort =>
    rw [escapesComplete, if_pos rfl] at h
    · cases h
    · exact hshort
  | case4 c cs hc ih =>
    rw [escapesComplete_plain hc] at h
    obtain ⟨t, ht, hlen⟩ := ih h
    refine ⟨c :: t, by rw [ht]; rfl, ?_⟩
    rw [decodedLength_plain hc, List.length_cons, hlen]

/-- An incomplete escape throws. -/
theorem urlDecode_error {s : Bytes} (h : escapesComplete s = false) :
    urlDecode s = .error .invalidArgument := by
  fun_induction urlDecode s with
  | case1 => cases h
  | case2 l r rest ih =>
    rw [ih (by simpa [escapesComplete] using h)]
    rfl
  | case3 cs hshort => rfl
  | case4 c cs hc ih =>
    rw [escapesComplete_plain hc] at h
    rw [ih h]
    rfl

/-! ## Parameters -/

/-- What becomes of a target, or of one of its parameters. -/
inductive Fate
  /-- It is taken apart. -/
  | fine
  /-- `UrlDecode` throws. -/
  | throws
  /-- The scan for `'='` leaves the piece. -/
  | overruns
  deriving DecidableEq, Repr

/-- The bytes before the first `'='`. -/
def rawKey (parm : Bytes) : Bytes := parm.take (parm.idxOf 61)

/-- The bytes the value is decoded from. -/
def rawValue (parm : Bytes) : Bytes := parm.drop (decodedLength (rawKey parm))

def paramFate (parm : Bytes) : Fate :=
  if 61 ∈ parm then
    if escapesComplete (rawKey parm) && escapesComplete (rawValue parm) then .fine else .throws
  else .overruns

/-- The first parameter that does not read well decides. -/
def paramsFate : List Bytes → Fate
  | [] => .fine
  | parm :: parms =>
    match paramFate parm with
    | .fine => paramsFate parms
    | f => f

/-- The fault a fate stands for. -/
def Fate.fault : Fate → Option Fault
  | .fine => none
  | .throws => some .invalidArgument
  | .overruns => some .undefined

/-- An outcome is as the fate says: a value, or the fault. -/
def Fate.Describes {α : Type} (f : Fate) (r : Except Fault α) : Prop :=
  match f.fault with
  | none => ∃ a, r = .ok a
  | some e => r = .error e

theorem parseParam_fate (parm : Bytes) : (paramFate parm).Describes (parseParam parm) := by
  by_cases heq : 61 ∈ parm
  · have hidx : parm.idxOf 61 < parm.length := List.idxOf_lt_length_of_mem heq
    by_cases hkey : escapesComplete (rawKey parm) = true
    · obtain ⟨k, hk, hlen⟩ := urlDecode_eq hkey
      have hval : (parm.drop k.length).take
          (max (parm.idxOf 61 + 1) parm.length - k.length) = rawValue parm := by
        rw [rawValue, ← hlen, List.take_of_length_le]
        rw [List.length_drop]
        omega
      by_cases hv : escapesComplete (rawValue parm) = true
      · obtain ⟨v, hvd, -⟩ := urlDecode_eq hv
        have hrun : parseParam parm = .ok (k, v) := by
          rw [rawKey] at hk
          simp only [parseParam, if_pos hidx, hk, bind, Except.bind, hval, hvd]
        simp only [paramFate, if_pos heq, hkey, hv, Bool.and_self, if_true, Fate.Describes,
          Fate.fault]
        exact ⟨_, hrun⟩
      · have hvd := urlDecode_error (by simpa using hv)
        have hrun : parseParam parm = .error .invalidArgument := by
          rw [rawKey] at hk
          simp only [parseParam, if_pos hidx, hk, bind, Except.bind, hval, hvd]
        simp [paramFate, heq, hv, Fate.Describes, Fate.fault, hrun]
    · have hkd := urlDecode_error (by simpa using hkey)
      have hrun : parseParam parm = .error .invalidArgument := by
        rw [rawKey] at hkd
        simp only [parseParam, if_pos hidx, hkd, bind, Except.bind]
      simp [paramFate, heq, hkey, Fate.Describes, Fate.fault, hrun]
  · have hidx : ¬ parm.idxOf 61 < parm.length := by
      rw [List.idxOf_lt_length_iff]
      exact heq
    simp [paramFate, heq, Fate.Describes, Fate.fault, parseParam]

theorem parseParams_fate (parms : List Bytes) (params : StringMap) :
    (paramsFate parms).Describes (parseParams parms params) := by
  induction parms generalizing params with
  | nil => exact ⟨params, rfl⟩
  | cons parm parms ih =>
    have hp := parseParam_fate parm
    cases hf : paramFate parm with
    | fine =>
      rw [hf] at hp
      obtain ⟨⟨k, v⟩, hkv⟩ := hp
      simp only [paramsFate, hf, parseParams, hkv, bind, Except.bind]
      exact ih _
    | throws | overruns =>
      rw [hf] at hp
      simp only [Fate.Describes, Fate.fault] at hp
      simp [paramsFate, hf, parseParams, hp, bind, Except.bind, Fate.Describes, Fate.fault]

/-! ## The target -/

/-- The part before the first `'?'`. -/
def pathPart (target : Bytes) : Bytes := (split target 63).headD []

/-- The parameters the parser looks at: those of the query, if there is exactly
one. -/
def queryParms (target : Bytes) : List Bytes :=
  match split target 63 with
  | [_, query] => split query 38
  | _ => []

def targetFate (target : Bytes) : Fate :=
  if escapesComplete (pathPart target) then paramsFate (queryParms target) else .throws

theorem parseTarget_fate {target : Bytes} (hne : target ≠ []) (params : StringMap) :
    (targetFate target).Describes (parseTarget target params) := by
  obtain ⟨first, others, hpieces⟩ := List.exists_cons_of_ne_nil (@split_ne_nil 63 _ hne)
  have hpath : pathPart target = first := by simp [pathPart, hpieces]
  by_cases hesc : escapesComplete first = true
  · obtain ⟨path, hdec, -⟩ := urlDecode_eq hesc
    match hothers : others with
    | [query] =>
      have hp := parseParams_fate (split query 38) params
      have hfate : targetFate target = paramsFate (split query 38) := by
        simp [targetFate, queryParms, hpath, hesc, hpieces]
      rw [hfate]
      cases hf : paramsFate (split query 38) with
      | fine =>
        rw [hf] at hp
        obtain ⟨ps, hps⟩ := hp
        simp only [parseTarget, hpieces, hdec, hps, bind, Except.bind]
        exact ⟨_, rfl⟩
      | throws | overruns =>
        rw [hf] at hp
        simp only [Fate.Describes, Fate.fault] at hp
        simp [parseTarget, hpieces, hdec, hp, bind, Except.bind, Fate.Describes, Fate.fault]
    | [] | _ :: _ :: _ =>
      have hfate : targetFate target = .fine := by
        simp [targetFate, queryParms, hpath, hesc, hpieces, paramsFate]
      rw [hfate]
      simp only [parseTarget, hpieces, hdec, bind, Except.bind]
      exact ⟨_, rfl⟩
  · have hdec := urlDecode_error (by simpa using hesc)
    simp [targetFate, hpath, hesc, parseTarget, hpieces, hdec, bind, Except.bind,
      Fate.Describes, Fate.fault]

end RequestMaker
end Calabash
