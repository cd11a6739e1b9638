import Calabash.Web.OrdinaryHead
import Calabash.Web.UrlCodec

/-!
# The parameter loop

The loop over the pieces of a query, with the indices it uses: the scan for `'='` reads a piece
and its terminating NUL, and goes on behind them where there is no `'='`. The value is copied
from an offset that is the length of the decoded key, so it always starts in front of the
`'='`: no query gives back the values it was made from.

## Main results

* `readParm_result` — the reading loop computes what `parseParam` does.
* `inPiece_visited_iff` — the loop stays inside its pieces unless the target overruns.
* `not_paramsDecoded` — the values of an encoded query are never decoded.
-/

namespace Calabash
namespace RequestMaker

open Reads
open PercentEncoding (encode hexDigit percent)

/-! ## The loop and its indices -/

/-- `while (th_parm[index] != '=') index++`. -/
def scanEqual : Reads UInt8 Fault ℕ := scanWhile .undefined (fun c => c != 61) none 0

/-- One pass of the loop, on the piece and its terminating NUL. -/
def readParm (parm : Bytes) : Reads UInt8 Fault (Bytes × Bytes) := do
  let index ← scanEqual
  let paramKey ← copy .undefined 0 index
  let paramKey ← lift (urlDecode paramKey)
  let index := max (index + 1) parm.length
  let paramVal ← makeString paramKey.length ((index : ℤ) - paramKey.length)
  let paramVal ← lift (urlDecode paramVal)
  return (paramKey, paramVal)

/-- The memory of a piece. -/
def pieceMemory (parm : Bytes) : Bytes := parm ++ [0]

/-- The offset and the length that `param_val` is built with. -/
def valueRange (parm : Bytes) : Except Fault (ℕ × ℤ) := do
  let index ← scanEqual.result (pieceMemory parm)
  let paramKey ← urlDecode (parm.take index)
  .ok (paramKey.length, (max (index + 1) parm.length : ℕ) - paramKey.length)

/-- The pieces that the loop comes to: it ends where a pass does not return. -/
def visitedPieces : List Bytes → List Bytes
  | [] => []
  | parm :: parms =>
    parm :: match (readParm parm).result (pieceMemory parm) with
      | .ok _ => visitedPieces parms
      | .error _ => []

/-- The pieces of a target that the loop comes to. -/
def visited (target : Bytes) : List Bytes :=
  match split target 63 with
  | [path, query] =>
    match urlDecode path with
    | .ok _ => visitedPieces (split query 38)
    | .error _ => []
  | _ => []

/-- A pass over the piece uses no index beyond the terminating NUL, its scan ends, and the value
is built from bytes of the piece. -/
structure InPiece (parm : Bytes) : Prop where
  indices : (readParm parm).reach (pieceMemory parm) ≤ parm.length + 1
  scan_ends : ∃ index, scanEqual.result (pieceMemory parm) = .ok index
  value_inside : ∀ start len, valueRange parm = .ok (start, len) →
    0 ≤ len ∧ start + len ≤ parm.length

/-! ## The scan -/

/-- The first `'='` of a piece. -/
theorem exists_split_equal {parm : Bytes} (h : 61 ∈ parm) :
    ∃ front back, parm = front ++ 61 :: back ∧ 61 ∉ front ∧ parm.idxOf 61 = front.length := by
  obtain ⟨front, back, heq, hfront⟩ := List.eq_append_cons_of_mem h
  refine ⟨front, back, heq, hfront, ?_⟩
  rw [heq, List.idxOf_append_of_notMem hfront, List.idxOf_cons_self, Nat.add_zero]

theorem ne_equal_of_not_mem {front : Bytes} (h : 61 ∉ front) :
    ∀ c ∈ front, (c != 61) = true := by
  intro c hc
  rw [bne_iff_ne]
  rintro rfl
  exact h hc

theorem scanEqual_found {parm : Bytes} (h : 61 ∈ parm) :
    scanEqual (pieceMemory parm) = (.ok (parm.idxOf 61), parm.idxOf 61 + 1) := by
  obtain ⟨front, back, heq, hfront, hidx⟩ := exists_split_equal h
  have hsplit : (pieceMemory parm).drop 0 = front ++ 61 :: (back ++ [0]) := by
    rw [List.drop_zero, pieceMemory, heq, List.append_assoc, List.cons_append]
  rw [scanEqual, scanWhile_eq hsplit (ne_equal_of_not_mem hfront) (by decide), Nat.zero_add, hidx]

theorem scanEqual_overrun {parm : Bytes} (h : 61 ∉ parm) :
    scanEqual (pieceMemory parm) = (.error .undefined, parm.length + 2) := by
  have hall : ∀ c ∈ (pieceMemory parm).drop 0, (c != 61) = true := by
    apply ne_equal_of_not_mem
    simpa [pieceMemory] using h
  rw [scanEqual, scanWhile_overrun hall]
  simp [pieceMemory]

/-! ## One pass -/

theorem length_urlDecode_le {s t : Bytes} (h : urlDecode s = .ok t) : t.length ≤ s.length := by
  fun_induction urlDecode s generalizing t with
  | case1 =>
    cases h
    exact Nat.le_refl _
  | case2 l r rest ih =>
    cases hrest : urlDecode rest with
    | error e =>
      rw [hrest] at h
      cases h
    | ok ret =>
      have hlen := ih hrest
      rw [hrest] at h
      cases h
      simp only [List.length_cons]
      omega
  | case3 cs hshort => cases h
  | case4 c cs hc ih =>
    cases hrest : urlDecode cs with
    | error e =>
      rw [hrest] at h
      cases h
    | ok ret =>
      have hlen := ih hrest
      rw [hrest] at h
      cases h
      simp only [List.length_cons]
      omega

/-- The bytes of a piece, read out of its memory. -/
theorem makeString_piece {parm : Bytes} {start : ℕ} (h : start ≤ parm.length) :
    makeString start ((parm.length : ℤ) - start) (pieceMemory parm) =
      (.ok (parm.drop start), parm.length) := by
  have hdrop : (pieceMemory parm).drop start = parm.drop start ++ [0] := by
    rw [pieceMemory, List.drop_append_of_le_length h]
  have hcopy := copy_eq (e := Fault.undefined) hdrop (by simp [pieceMemory]; omega)
  have hpos : ¬ (parm.length : ℤ) - start < 0 := by omega
  have hnat : ((parm.length : ℤ) - start).toNat = (parm.drop start).length := by
    rw [List.length_drop]
    omega
  rw [makeString, if_neg hpos, hnat, hcopy, List.length_drop]
  simp only [Prod.mk.injEq, true_and]
  omega

/-- A pass over a piece with a `'='`, by what its key decodes to. -/
theorem readParm_found {parm : Bytes} (h : 61 ∈ parm) :
    (readParm parm).result (pieceMemory parm) = parseParam parm ∧
      (readParm parm).reach (pieceMemory parm) ≤ parm.length := by
  have hlt : parm.idxOf 61 < parm.length := List.idxOf_lt_length_of_mem h
  have hcopy : copy Fault.undefined 0 (parm.idxOf 61) (pieceMemory parm) =
      (.ok (parm.take (parm.idxOf 61)), parm.idxOf 61) := by
    have hin : 0 + parm.idxOf 61 ≤ (pieceMemory parm).length := by
      rw [pieceMemory, List.length_append]
      omega
    rw [copy, if_pos hin, List.drop_zero, pieceMemory,
      List.take_append_of_le_length (Nat.le_of_lt hlt), Nat.zero_add]
  have hmax : max (parm.idxOf 61 + 1) parm.length = parm.length := Nat.max_eq_right hlt
  rw [Reads.result, Reads.reach, readParm, run_bind_ok (scanEqual_found h), run_bind_ok hcopy]
  cases hkey : urlDecode (parm.take (parm.idxOf 61)) with
  | error e =>
    have hparse : parseParam parm = .error e := by
      simp only [parseParam, if_pos hlt, hkey, Bind.bind, Except.bind]
    rw [run_bind_error (run_lift _ _), hparse]
    exact ⟨rfl, by simp only; omega⟩
  | ok key =>
    have hle : key.length ≤ parm.length := by
      have hdec := length_urlDecode_le hkey
      rw [List.length_take] at hdec
      omega
    have hall : (parm.drop key.length).take (parm.length - key.length) = parm.drop key.length :=
      List.take_of_length_le (by rw [List.length_drop])
    have hparse : parseParam parm =
        (urlDecode (parm.drop key.length)).map fun val => (key, val) := by
      simp only [parseParam, if_pos hlt, hkey, Bind.bind, Except.bind, hmax, hall]
      rfl
    rw [run_bind_ok (run_lift _ _), hparse]
    simp only [hmax, run_bind_ok (makeString_piece hle)]
    cases hval : urlDecode (parm.drop key.length) with
    | error e =>
      rw [run_bind_error (run_lift _ _)]
      exact ⟨rfl, by simp only; omega⟩
    | ok val =>
      rw [run_bind_ok (run_lift _ _)]
      exact ⟨rfl, by simp only [run_pure]; omega⟩

/-- A pass over a piece without a `'='`. -/
theorem readParm_overrun {parm : Bytes} (h : 61 ∉ parm) :
    readParm parm (pieceMemory parm) = (.error .undefined, parm.length + 2) :=
  run_bind_error (scanEqual_overrun h) _

/-- The reading loop computes what `parseParam` does. -/
theorem readParm_result (parm : Bytes) :
    (readParm parm).result (pieceMemory parm) = parseParam parm := by
  by_cases h : 61 ∈ parm
  · exact (readParm_found h).1
  · have hidx : ¬ parm.idxOf 61 < parm.length := by
      rw [List.idxOf_of_notMem h]
      exact Nat.lt_irrefl _
    rw [Reads.result, readParm_overrun h, parseParam, if_neg hidx]

theorem inPiece_iff (parm : Bytes) : InPiece parm ↔ 61 ∈ parm := by
  constructor
  · intro hin
    by_contra h
    have hreach := hin.indices
    rw [Reads.reach, readParm_overrun h] at hreach
    simp only at hreach
    omega
  · intro h
    have hlt : parm.idxOf 61 < parm.length := List.idxOf_lt_length_of_mem h
    have hscan : scanEqual.result (pieceMemory parm) = .ok (parm.idxOf 61) := by
      rw [Reads.result, scanEqual_found h]
    refine ⟨Nat.le_succ_of_le (readParm_found h).2, ⟨_, hscan⟩, ?_⟩
    intro start len hrange
    rw [valueRange, hscan] at hrange
    simp only [Bind.bind, Except.bind] at hrange
    cases hkey : urlDecode (parm.take (parm.idxOf 61)) with
    | error e =>
      rw [hkey] at hrange
      cases hrange
    | ok key =>
      rw [hkey] at hrange
      cases hrange
      have hdec := length_urlDecode_le hkey
      rw [List.length_take] at hdec
      omega

/-! ## The loop -/

/-- The loop meets a piece without `'='` exactly when that piece decides its fate. -/
theorem inPiece_visitedPieces_iff (parms : List Bytes) :
    (∀ parm ∈ visitedPieces parms, InPiece parm) ↔ paramsFate parms ≠ .overruns := by
  induction parms with
  | nil => simp [visitedPieces, paramsFate]
  | cons parm parms ih =>
    have hfate := parseParam_fate parm
    have hmem : 61 ∈ parm ↔ paramFate parm ≠ .overruns := by
      rw [paramFate]
      split
      · split <;> simp [*]
      · simp [*]
    simp only [visitedPieces, List.forall_mem_cons, inPiece_iff, hmem, readParm_result]
    cases hf : paramFate parm with
    | fine =>
      rw [hf] at hfate
      obtain ⟨kv, hkv⟩ := hfate
      simp only [hkv, paramsFate, hf, ← ih, inPiece_iff]
      simp
    | throws =>
      rw [hf] at hfate
      have herror : parseParam parm = .error .invalidArgument := hfate
      simp [herror, paramsFate, hf]
    | overruns => simp [paramsFate, hf]

/-- For every target the loop stays inside the pieces it comes to, unless the target
overruns. -/
theorem inPiece_visited_iff (target : Bytes) :
    (∀ parm ∈ visited target, InPiece parm) ↔ targetFate target ≠ .overruns := by
  rcases hsplit : split target 63 with _ | ⟨path, _ | ⟨query, _ | ⟨third, more⟩⟩⟩
  · simp [visited, targetFate, queryParms, pathPart, hsplit, escapesComplete, paramsFate]
  · simp only [visited, targetFate, queryParms, pathPart, hsplit, List.headD_cons, paramsFate]
    split <;> simp
  · cases hpath : escapesComplete path with
    | false =>
      simp [visited, targetFate, pathPart, hsplit, hpath, urlDecode_error hpath]
    | true =>
      obtain ⟨out, hout, -⟩ := urlDecode_eq hpath
      simp only [visited, targetFate, queryParms, pathPart, hsplit, List.headD_cons, hpath, hout,
        if_true]
      exact inPiece_visitedPieces_iff _
  · simp only [visited, targetFate, queryParms, pathPart, hsplit, List.headD_cons, paramsFate]
    split <;> simp

/-- On `"/?a"` the scan goes on behind the terminating NUL. -/
theorem visited_leaves_piece : ¬ ∀ target, ∀ parm ∈ visited target, InPiece parm := by
  intro hall
  have hmem : ascii ['a'] ∈ visited (ascii ['/', '?', 'a']) := by decide +kernel
  exact absurd ((inPiece_iff _).mp (hall _ _ hmem)) (by decide)

/-! ## Queries made from pairs -/

/-- The bytes that are written as escapes: `'%'`, `'&'`, `'='`, `'?'`, white space, control
characters and what is above 127. -/
def queryReserved (c : UInt8) : Bool :=
  c ≤ 32 || 127 ≤ c || c == 37 || c == 38 || c == 61 || c == 63

/-- `enc(key)=enc(value)`. -/
def pairText (pair : Bytes × Bytes) : Bytes :=
  encode queryReserved pair.1 ++ 61 :: encode queryReserved pair.2

/-- The pairs, joined by `'&'`. -/
def queryText (pairs : List (Bytes × Bytes)) : Bytes := [38].intercalate (pairs.map pairText)

/-- The path, `'?'` and the pairs. -/
def targetText (path : Bytes) (pairs : List (Bytes × Bytes)) : Bytes :=
  path ++ 63 :: queryText pairs

/-- The parser returned, with the path and exactly these parameters. -/
def ParamsDecoded (path : Bytes) (pairs : List (Bytes × Bytes))
    (out : Except Fault (ℕ × Request)) : Prop :=
  ∃ size req, out = .ok (size, req) ∧ req.path = path ∧
    ∀ key, req.params.lookup key = pairs.lookup key

theorem queryReserved_plain {c : UInt8} {s : Bytes} (hc : c ∈ encode queryReserved s) :
    isBlank c = false ∧ c ≠ 38 ∧ c ≠ 61 ∧ c ≠ 63 := by
  have hdigit : ∀ n : Fin 16, isBlank (hexDigit n.val) = false ∧ hexDigit n.val ≠ 38 ∧
      hexDigit n.val ≠ 61 ∧ hexDigit n.val ≠ 63 := by decide
  have hplain : ∀ c, queryReserved c = false → isBlank c = false ∧ c ≠ 38 ∧ c ≠ 61 ∧ c ≠ 63 :=
    Base64.of_fin (by decide +kernel)
  rcases PercentEncoding.mem_encode hc with hfree | rfl | ⟨n, hn, rfl⟩
  · exact hplain c hfree
  · decide
  · exact hdigit ⟨n, hn⟩

/-- Pieces without the separator, none of them empty, are what they are split into. -/
theorem split_intercalate {ch : UInt8} {parms : List Bytes}
    (h : ∀ parm ∈ parms, parm ≠ [] ∧ ch ∉ parm) : split ([ch].intercalate parms) ch = parms := by
  induction parms with
  | nil => rfl
  | cons parm parms ih =>
    obtain ⟨hne, hch⟩ := h parm List.mem_cons_self
    have hrest := ih fun x hx => h x (List.mem_cons_of_mem _ hx)
    cases parms with
    | nil =>
      rw [List.intercalate_singleton, split_plain hch hne]
    | cons next parms =>
      rw [List.intercalate_cons_cons, List.append_assoc, List.singleton_append,
        split_append_cons hch, hrest]

theorem not_mem_intercalate {c ch : UInt8} (hne : c ≠ ch) {parms : List Bytes}
    (h : ∀ parm ∈ parms, c ∉ parm) : c ∉ [ch].intercalate parms := by
  induction parms with
  | nil => exact List.not_mem_nil
  | cons parm parms ih =>
    have hrest := ih fun x hx => h x (List.mem_cons_of_mem _ hx)
    have hparm := h parm List.mem_cons_self
    cases parms with
    | nil => rwa [List.intercalate_singleton]
    | cons next parms =>
      rw [List.intercalate_cons_cons]
      simp only [List.mem_append, List.mem_singleton, not_or]
      exact ⟨⟨hparm, hne⟩, hrest⟩

/-! ## Decoding them -/

theorem upperEscapes_append_plain {front : Bytes} (h : percent ∉ front) (rest : Bytes) :
    upperEscapes (front ++ rest) = upperEscapes rest := by
  induction front with
  | nil => rfl
  | cons c front ih =>
    have hc := List.ne_of_not_mem_cons h
    rw [List.cons_append, upperEscapes_plain (Ne.symm hc), ih (List.not_mem_of_not_mem_cons h)]

/-- An encoded text that was cut, a `'='` and another encoded text. -/
theorem urlDecode_cut {digits : Bytes} (hdigits : percent ∉ digits) (key val : Bytes) :
    urlDecode (digits ++ (encode queryReserved key ++ 61 :: encode queryReserved val)) =
      .ok (digits ++ (key ++ 61 :: val)) := by
  apply urlDecode_of_decode
  · have hval : upperEscapes (encode queryReserved val ++ []) = upperEscapes [] :=
      upperEscapes_encode_append rfl val []
    rw [List.append_nil] at hval
    rw [upperEscapes_append_plain hdigits, upperEscapes_encode_append rfl,
      upperEscapes_plain (by decide), hval]
    rfl
  · rw [PercentEncoding.decode_append_plain hdigits, PercentEncoding.decode_encode_append rfl,
      PercentEncoding.decode_plain (by decide), PercentEncoding.decode_encode rfl]
    rfl

/-- The value of a pair is decoded from behind as many bytes as the decoded key has, so the
`'='` is still in front of it. -/
theorem parseParam_pairText (pair : Bytes × Bytes) :
    ∃ front, parseParam (pairText pair) = .ok (pair.1, front ++ 61 :: pair.2) := by
  obtain ⟨key, val⟩ := pair
  have hkey : 61 ∉ encode queryReserved key := fun h => (queryReserved_plain h).2.2.1 rfl
  have hidx : (pairText (key, val)).idxOf 61 = (encode queryReserved key).length := by
    rw [pairText, List.idxOf_append_of_notMem hkey, List.idxOf_cons_self, Nat.add_zero]
  have hlt : (encode queryReserved key).length < (pairText (key, val)).length := by
    simp [pairText]
  have htake : (pairText (key, val)).take (encode queryReserved key).length =
      encode queryReserved key := List.take_left
  have hcut : (pairText (key, val)).drop key.length =
      (encode queryReserved key).drop key.length ++ 61 :: encode queryReserved val :=
    List.drop_append_of_le_length (PercentEncoding.length_le_encode _ _)
  obtain ⟨digits, key', hdrop, hdigits⟩ :=
    PercentEncoding.exists_drop_encode queryReserved key key.length
  have hval : urlDecode ((pairText (key, val)).drop key.length) =
      .ok (digits ++ key' ++ 61 :: val) := by
    rw [hcut, hdrop, List.append_assoc, urlDecode_cut hdigits, List.append_assoc]
  have hdecoded : urlDecode (encode queryReserved key) = .ok key := urlDecode_encode rfl key
  refine ⟨digits ++ key', ?_⟩
  have hmax : max ((encode queryReserved key).length + 1) (pairText (key, val)).length =
      (pairText (key, val)).length := Nat.max_eq_right hlt
  have hall : ((pairText (key, val)).drop key.length).take
      ((pairText (key, val)).length - key.length) = (pairText (key, val)).drop key.length :=
    List.take_of_length_le (by rw [List.length_drop])
  simp only [parseParam, hidx, if_pos hlt, htake, hdecoded, Bind.bind, Except.bind, hmax, hall,
    hval]

/-- The parameters of an encoded query: every key is there, and its value is behind a `'='`. -/
theorem parseParams_pairs {pairs : List (Bytes × Bytes)} (hkeys : (pairs.map Prod.fst).Nodup)
    (params : StringMap) :
    ∃ out, parseParams (pairs.map pairText) params = .ok out ∧
      (∀ pair ∈ pairs, params.lookup pair.1 = none →
        ∃ front, out.lookup pair.1 = some (front ++ 61 :: pair.2)) ∧
      ∀ key ∉ pairs.map Prod.fst, out.lookup key = params.lookup key := by
  induction pairs generalizing params with
  | nil => exact ⟨params, rfl, by simp, fun _ _ => rfl⟩
  | cons pair pairs ih =>
    obtain ⟨front, hpair⟩ := parseParam_pairText pair
    obtain ⟨hfresh, hrest⟩ := List.nodup_cons.mp hkeys
    obtain ⟨out, hout, hvalues, hother⟩ :=
      ih hrest (emplace params pair.1 (front ++ 61 :: pair.2))
    refine ⟨out, ?_, ?_, ?_⟩
    · simp only [List.map_cons, parseParams, hpair, Bind.bind, Except.bind]
      exact hout
    · intro p hp hnone
      rcases List.mem_cons.mp hp with rfl | hp
      · exact ⟨front, by rw [hother _ hfresh, lookup_emplace_self, hnone, Option.getD_none]⟩
      · have hne : p.1 ≠ pair.1 := by
          intro heq
          exact hfresh (heq ▸ List.mem_map_of_mem hp)
        exact hvalues p hp (by rw [lookup_emplace_ne _ hne, hnone])
    · intro key hkey
      rw [List.map_cons, List.mem_cons, not_or] at hkey
      rw [hother key hkey.2, lookup_emplace_ne _ hkey.1]

/-- What the target part of the parser makes of an encoded query. -/
theorem parseTarget_targetText {path : Bytes} (hpath : 63 ∉ path ∧ 37 ∉ path)
    {pairs : List (Bytes × Bytes)} (hne : pairs ≠ []) (hkeys : (pairs.map Prod.fst).Nodup) :
    ∃ params : StringMap, parseTarget (targetText path pairs) ∅ = .ok (path, params) ∧
      ∀ pair ∈ pairs, ∃ front, params.lookup pair.1 = some (front ++ 61 :: pair.2) := by
  have hpiece : ∀ c pair, c ∈ pairText pair → c ≠ 38 ∧ c ≠ 63 := by
    intro c pair hc
    rcases List.mem_append.mp hc with hc | hc
    · exact ⟨(queryReserved_plain hc).2.1, (queryReserved_plain hc).2.2.2⟩
    · rcases List.mem_cons.mp hc with rfl | hc
      · decide
      · exact ⟨(queryReserved_plain hc).2.1, (queryReserved_plain hc).2.2.2⟩
  have hparms : ∀ parm ∈ pairs.map pairText, parm ≠ [] ∧ 38 ∉ parm := by
    intro parm hparm
    obtain ⟨pair, -, rfl⟩ := List.mem_map.mp hparm
    exact ⟨by simp [pairText], fun h => (hpiece _ pair h).1 rfl⟩
  have hquery : 63 ∉ queryText pairs := by
    apply not_mem_intercalate (by decide)
    intro parm hparm
    obtain ⟨pair, -, rfl⟩ := List.mem_map.mp hparm
    exact fun h => (hpiece _ pair h).2 rfl
  have hsome : queryText pairs ≠ [] := by
    intro hnil
    have hsplit := split_intercalate hparms
    rw [queryText] at hnil
    rw [hnil] at hsplit
    exact hne (List.map_eq_nil_iff.mp hsplit.symm)
  have htarget : split (targetText path pairs) 63 = [path, queryText pairs] := by
    rw [targetText, split_append_cons hpath.1, split_plain hquery hsome]
  obtain ⟨params, hparams, hvalues, -⟩ := parseParams_pairs hkeys ∅
  refine ⟨params, ?_, fun pair hpair => hvalues pair hpair (AList.lookup_empty _)⟩
  rw [parseTarget, htarget]
  simp only [OrdinaryHead.urlDecode_plain hpath.2, Bind.bind, Except.bind]
  rw [queryText, split_intercalate hparms, hparams]

/-- A parser that returns has taken the second word apart. -/
theorem parseHttpHeader_target {method s₁ target s₂ rest : Bytes} {d : UInt8} (hm : Word method)
    (h₁ : Gap s₁) (ht : Word target) (h₂ : Gap s₂) (hd : isBlank d = false) {req : Request}
    {size : ℕ} {found : Request}
    (h : (parseHttpHeader req).result (method ++ (s₁ ++ (target ++ (s₂ ++ d :: rest)))) =
      .ok (size, found)) :
    parseTarget target req.params = .ok (found.path, found.params) := by
  obtain ⟨c₂, t₂, htarget, hc₂, -⟩ := ht.exists_cons
  have hat₁ : (method ++ (s₁ ++ (target ++ (s₂ ++ d :: rest)))).drop 0 =
      method ++ (s₁ ++ (target ++ (s₂ ++ d :: rest))) := rfl
  have hat₂ := drop_add_of_drop_eq (drop_add_of_drop_eq hat₁)
  have hfirst := hat₁
  rw [htarget] at hfirst
  rw [Reads.result, parseHttpHeader_eq_in, parseHttpHeaderIn] at h
  conv at h =>
    lhs
    rw [htarget]
  rw [run_bind_ok (getNextWord_eq hfirst hm h₁ hc₂)] at h
  rw [htarget] at hat₂ ht ⊢
  rw [run_bind_ok (getNextWord_eq hat₂ ht h₂ hd)] at h
  obtain ⟨version, _, -, h, -⟩ := bind_eq_ok h
  obtain ⟨lines, _, -, h, -⟩ := bind_eq_ok h
  obtain ⟨t, _, hparsed, hret, -⟩ := bind_eq_ok h
  simp only [run_lift, Prod.mk.injEq] at hparsed
  simp only [run_pure, Except.ok.injEq, Prod.mk.injEq] at hret
  rw [hparsed.1, ← hret.2]

/-- Whatever was stored for an encoded query, it is not its pairs. -/
theorem not_lookup_of_target {path path' : Bytes} {pairs : List (Bytes × Bytes)}
    (hpath : 63 ∉ path ∧ 37 ∉ path) (hne : pairs ≠ []) (hkeys : (pairs.map Prod.fst).Nodup)
    {stored : StringMap} (h : parseTarget (targetText path pairs) ∅ = .ok (path', stored)) :
    ¬ ∀ key, stored.lookup key = pairs.lookup key := by
  intro hall
  obtain ⟨params, hparse, hvalues⟩ := parseTarget_targetText hpath hne hkeys
  obtain ⟨⟨key, val⟩, more, rfl⟩ := List.exists_cons_of_ne_nil hne
  obtain ⟨front, hfront⟩ := hvalues (key, val) List.mem_cons_self
  have hsame : params = stored := by
    have hok := hparse.symm.trans h
    simp only [Except.ok.injEq, Prod.mk.injEq] at hok
    exact hok.2
  -- The stored value is longer than the value by the `'='` at least.
  have hlookup := hall key
  rw [← hsame, hfront, List.lookup_cons_self, Option.some.injEq] at hlookup
  have hlen := congrArg List.length hlookup
  simp only [List.length_append, List.length_cons] at hlen
  omega

/-- The values of an encoded query are never decoded. -/
theorem not_paramsDecoded {method s₁ s₂ path rest : Bytes} {pairs : List (Bytes × Bytes)}
    {d : UInt8} (hm : Word method) (h₁ : Gap s₁) (ht : Word (targetText path pairs))
    (h₂ : Gap s₂) (hd : isBlank d = false) (hpath : 63 ∉ path ∧ 37 ∉ path) (hne : pairs ≠ [])
    (hkeys : (pairs.map Prod.fst).Nodup) :
    ¬ ParamsDecoded path pairs ((parseHttpHeader {}).result
      (method ++ (s₁ ++ (targetText path pairs ++ (s₂ ++ d :: rest))))) := by
  rintro ⟨size, req, hrun, -, hparams⟩
  have htarget := parseHttpHeader_target hm h₁ ht h₂ hd hrun
  exact not_lookup_of_target hpath hne hkeys htarget hparams

theorem not_paramsDecoded_one :
    ¬ ParamsDecoded (ascii ['/']) [(ascii ['a'], ascii ['1'])] ((parseHttpHeader {}).result
      (ascii ['G', 'E', 'T'] ++ (ascii [' '] ++
        (targetText (ascii ['/']) [(ascii ['a'], ascii ['1'])] ++ (ascii [' '] ++ [86]))))) :=
  not_paramsDecoded (by decide) (by decide) (by decide +kernel) (by decide) (by decide) (by decide)
    (by decide) (by decide)

/-- The query `"?a=1"` stores `"=1"` under `"a"`. -/
theorem paramsDecoded_fails :
    ¬ ∀ (mem method version : Bytes) (ls : List Bytes) (n : ℕ) (path : Bytes)
      (pairs : List (Bytes × Bytes)),
      HeadText mem method (targetText path pairs) version ls n .inside →
      mem.length ≤ kReqBufSize → 63 ∉ path ∧ 37 ∉ path → pairs ≠ [] →
      (pairs.map Prod.fst).Nodup →
      ParamsDecoded path pairs ((parseHttpHeader {}).result mem) := by
  intro hall
  have hline : Message.HeaderLine (ascii ['A', ':', ' ', 'b']) :=
    ⟨⟨65, ascii [':', ' ', 'b'], rfl, rfl⟩, by decide, by decide⟩
  have hlines : ∀ l ∈ [(ascii ['A', ':', ' ', 'b'], true)], Message.HeaderLine l.1 := by
    simpa using hline
  have htext := @Message.headText_lines (ascii ['G', 'E', 'T'])
    (targetText (ascii ['/']) [(ascii ['a'], ascii ['1'])]) (ascii ['V']) (by decide)
    (by decide +kernel) (by decide) true _ (by decide) hlines true []
  obtain ⟨size, req, hrun, -, hparams⟩ := hall _ _ _ _ _ _ _ htext (by decide +kernel)
    (by decide) (by decide) (by decide)
  obtain ⟨m, e, r, hhead, -, -⟩ := parseHttpHeader_eq htext (by decide +kernel) {}
  rw [Reads.result, hhead] at hrun
  obtain ⟨params, hparse, -⟩ := @parseTarget_targetText (ascii ['/']) (by decide)
    [(ascii ['a'], ascii ['1'])] (by decide) (by decide)
  have hreq : params = req.params := by
    simp only [headOutcome, hparse, Except.map, Except.ok.injEq, Prod.mk.injEq] at hrun
    rw [← hrun.2]
  rw [← hreq] at hparams
  exact not_lookup_of_target (by decide) (by decide) (by decide) hparse hparams

end RequestMaker
end Calabash
