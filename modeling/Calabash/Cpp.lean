import Mathlib.Data.List.AList
import Mathlib.Data.Int.Order.Basic
import Mathlib.Algebra.Group.Int.Defs
import Mathlib.Algebra.Group.Nat.Defs

/-!
# The parts of C++ the server leans on

Byte strings, the ways a call can end without a value, conversions to `size_t`,
`strtol`, and `std::map<string, string>` with `emplace`.
-/

namespace Calabash

/-- A `std::string`, or a run of `char`s. -/
abbrev Bytes := List UInt8

/-- The bytes of an ASCII text. -/
def ascii (text : List Char) : Bytes := text.map fun c => UInt8.ofNat c.toNat

/-- How a call ends when it does not return. -/
inductive Fault
  /-- `std::length_error`, from a string asked to hold more than it can. -/
  | lengthError
  /-- `std::invalid_argument`. -/
  | invalidArgument
  /-- An access outside every object: the language gives the run no meaning. -/
  | undefined
  deriving DecidableEq, Repr

/-- Conversion of a signed value to the 64-bit `size_t`. -/
def toSizeT (z : ℤ) : ℕ := (z % 2 ^ 64).toNat

theorem toSizeT_natCast {n : ℕ} (h : n < 2 ^ 64) : toSizeT n = n := by
  have hz : (n : ℤ) % 2 ^ 64 = n := Int.emod_eq_of_lt (by omega) (by exact_mod_cast h)
  rw [toSizeT, hz, Int.toNat_natCast]

/-! ## `strtol` -/

/-- `isspace` in the "C" locale. -/
def isSpace (c : UInt8) : Bool := c == 32 || (9 ≤ c && c ≤ 13)

def isDigit (c : UInt8) : Bool := 48 ≤ c && c ≤ 57

theorem isDigit_iff {c : UInt8} : isDigit c = true ↔ 48 ≤ c.toNat ∧ c.toNat ≤ 57 := by
  simp [isDigit, UInt8.le_iff_toNat_le]

/-- A digit is neither white space nor a sign. -/
theorem isDigit_plain {c : UInt8} (h : isDigit c = true) :
    isSpace c = false ∧ c ≠ 45 ∧ c ≠ 43 := by
  have hc := isDigit_iff.mp h
  refine ⟨?_, ?_, ?_⟩
  · simp only [isSpace, Bool.or_eq_false_iff, beq_eq_false_iff_ne, Bool.and_eq_false_iff,
      decide_eq_false_iff_not, UInt8.le_iff_toNat_le, ne_eq, ← UInt8.toNat_inj]
    refine ⟨?_, .inr ?_⟩
    · change ¬ c.toNat = 32
      omega
    · change ¬ c.toNat ≤ 13
      omega
  · rintro rfl
    exact absurd hc.1 (by decide)
  · rintro rfl
    exact absurd hc.1 (by decide)

/-- The value of the leading decimal digits, on top of those already read. -/
def digitsValue (acc : ℕ) : Bytes → ℕ
  | [] => acc
  | c :: cs => if isDigit c then digitsValue (acc * 10 + (c.toNat - 48)) cs else acc

/-- `::strtol(s, nullptr, 10)`: white space, a sign, digits; saturating. -/
def strtol (s : Bytes) : ℤ :=
  match s.dropWhile isSpace with
  | 45 :: digits => max (-(digitsValue 0 digits : ℤ)) (-2 ^ 63)
  | 43 :: digits => min (digitsValue 0 digits : ℤ) (2 ^ 63 - 1)
  | digits => min (digitsValue 0 digits : ℤ) (2 ^ 63 - 1)

/-- Digits with nothing numeric after them are read to their value. -/
theorem digitsValue_append {ds rest : Bytes} (hds : ∀ c ∈ ds, isDigit c = true)
    (hrest : ∀ c ∈ rest.head?, isDigit c = false) (acc : ℕ) :
    digitsValue acc (ds ++ rest) = digitsValue acc ds := by
  induction ds generalizing acc with
  | nil =>
    cases rest with
    | nil => rfl
    | cons c cs =>
      have hc : isDigit c = false := hrest c rfl
      simp [digitsValue, hc]
  | cons d ds ih =>
    have hd : isDigit d = true := hds d List.mem_cons_self
    simp only [List.cons_append, digitsValue, hd, if_true]
    exact ih (fun c hc => hds c (List.mem_cons_of_mem _ hc)) _

/-- `strtol` on a non-empty digit string followed by something that is no digit. -/
theorem strtol_digits {ds rest : Bytes} (hne : ds ≠ []) (hds : ∀ c ∈ ds, isDigit c = true)
    (hrest : ∀ c ∈ rest.head?, isDigit c = false) (hfit : digitsValue 0 ds < 2 ^ 63) :
    strtol (ds ++ rest) = digitsValue 0 ds := by
  obtain ⟨d, ds', rfl⟩ := List.exists_cons_of_ne_nil hne
  obtain ⟨hnospace, hminus, hplus⟩ := isDigit_plain (hds d List.mem_cons_self)
  have hdrop : (d :: ds' ++ rest).dropWhile isSpace = d :: ds' ++ rest := by
    simp [hnospace]
  have hval := digitsValue_append hds hrest 0
  have hkey : strtol (d :: ds' ++ rest) =
      min (digitsValue 0 (d :: ds' ++ rest) : ℤ) (2 ^ 63 - 1) := by
    unfold strtol
    rw [hdrop]
    split
    · rename_i heq
      exact absurd (List.cons.inj heq).1 hminus
    · rename_i heq
      exact absurd (List.cons.inj heq).1 hplus
    · rfl
  rw [hkey, hval, min_eq_left]
  omega

/-! ## `std::map<string, string>` -/

/-- `std::map<string, string>`: keys are unique, the order is not observed. -/
abbrev StringMap := AList fun _ : Bytes => Bytes

/-- `map.emplace(k, v)`: an entry that exists already is kept. -/
def emplace (m : StringMap) (k v : Bytes) : StringMap :=
  if k ∈ m then m else m.insert k v

theorem lookup_emplace_self (m : StringMap) (k v : Bytes) :
    (emplace m k v).lookup k = some ((m.lookup k).getD v) := by
  by_cases hk : k ∈ m
  · obtain ⟨x, hx⟩ := Option.isSome_iff_exists.mp (AList.lookup_isSome.mpr hk)
    simp [emplace, hk, hx]
  · have hnone : m.lookup k = none := AList.lookup_eq_none.mpr hk
    simp [emplace, hk, hnone]

theorem lookup_emplace_ne (m : StringMap) {k k' : Bytes} (hne : k' ≠ k) (v : Bytes) :
    (emplace m k v).lookup k' = m.lookup k' := by
  by_cases hk : k ∈ m
  · simp [emplace, hk]
  · simp [emplace, hk, AList.lookup_insert_ne hne]

end Calabash
