import Calabash.Web.Response
import Mathlib.Data.List.Induction

/-!
# The table of content types

`kHttpExtensionWithContentType` is a global map, and `SetType` looks a type up with `operator[]`,
which enters what it does not find. `AutoSetType` gives `SetType` the content type that it has
found, which is looked up like an extension.

## Main results

* `Grown.index` — a lookup only adds empty texts.
* `setType_eq` — what `SetType` does to a response does not depend on what was added.
* `not_setsContentType` — `AutoSetType` never sets the content type of the extension.
-/

namespace Calabash

/-- `kHttpExtensionWithContentType` while the program runs; the order is not observed. -/
abbrev TypeTable := List (Bytes × Bytes)

namespace TypeTable

/-- The entries that are in the table from the start. -/
def initial : TypeTable :=
  kHttpExtensionWithContentType.map fun entry => (ascii entry.1.toList, ascii entry.2.toList)

/-- `operator[]`: a key that is not there is entered with an empty text. -/
def index (table : TypeTable) (key : Bytes) : Bytes × TypeTable :=
  match table.lookup key with
  | some v => (v, table)
  | none => ([], (key, []) :: table)

/-- `SetType`. -/
def setType (table : TypeTable) (res : Response) (type : Bytes) : Response × TypeTable :=
  (res.setHeader (ascii "Content-Type".toList) (table.index type).1, (table.index type).2)

/-- `AutoSetType`. -/
def autoSetType (table : TypeTable) (res : Response) (path : Bytes) : Response × TypeTable :=
  if (table.lookup (Response.extension path)).isSome then
    (table.index (Response.extension path)).2.setType res
      (table.index (Response.extension path)).1
  else table.setType res (ascii "application/octet-stream".toList)

end TypeTable

/-- A call on some response that uses the table. -/
inductive TypeCall
  | setType (res : Response) (type : Bytes)
  | autoSetType (res : Response) (path : Bytes)

namespace TypeTable

/-- The table behind a call. -/
def after (table : TypeTable) : TypeCall → TypeTable
  | .setType res type => (table.setType res type).2
  | .autoSetType res path => (table.autoSetType res path).2

/-- The table behind all the calls. -/
def afterAll (calls : List TypeCall) : TypeTable := calls.foldl after initial

/-- The content type of the path: the entry that the table has from the start. -/
def typeOf (path : Bytes) : Bytes :=
  (initial.lookup (Response.extension path)).getD (ascii "application/octet-stream".toList)

/-- The table has changed since the start by entries with an empty text alone. -/
def Grown (table : TypeTable) : Prop :=
  ∀ key, table.lookup key = initial.lookup key ∨
    initial.lookup key = none ∧ table.lookup key = some []

theorem grown_initial : Grown initial := fun _ => .inl rfl

theorem lookup_index_of_none {table : TypeTable} {key : Bytes} (h : table.lookup key = none) :
    table.index key = ([], (key, []) :: table) := by
  rw [index, h]

theorem index_of_some {table : TypeTable} {key v : Bytes} (h : table.lookup key = some v) :
    table.index key = (v, table) := by
  rw [index, h]

theorem Grown.index {table : TypeTable} (h : Grown table) (key : Bytes) :
    Grown (table.index key).2 := by
  cases hkey : table.lookup key with
  | some v =>
    rw [index_of_some hkey]
    exact h
  | none =>
    rw [lookup_index_of_none hkey]
    intro key'
    rw [List.lookup_cons]
    by_cases heq : key' = key
    · subst heq
      have hinitial : initial.lookup key' = none := by
        rcases h key' with hsame | ⟨hnone, -⟩
        · rw [← hsame, hkey]
        · exact hnone
      exact .inr ⟨hinitial, by rw [beq_self_eq_true]⟩
    · rw [beq_eq_false_iff_ne.mpr heq]
      exact h key'

theorem Grown.setType {table : TypeTable} (h : Grown table) (res : Response) (type : Bytes) :
    Grown (table.setType res type).2 := h.index type

theorem Grown.autoSetType {table : TypeTable} (h : Grown table) (res : Response) (path : Bytes) :
    Grown (table.autoSetType res path).2 := by
  rw [TypeTable.autoSetType]
  split
  · exact (h.index _).setType res _
  · exact h.setType res _

/-- A call keeps the entries that the table has from the start. -/
theorem Grown.after {table : TypeTable} (h : Grown table) (call : TypeCall) :
    Grown (table.after call) := by
  cases call with
  | setType res type => exact h.setType res type
  | autoSetType res path => exact h.autoSetType res path

theorem grown_afterAll (calls : List TypeCall) : Grown (afterAll calls) := by
  induction calls using List.reverseRecOn with
  | nil => exact grown_initial
  | append_singleton calls call ih =>
    rw [afterAll, List.foldl_concat]
    exact ih.after call

/-! ## What a lookup gives -/

theorem lookup_initial (key : Bytes) : initial.lookup key = Response.contentType key := by
  rw [initial, Response.contentType]
  induction kHttpExtensionWithContentType with
  | nil => rfl
  | cons entry entries ih =>
    rw [List.map_cons, List.lookup_cons, List.find?_cons]
    by_cases heq : ascii entry.1.toList = key
    · simp [heq]
    · have hne : (key == ascii entry.1.toList) = false := beq_eq_false_iff_ne.mpr (Ne.symm heq)
      simpa [hne, heq] using ih

theorem Grown.index_eq {table : TypeTable} (h : Grown table) (key : Bytes) :
    (table.index key).1 = (initial.lookup key).getD [] := by
  rcases h key with hsame | ⟨hnone, hempty⟩
  · rw [← hsame]
    cases hkey : table.lookup key with
    | some v => rw [index_of_some hkey]; rfl
    | none => rw [lookup_index_of_none hkey]; rfl
  · rw [hnone, index_of_some hempty]
    rfl

/-- Whatever was looked up before, `SetType` does to a response what it does at the start. -/
theorem Grown.setType_eq {table : TypeTable} (h : Grown table) (res : Response) (type : Bytes) :
    (table.setType res type).1 = res.setType type := by
  rw [TypeTable.setType, h.index_eq, lookup_initial]
  rfl

/-- Extensions start with a dot, content types do not. -/
theorem starts_initial : ∀ entry ∈ initial, entry.1.head? = some 46 ∧
    entry.2.head? ≠ some 46 ∧ entry.2 ≠ [] := by
  decide +kernel

theorem lookup_eq_none {key : Bytes} (h : key.head? ≠ some 46) : initial.lookup key = none := by
  rw [List.lookup_eq_none_iff]
  intro entry hentry
  rw [bne_iff_ne]
  rintro rfl
  exact h (starts_initial entry hentry).1

theorem mem_of_lookup {key v : Bytes} (h : initial.lookup key = some v) : (key, v) ∈ initial := by
  obtain ⟨l₁, l₂, hsplit, -⟩ := List.lookup_eq_some_iff.mp h
  rw [hsplit]
  simp

/-! ## `AutoSetType` -/

/-- The text that `AutoSetType` looks up as a type is not an extension with an entry. -/
theorem Grown.autoSetType_eq {table : TypeTable} (h : Grown table) (res : Response)
    (path : Bytes) :
    (table.autoSetType res path).1 = res.setHeader (ascii "Content-Type".toList) [] := by
  have hempty : ∀ {table : TypeTable}, Grown table → ∀ type : Bytes, type.head? ≠ some 46 →
      (table.setType res type).1 = res.setHeader (ascii "Content-Type".toList) [] := by
    intro table h type htype
    rw [TypeTable.setType, h.index_eq, lookup_eq_none htype]
    rfl
  rw [TypeTable.autoSetType]
  split
  · refine hempty (h.index _) _ ?_
    rw [h.index_eq]
    cases hlookup : initial.lookup (Response.extension path) with
    | none => simp
    | some v => exact (starts_initial _ (mem_of_lookup hlookup)).2.1
  · exact hempty h _ (by decide)

/-- The response is the one of the model without a table. -/
theorem Grown.autoSetType_response {table : TypeTable} (h : Grown table) (res : Response)
    (path : Bytes) : (table.autoSetType res path).1 = res.autoSetType path := by
  have hempty : ∀ type : Bytes, type.head? ≠ some 46 →
      res.setType type = res.setHeader (ascii "Content-Type".toList) [] := by
    intro type htype
    rw [Response.setType, ← lookup_initial, lookup_eq_none htype]
    rfl
  rw [h.autoSetType_eq, Response.autoSetType, ← lookup_initial]
  cases hlookup : initial.lookup (Response.extension path) with
  | none => exact (hempty _ (by decide)).symm
  | some v => exact (hempty v (starts_initial _ (mem_of_lookup hlookup)).2.1).symm

/-- The header of a name. -/
def header (res : Response) (k : Bytes) : Option Bytes := res.headers.lookup k

theorem header_setHeader (res : Response) (k v : Bytes) :
    header (res.setHeader k v) k = some v := by
  rw [header, Response.setHeader]
  induction res.headers with
  | nil => rw [Response.setHeaderIn, List.lookup_cons, beq_self_eq_true]
  | cons th ths ih =>
    rw [Response.setHeaderIn]
    split
    · rw [List.lookup_cons, beq_self_eq_true]
    · next hne => rw [List.lookup_cons, beq_eq_false_iff_ne.mpr (Ne.symm hne), ih]

theorem typeOf_ne_nil (path : Bytes) : typeOf path ≠ [] := by
  rw [typeOf]
  cases hlookup : initial.lookup (Response.extension path) with
  | none => decide
  | some v => exact (starts_initial _ (mem_of_lookup hlookup)).2.2

/-- `AutoSetType` leaves the table as it is, and sets the content type of the path. -/
def SetsContentType (table : TypeTable) (res : Response) (path : Bytes) : Prop :=
  (table.autoSetType res path).2 = table ∧
    header (table.autoSetType res path).1 (ascii "Content-Type".toList) = some (typeOf path)

/-- Whatever was called before, and for every path, the header is empty. -/
theorem not_setsContentType (calls : List TypeCall) (res : Response) (path : Bytes) :
    ¬ SetsContentType (afterAll calls) res path := by
  intro h
  have hheader := h.2
  rw [(grown_afterAll calls).autoSetType_eq, header_setHeader] at hheader
  exact typeOf_ne_nil path (Option.some.inj hheader).symm

/-- A page, and nothing called before. -/
theorem not_setsContentType_page :
    ¬ SetsContentType initial {} (ascii "/index.html".toList) := by
  intro h
  have hheader := h.2
  rw [grown_initial.autoSetType_eq, header_setHeader] at hheader
  exact typeOf_ne_nil _ (Option.some.inj hheader).symm

end TypeTable
end Calabash
