import Calabash.Lib.Paths
import Calabash.Web.RequestMaker
import Calabash.Web.Server

/-!
# Static files

The request path is appended to `static_path_` as it is, and the system walks what comes
out: up to the first NUL, from the root or from the working directory, component by
component. So a path can lead out of the directory it was appended to, with `..`
components, or by going on with the last component of `static_path_`.

`servesUnder_iff` says for which request paths every file that `Handle` can serve lies
under `static_path_`.
-/

namespace Calabash
namespace Server

open Paths

/-- A path as a system call sees it. -/
def cString (path : Bytes) : Bytes := path.takeWhile (· ≠ 0)

/-- A component of a path: nothing and `.` stay, and `..` goes up. -/
def component (text : Bytes) : Step Bytes :=
  if text = [] ∨ text = [46] then .stay else if text = [46, 46] then .up else .down text

def steps (path : Bytes) : List (Step Bytes) := ((cString path).splitOn 47).map component

/-- Where the walk of a path starts. -/
def start (cwd : List Bytes) (path : Bytes) : List Bytes :=
  if (cString path).head? = some 47 then [] else cwd

/-- The place a path names, with `.` and `..` resolved. -/
def resolved (cwd : List Bytes) (path : Bytes) : List Bytes := resolve (start cwd path) (steps path)

/-- A path lies under another. -/
def Under (cwd : List Bytes) (root path : Bytes) : Prop := resolved cwd root <+: resolved cwd path

instance (cwd : List Bytes) (root path : Bytes) : Decidable (Under cwd root path) :=
  inferInstanceAs (Decidable (_ <+: _))

/-- The path leads through the place it names, or through something in it, as through a
directory: every path does that ends in `/`, `/.` or `/..`. -/
def ThroughItself (cwd : List Bytes) (path : Bytes) : Prop :=
  ∃ v ∈ trail (start cwd path) (steps path), resolved cwd path <+: v

instance (cwd : List Bytes) (path : Bytes) : Decidable (ThroughItself cwd path) :=
  inferInstanceAs (Decidable (∃ v ∈ trail (start cwd path) (steps path), _))

/-- `is_regular_file` says what is there, or throws. -/
def Describes (out : Outside) (tree : FileTree Bytes) (cwd : List Bytes) : Prop :=
  ∀ k path there, out.isRegularFile k path = some there →
    (there = true ↔ tree.HasFile (start cwd path) (steps path))

/-- Whatever file `Handle` serves, from whatever tree without links, lies under
`static_path_`. -/
def ServesUnder (server : Server) (cwd : List Bytes) (req : Request) : Prop :=
  ∀ (tree : FileTree Bytes) (out : Outside), Describes out tree cwd →
    ∀ fuel path, (server.handle out fuel req).served = some path →
      Under cwd server.staticPath path

/-! ## The paths `Handle` tries -/

theorem cString_append_of_mem {root : Bytes} (h : (0 : UInt8) ∈ root) (path : Bytes) :
    cString (root ++ path) = cString root := by
  induction root with
  | nil => cases h
  | cons c root ih =>
    by_cases hc : c = 0
    · simp [cString, hc]
    · have hroot : (0 : UInt8) ∈ root := by
        rcases List.mem_cons.mp h with heq | hmem
        · exact absurd heq.symm hc
        · exact hmem
      have hcons : ∀ rest, cString (c :: rest) = c :: cString rest := fun rest =>
        List.takeWhile_cons_of_pos (by simpa using hc)
      rw [List.cons_append, hcons, hcons, ih hroot]

theorem cString_of_not_mem {path : Bytes} (h : (0 : UInt8) ∉ path) : cString path = path := by
  refine List.takeWhile_eq_self_iff.mpr fun c hc => ?_
  have hne : c ≠ 0 := by
    rintro rfl
    exact h hc
  simpa using hne

/-- Behind a `/` the walk goes on from where `static_path_` leads. -/
theorem under_slash (cwd : List Bytes) {root name : Bytes} (hroot : root ≠ [])
    (hname : ∀ d, ∃ more, resolve d ((name.splitOn 47).map component) = d ++ more)
    (hplain : (0 : UInt8) ∉ name) : Under cwd root (root ++ 47 :: name) := by
  by_cases hnul : (0 : UInt8) ∈ root
  · have hsame : resolved cwd (root ++ 47 :: name) = resolved cwd root := by
      simp only [resolved, steps, start, cString_append_of_mem hnul]
    rw [Under, hsame]
  · have hall : (0 : UInt8) ∉ root ++ 47 :: name := by
      simp only [List.mem_append, List.mem_cons, not_or]
      exact ⟨hnul, by decide, hplain⟩
    obtain ⟨c, rest, rfl⟩ := List.exists_cons_of_ne_nil hroot
    have hsplit : resolved cwd (c :: rest ++ 47 :: name) =
        resolve (resolved cwd (c :: rest)) ((name.splitOn 47).map component) := by
      simp only [resolved, steps, start, cString_of_not_mem hall, cString_of_not_mem hnul]
      rw [List.splitOn_append_cons_self, List.map_append, resolve_append]
      simp
    obtain ⟨more, hmore⟩ := hname (resolved cwd (c :: rest))
    rw [Under, hsplit, hmore]
    exact List.prefix_append _ _

theorem under_index (cwd : List Bytes) {root : Bytes} (hroot : root ≠ []) :
    Under cwd root (root ++ ascii "/index.html".toList) :=
  @under_slash cwd root (ascii "index.html".toList) hroot
    (fun d => ⟨[ascii "index.html".toList], rfl⟩) (by decide)

variable {server : Server} {req : Request}

/-- A served file is one of the two that `Handle` looks for, and it is there. -/
theorem served_eq {out : Outside} {fuel : ℕ} {path : Bytes}
    (h : (server.handle out fuel req).served = some path) :
    ∃ first, path = server.candidate req first ∧ out.isRegularFile 1 path = some true ∧
      out.isRegularFile 0 (server.staticPath ++ req.path) = some first := by
  rw [handle] at h
  cases hbound : server.handlers.lookup req.path with
  | some funcList =>
    rw [hbound] at h
    simp only [handleBound_eq] at h
    cases h
  | none =>
    rw [hbound] at h
    simp only [handleStatic] at h
    by_cases hroot : server.staticPath = []
    · rw [if_pos hroot] at h
      cases h
    · rw [if_neg hroot] at h
      cases hfirst : out.isRegularFile 0 (server.staticPath ++ req.path) with
      | none =>
        rw [hfirst] at h
        cases h
      | some first =>
        rw [hfirst] at h
        simp only at h
        cases hsecond : out.isRegularFile 1 (server.candidate req first) with
        | none =>
          rw [hsecond] at h
          cases h
        | some there =>
          rw [hsecond] at h
          cases there with
          | false => cases h
          | true =>
            cases h
            exact ⟨first, rfl, hsecond, rfl⟩

/-- What `is_regular_file` says in a tree, when it never throws. -/
def outsideOf (tree : FileTree Bytes) (cwd : List Bytes) : Outside where
  logs := fun _ => true
  isRegularFile := fun _ path => some (decide (tree.HasFile (start cwd path) (steps path)))
  file := fun _ => ⟨-1, [], []⟩

theorem describes_outsideOf (tree : FileTree Bytes) (cwd : List Bytes) :
    Describes (outsideOf tree cwd) tree cwd := by
  intro k path there h
  cases h
  exact decide_eq_true_iff

/-- A path that is not walked through has a tree in which `Handle` serves it. -/
theorem exists_serves {cwd : List Bytes} (hnone : server.handlers.lookup req.path = none)
    (hroot : server.staticPath ≠ [])
    (hpath : ¬ ThroughItself cwd (server.staticPath ++ req.path)) :
    ∃ (tree : FileTree Bytes) (out : Outside), Describes out tree cwd ∧
      (server.handle out 0 req).served = some (server.staticPath ++ req.path) := by
  set path := server.staticPath ++ req.path with hdef
  have hthrough : ∀ v ∈ trail (start cwd path) (steps path),
      ¬ resolve (start cwd path) (steps path) <+: v :=
    fun v hv hpre => hpath ⟨v, hv, hpre⟩
  have hsteps : steps path ≠ [] := by
    simp [steps, List.splitOn_ne_nil]
  have hne : resolve (start cwd path) (steps path) ≠ [] := by
    intro hnil
    obtain ⟨step, more, hcons⟩ := List.exists_cons_of_ne_nil hsteps
    refine hthrough (start cwd path) ?_ (by rw [hnil]; exact List.nil_prefix)
    rw [hcons, trail]
    exact List.mem_cons_self
  set tree := FileTree.around _ _ hne hthrough with htree
  have hfile : tree.HasFile (start cwd path) (steps path) := FileTree.around_hasFile hne hthrough
  refine ⟨tree, outsideOf tree cwd, describes_outsideOf tree cwd, ?_⟩
  have hthere : ∀ k, (outsideOf tree cwd).isRegularFile k path = some true := by
    intro k
    simp [outsideOf, hfile]
  rw [handle, hnone]
  simp only [handleStatic, if_neg hroot]
  rw [← hdef, hthere 0]
  simp only [candidate, if_true]
  rw [← hdef, hthere 1]

/-- For a path without handlers: every file that can be served lies under `static_path_`
exactly when the path appended to it does, or cannot name a file. -/
theorem servesUnder_iff (cwd : List Bytes) (hnone : server.handlers.lookup req.path = none)
    (hroot : server.staticPath ≠ []) :
    server.ServesUnder cwd req ↔
      Under cwd server.staticPath (server.staticPath ++ req.path) ∨
        ThroughItself cwd (server.staticPath ++ req.path) := by
  constructor
  · intro hunder
    by_contra hneither
    rw [not_or] at hneither
    obtain ⟨tree, out, hdescribes, hserved⟩ := exists_serves hnone hroot hneither.2
    exact hneither.1 (hunder tree out hdescribes 0 _ hserved)
  · intro hpath tree out hdescribes fuel path hserved
    obtain ⟨first, rfl, hthere, hfirst⟩ := served_eq hserved
    cases first with
    | false => exact under_index cwd hroot
    | true =>
      have hfile := (hdescribes 1 _ true hthere).mp rfl
      rcases hpath with hunder | ⟨v, hv, hpre⟩
      · exact hunder
      · exact absurd hpre (FileTree.not_prefix_of_hasFile hfile v hv)

/-- A server whose files lie in `/w`. -/
def wServer : Server := ⟨∅, [], [47, 119]⟩

/-- The path `/a` stays under `/w`. -/
theorem servesUnder_plain : wServer.ServesUnder [] { path := [47, 97] } :=
  (@servesUnder_iff wServer { path := [47, 97] } [] rfl (by decide)).mpr
    (.inl (by decide))

/-- The target `/../x` is taken as it is, and leads to `/x`. -/
theorem servesUnder_fails :
    RequestMaker.parseTarget (ascii "/../x".toList) ∅ = .ok (ascii "/../x".toList, ∅) ∧
      ¬ wServer.ServesUnder [] { path := ascii "/../x".toList } := by
  refine ⟨rfl, fun hunder => ?_⟩
  obtain ⟨tree, out, hdescribes, hserved⟩ :=
    @exists_serves wServer { path := ascii "/../x".toList } [] rfl (by decide) (by decide)
  exact absurd (hunder tree out hdescribes 0 _ hserved) (by decide)

end Server
end Calabash
