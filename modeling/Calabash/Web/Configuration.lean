import Calabash.Lib.Layers
import Calabash.Web.Middleware

/-!
# Servers as they are set up

`Bind`, `ProcessBind` and `StaticPath` in any order, with handlers that call `next_func` at most
once: such a handler does something, goes on or ends, and may catch what comes back. `Handle` is
then the function that the handlers are, one around the other: those of `ProcessBind` outside,
those that were bound to the path inside, each in the order of their calls.

## Main results

* `lookup_configured` — the handlers that `Handle` finds for a path.
* `handle_composes` — what `Handle` does with them.
-/

namespace Calabash

open Chain (Layer compose)

/-- A call that sets up a server. -/
inductive ServerCall
  | bind (path : Bytes) (handler : Layer Exchange)
  | bindList (path : Bytes) (handler : List (Layer Exchange))
  | processBind (handler : Layer Exchange)
  | staticPath (path : Bytes)

namespace ServerCall

def apply (server : Server) : ServerCall → Server
  | bind path handler => server.bind path handler.handler
  | bindList path handler => server.bindList path (handler.map Layer.handler)
  | processBind handler => server.processBind handler.handler
  | staticPath path => { server with staticPath := path }

/-- The server after the calls. -/
def configured (calls : List ServerCall) : Server := calls.foldl apply ⟨∅, [], []⟩

/-- What a call binds to a path. -/
def bound (path : Bytes) : ServerCall → List (Layer Exchange)
  | bind p handler => if p = path then [handler] else []
  | bindList p handler => if p = path then handler else []
  | _ => []

/-- What a call puts in front of every path. -/
def process : ServerCall → List (Layer Exchange)
  | processBind handler => [handler]
  | _ => []

/-- The layers that a request for the path goes through. -/
def layers (calls : List ServerCall) (path : Bytes) : List (Layer Exchange) :=
  calls.flatMap process ++ calls.flatMap (bound path)

/-! ## What is bound -/

/-- An entry of `handlers_` to which handlers were added; nothing makes no entry. -/
def grown (entry : Option (List ServerFunc)) (more : List ServerFunc) :
    Option (List ServerFunc) :=
  if more = [] then entry else some (entry.getD [] ++ more)

@[simp] theorem grown_nil (entry : Option (List ServerFunc)) : grown entry [] = entry := if_pos rfl

theorem grown_append (entry : Option (List ServerFunc)) (more last : List ServerFunc) :
    grown (grown entry more) last = grown entry (more ++ last) := by
  by_cases hmore : more = []
  · rw [hmore, grown_nil, List.nil_append]
  · by_cases hlast : last = []
    · rw [hlast, grown_nil, List.append_nil]
    · simp [grown, hmore, hlast]

theorem lookup_bind (server : Server) (path : Bytes) (func : ServerFunc) (q : Bytes) :
    (server.bind path func).handlers.lookup q =
      grown (server.handlers.lookup q) (if path = q then [func] else []) := by
  by_cases hpath : path = q
  · subst hpath
    simp [Server.bind, grown]
  · simp [Server.bind, hpath, AList.lookup_insert_ne (Ne.symm hpath)]

theorem lookup_bindList (server : Server) (path : Bytes) (funcs : List ServerFunc) (q : Bytes) :
    (server.bindList path funcs).handlers.lookup q =
      grown (server.handlers.lookup q) (if path = q then funcs else []) := by
  induction funcs generalizing server with
  | nil => simp [Server.bindList]
  | cons func funcs ih =>
    have hrest := ih (server.bind path func)
    rw [lookup_bind, grown_append] at hrest
    refine hrest.trans ?_
    by_cases hpath : path = q <;> simp [hpath]

theorem processHandles_bindList (server : Server) (path : Bytes) (funcs : List ServerFunc) :
    (server.bindList path funcs).processHandles = server.processHandles := by
  induction funcs generalizing server with
  | nil => rfl
  | cons func funcs ih => exact ih (server.bind path func)

/-- A call adds what it binds to the entry of each path, and to the handlers in front. -/
theorem apply_adds (server : Server) (call : ServerCall) (q : Bytes) :
    (call.apply server).handlers.lookup q =
        grown (server.handlers.lookup q) ((bound q call).map Layer.handler) ∧
      (call.apply server).processHandles =
        server.processHandles ++ (process call).map Layer.handler := by
  cases call with
  | bind path handler =>
    refine ⟨?_, (List.append_nil _).symm⟩
    rw [apply, lookup_bind, bound, apply_ite (List.map Layer.handler)]
    rfl
  | bindList path handler =>
    refine ⟨?_, ?_⟩
    · rw [apply, lookup_bindList, bound, apply_ite (List.map Layer.handler)]
      rfl
    · exact (processHandles_bindList _ _ _).trans (List.append_nil _).symm
  | processBind handler => exact ⟨(grown_nil _).symm, rfl⟩
  | staticPath path => exact ⟨(grown_nil _).symm, (List.append_nil _).symm⟩

/-- `Handle` finds the handlers that were bound to a path, in order, if there are any. -/
theorem lookup_configured (calls : List ServerCall) (path : Bytes) :
    (configured calls).handlers.lookup path =
        grown none ((calls.flatMap (bound path)).map Layer.handler) ∧
      (configured calls).processHandles = (calls.flatMap process).map Layer.handler := by
  induction calls using List.reverseRecOn with
  | nil => exact ⟨rfl, rfl⟩
  | append_singleton calls call ih =>
    obtain ⟨hlookup, hprocess⟩ := apply_adds (configured calls) call path
    rw [ih.1, grown_append] at hlookup
    rw [ih.2] at hprocess
    rw [configured, List.foldl_concat]
    constructor
    · refine hlookup.trans ?_
      simp
    · refine hprocess.trans ?_
      simp

/-! ## What `Handle` does -/

/-- How `Handle` ends when its handlers have ended so. -/
def ending : Bool × Exchange → Ending
  | (true, x) => .returned x.resp
  | (false, _) => .raised .handlers

/-- On a server that was set up by these calls, `Handle` on a path with handlers is the layers one
around the other, with a log line innermost; a path without handlers goes to the files. -/
theorem handle_composes (calls : List ServerCall) (out : Outside) (req : Request) {fuel : ℕ}
    (hfuel : 2 * (layers calls req.path).length ≤ fuel) :
    ((configured calls).handle out fuel req).ending =
      if calls.flatMap (bound req.path) = [] then
        ((configured calls).handleStatic out req).ending
      else ending (compose (out.logs 0) (layers calls req.path) ⟨req, {}⟩) := by
  obtain ⟨hlookup, hprocess⟩ := lookup_configured calls req.path
  by_cases hbound : calls.flatMap (bound req.path) = []
  · rw [hbound] at hlookup
    rw [if_pos hbound, Server.handle, hlookup]
    rfl
  · have hfound : (configured calls).handlers.lookup req.path =
        some ((calls.flatMap (bound req.path)).map Layer.handler) := by
      rw [hlookup, grown, if_neg (by simpa using hbound)]
      rfl
    have hchain : (configured calls).chain ((calls.flatMap (bound req.path)).map Layer.handler) =
        (layers calls req.path).map Layer.handler := by
      rw [Server.chain, hprocess, layers, List.map_append]
    obtain ⟨r, hcall, hstate⟩ := @Chain.call_layers _ (layers calls req.path) out.logs _ (fuel + 1)
      (Nat.lt_succ_of_le hfuel) none { state := ⟨req, {}⟩ } rfl
    dsimp only at hcall hstate
    rw [if_neg hbound, Server.handle, hfound]
    simp only [Server.handleBound_eq, Server.chainRun, hchain, hcall, hstate]
    rcases compose (out.logs 0) (layers calls req.path) ⟨req, {}⟩ with ⟨_ | _, x⟩ <;> rfl

/-- A process handler that catches what comes back and answers 300, and a handler for `/` that
does not go on. -/
def catcher : Layer Exchange where
  enter x := (none, x)
  leave _ result := (true, if result.1 then result.2 else
    { result.2 with resp := result.2.resp.setCode 300 })

def thrower : Layer Exchange := ⟨fun x => (some false, x), fun _ result => result⟩

theorem handle_composes_caught :
    ((configured [.bind (ascii ['/']) thrower, .processBind catcher]).handle Server.quiet 4
        { path := ascii ['/'] }).ending = .returned (({} : Response).setCode 300) :=
  (handle_composes [.bind (ascii ['/']) thrower, .processBind catcher] Server.quiet
    { path := ascii ['/'] } (by decide)).trans rfl

end ServerCall
end Calabash
