import Calabash.Web.Server

/-!
# The order of the handlers

Whatever the handlers do with their `next_func`, one `Handle` invokes them in order: those
of `process_handles`, then those bound to the path, each once, one for every call of
`next_func` until there are none left. The trace shows this at every depth, so it holds of
a `Handle` that is still going on as well.
-/

namespace Calabash
namespace Server

open Chain

/-- The trace of a `Handle` that runs through the handlers `funcs`: those invoked, with
their places, are the first of them; none is invoked twice; there are as many as there were
calls of `next_func`, by `Handle` itself and by the handlers, as long as the handlers last;
and what is called beyond the last handler invokes nothing. -/
structure InOrder (funcs : List ServerFunc) (trace : List (Chain.Event Exchange)) : Prop where
  isPrefix : invocations trace <+: funcs.zipIdx
  once : ((invocations trace).map Prod.snd).Nodup
  number : (invocations trace).length = min funcs.length (1 + (callers trace).length)
  beyond : ∀ before caller after, trace = before ++ .next caller :: after →
    (invocations before).length = funcs.length → invocations after = []

/-- Each handler's own body ends: none goes on for ever by itself, and none calls
`next_func` without bound. -/
structure BodiesEnd (server : Server) (out : Outside) (req : Request) : Prop where
  not_hung : ∀ fuel, (server.handle out fuel req).ending ≠ .hung
  bounded : ∀ place, ∃ n, ∀ fuel,
    (callers (server.handle out fuel req).trace).count place ≤ n

/-- `Handle` comes to an end: it returns, or something is thrown out of it. -/
def Finishes (server : Server) (out : Outside) (req : Request) : Prop :=
  ∃ fuel, (∃ res, (server.handle out fuel req).ending = .returned res) ∨
    ∃ e, (server.handle out fuel req).ending = .raised e

theorem nodup_places (funcs : List ServerFunc) : (funcs.zipIdx.map Prod.snd).Nodup := by
  rw [List.zipIdx_map_snd]
  exact List.nodup_range'

theorem inOrder_of_orderly {funcs : List ServerFunc} {r : Run Exchange} (h : Orderly funcs r)
    (hcalls : calls r.trace = 1 + (callers r.trace).length) : InOrder funcs r.trace := by
  have hfirst : invocations r.trace <+: funcs.zipIdx := by
    rw [h.invocations_eq]
    exact List.take_prefix _ _
  have hnumber : (invocations r.trace).length =
      min funcs.length (1 + (callers r.trace).length) := by
    rw [h.invocations_eq, List.length_take, List.length_zipIdx, h.cursor_eq, hcalls]
    omega
  refine ⟨hfirst, ?_, hnumber, ?_⟩
  · exact (nodup_places funcs).sublist (hfirst.sublist.map Prod.snd)
  · intro before caller after htrace hall
    have hlen := hfirst.length_le
    rw [htrace, invocations_append, List.length_append, List.length_zipIdx, hall] at hlen
    have hafter : invocations after = invocations (.next caller :: after) := rfl
    rw [hafter]
    exact List.length_eq_zero_iff.mp (by omega)

variable {server : Server} {out : Outside} {req : Request} {funcList : List ServerFunc}

theorem handle_trace (hbound : server.handlers.lookup req.path = some funcList) (fuel : ℕ) :
    (server.handle out fuel req).trace = (server.chainRun out req funcList fuel).2.trace := by
  rw [handle, hbound]
  exact congrArg Handled.trace (handleBound_eq server out req funcList fuel)

theorem chainRun_bodiesEnd (hbound : server.handlers.lookup req.path = some funcList)
    (h : server.BodiesEnd out req) :
    Chain.BodiesEnd (server.chain funcList) out.logs { state := ⟨req, {}⟩ } := by
  constructor
  · intro fuel
    cases fuel with
    | zero => exact fun hrun => by cases hrun
    | succ fuel =>
      intro hhung
      refine h.not_hung fuel ?_
      rw [handle, hbound]
      simp only [handleBound_eq, chainRun, hhung]
  · intro place
    obtain ⟨n, hn⟩ := h.bounded place
    refine ⟨n, fun fuel => ?_⟩
    cases fuel with
    | zero => simp [call, callers]
    | succ fuel =>
      have hfuel := hn fuel
      rw [handle_trace hbound] at hfuel
      exact hfuel

/-- One `Handle` of a path with handlers, whatever they do. -/
theorem handle_inOrder (hbound : server.handlers.lookup req.path = some funcList) :
    (∀ fuel, InOrder (server.processHandles ++ funcList) (server.handle out fuel req).trace) ∧
      (server.BodiesEnd out req → server.Finishes out req) := by
  constructor
  · intro fuel
    rw [handle_trace hbound]
    exact inOrder_of_orderly (call_orderly _ (orderly_start _ _ _)) call_callers.2
  · intro hbodies
    obtain ⟨fuel, hended⟩ := exists_ended (chainRun_bodiesEnd hbound hbodies)
    have hmono : server.chainRun out req funcList fuel =
        call (server.chain funcList) out.logs fuel (.next none) { state := ⟨req, {}⟩ } := by
      refine call_mono_le (Nat.le_succ fuel) ?_
      intro hrun
      rw [hrun] at hended
      cases hended
    refine ⟨fuel, ?_⟩
    rw [handle, hbound]
    simp only [handleBound_eq, hmono]
    cases hstatus : (call (server.chain funcList) out.logs fuel (.next none)
        { state := ⟨req, {}⟩ }).1 with
    | returned => exact .inl ⟨_, rfl⟩
    | raised => exact .inr ⟨_, rfl⟩
    | hung | running =>
      rw [hstatus] at hended
      cases hended

/-- A handler that calls `next_func` so many times, and then returns. -/
def nextTimes (n : ℕ) : ServerFunc := fun entry answers =>
  let x := (answers.getLast?.map Prod.snd).getD entry
  if answers.length < n then .next x else .returns x

/-- A process handler, and two handlers for the empty path, the first of which calls on
twice. -/
def smallServer : Server :=
  ((Server.mk ∅ [] []).processBind (nextTimes 1)).bindList [] [nextTimes 2, nextTimes 0]

/-- Nothing fails outside, and there are no files. -/
def quiet : Outside where
  logs := fun _ => true
  isRegularFile := fun _ _ => some false
  file := fun _ => ⟨-1, [], []⟩

/-- The handlers of `smallServer` end, at a depth of nine at the latest. -/
theorem bodiesEnd_small : smallServer.BodiesEnd quiet {} := by
  have hbound : smallServer.handlers.lookup [] = some [nextTimes 2, nextTimes 0] := rfl
  have hended : (smallServer.chainRun quiet {} [nextTimes 2, nextTimes 0] 9).1 ≠ .running := by
    decide +kernel
  have hsame : ∀ fuel, ∃ less ≤ 9,
      smallServer.chainRun quiet {} [nextTimes 2, nextTimes 0] fuel =
        smallServer.chainRun quiet {} [nextTimes 2, nextTimes 0] less := by
    intro fuel
    rcases Nat.le_total fuel 9 with hle | hle
    · exact ⟨fuel, hle, rfl⟩
    · exact ⟨9, le_rfl, call_mono_le (Nat.succ_le_succ hle) hended⟩
  constructor
  · have hstatus : ∀ less ≤ 9,
        (smallServer.chainRun quiet {} [nextTimes 2, nextTimes 0] less).1 ≠ .hung := by
      decide +kernel
    intro fuel hhung
    obtain ⟨less, hle, heq⟩ := hsame fuel
    have hnone := hstatus less hle
    rw [← heq] at hnone
    rw [handle, hbound] at hhung
    simp only [handleBound_eq] at hhung
    split at hhung
    all_goals first | exact absurd ‹_› hnone | cases hhung
  · have hcalls : ∀ less ≤ 9, (callers
        (smallServer.chainRun quiet {} [nextTimes 2, nextTimes 0] less).2.trace).length ≤ 3 := by
      decide +kernel
    refine fun place => ⟨3, fun fuel => ?_⟩
    obtain ⟨less, hle, heq⟩ := hsame fuel
    rw [handle_trace hbound, heq]
    exact List.count_le_length.trans (hcalls less hle)

theorem handle_inOrder_small :
    (∀ fuel, InOrder [nextTimes 1, nextTimes 2, nextTimes 0]
        (smallServer.handle quiet fuel {}).trace) ∧ smallServer.Finishes quiet {} := by
  have hall := @handle_inOrder smallServer quiet {} [nextTimes 2, nextTimes 0] rfl
  exact ⟨hall.1, hall.2 bodiesEnd_small⟩

/-- The second call of the first bound handler goes beyond the end. -/
example : callers (smallServer.handle quiet 9 {}).trace = [0, 1, 1] := by
  decide +kernel

end Server
end Calabash
