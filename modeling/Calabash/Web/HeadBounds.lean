import Calabash.Web.Head
import Calabash.Web.Target

/-!
# Where the head parser stays inside the received bytes

The first `recv` fills the front of the buffer; the rest of it keeps whatever the
stack held. The scanners have no bound, so whether they stay in front depends on
the received bytes alone: by locality, a run that stays inside them is the run on
nothing but them, and on those the parser's behaviour is known.

`HeadWithin` is the condition, and `staysInside_iff` says it is exact.
-/

namespace Calabash
namespace RequestMaker

open Reads

/-- The parser looked at no byte from `n` on and left no other object, and a head
size it returns is at most `n`. -/
def StaysInside (n : ℕ) (run : Except Fault (ℕ × Request) × ℕ) : Prop :=
  run.2 ≤ n ∧ run.1 ≠ .error .undefined ∧ ∀ size req, run.1 = .ok (size, req) → size ≤ n

/-- A head that is over, one way or another, before the received bytes are: blanks
in front of the request line, a folded header line, a blank line that lies inside,
or one cut after its `'\r'` when the target throws before the size is returned. -/
def HeadWithin (received : Bytes) : Prop :=
  LeadingGap received ∨
    ∃ method target version ls n k, HeadText received method target version ls n k ∧
      match k with
      | .folded => True
      | .inside => targetFate target ≠ .overruns
      | .clipped => targetFate target = .throws

/-- The last byte read lies in the buffer. -/
theorem lt_length_of_drop_eq {mem r : Bytes} {e : UInt8} {m : ℕ} (h : mem.drop m = e :: r) :
    m + 1 ≤ mem.length := by
  have hlen := congrArg List.length h
  simp only [List.length_drop, List.length_cons] at hlen
  omega

/-- On a head that the parser gets through, what comes out is in bounds when the head ends inside
the text, or throws first. -/
theorem outcome_within_iff {text method target version : Bytes} {ls : List Bytes} {n : ℕ}
    {k : BlockEnd} (req : Request) :
    HeadText text method target version ls n k →
      ((headOutcome req method target version ls n k ≠ .error .undefined ∧
        ∀ size req', headOutcome req method target version ls n k = .ok (size, req') →
          size ≤ text.length) ↔
        match k with
        | .folded => True
        | .inside => targetFate target ≠ .overruns
        | .clipped => targetFate target = .throws) := by
  intro h
  cases k with
  | folded => simp [headOutcome]
  | inside =>
    have hle := h.length_le.1 rfl
    have hout := headOutcome_fate req method version h.word_target ls n
      (k := .inside) (by simp)
    cases hfate : targetFate target with
    | overruns =>
      rw [hfate] at hout
      simp [hout]
    | throws =>
      rw [hfate] at hout
      simp [hout]
    | fine =>
      rw [hfate] at hout
      obtain ⟨q, hq⟩ := hout
      simp [hq, hle]
  | clipped =>
    have hlong := h.length_le.2 rfl
    have hout := headOutcome_fate req method version h.word_target ls n
      (k := .clipped) (by simp)
    cases hfate : targetFate target with
    | overruns =>
      rw [hfate] at hout
      simp [hout]
    | throws =>
      rw [hfate] at hout
      simp [hout]
    | fine =>
      rw [hfate] at hout
      obtain ⟨q, hq⟩ := hout
      have hmore : ¬ n ≤ text.length := by omega
      simp [hq, hmore]

/-- The bound on the received bytes alone. -/
theorem staysInside_received {received : Bytes} (hsize : received.length ≤ kReqBufSize)
    (req : Request) :
    StaysInside received.length (parseHttpHeader req received) ↔ HeadWithin received := by
  constructor
  · rintro ⟨-, hdef, hret⟩
    rcases parseHttpHeader_cases hsize req with
      hund | hgap | ⟨method, target, version, ls, n, k, htext⟩
    · exact absurd hund hdef
    · exact .inl hgap
    · obtain ⟨m, e, r, hrun, -, -⟩ := parseHttpHeader_eq htext hsize req
      rw [hrun] at hdef hret
      exact .inr ⟨method, target, version, ls, n, k, htext,
        (outcome_within_iff req htext).mp ⟨hdef, hret⟩⟩
  · rintro (hgap | ⟨method, target, version, ls, n, k, htext, hk⟩)
    · obtain ⟨n, hrun, hn⟩ := parseHttpHeader_gap hgap req
      rw [hrun]
      exact ⟨hn, by simp, by simp⟩
    · obtain ⟨m, e, r, hrun, hlast, -⟩ := parseHttpHeader_eq htext hsize req
      rw [hrun]
      exact ⟨lt_length_of_drop_eq hlast, (outcome_within_iff req htext).mpr hk⟩

/-- Whatever the stack held behind the received bytes, the parser stays inside them
exactly when they are a head that ends within. -/
theorem staysInside_iff {received stale : Bytes}
    (hsize : received.length + stale.length = kReqBufSize) (req : Request) :
    StaysInside received.length (parseHttpHeader req (received ++ stale)) ↔
      HeadWithin received := by
  rw [← staysInside_received (by omega) req]
  have hlocal := local_parseHttpHeader req
  constructor
  · intro h
    rw [hlocal.prefix_eq h.1]
    exact h
  · intro h
    rw [hlocal.extend_eq h.1 stale]
    exact h

/-- `GET / H`, a header line `A: b`, and the blank line. -/
def smallHead : Bytes :=
  ascii ['G', 'E', 'T', ' ', '/', ' ', 'H', '\r', '\n', 'A', ':', ' ', 'b', '\r', '\n', '\r', '\n']

theorem headText_smallHead :
    HeadText smallHead (ascii ['G', 'E', 'T']) (ascii ['/']) (ascii ['H'])
      [ascii ['A', ':', ' ', 'b']] 17 .inside := by
  have hspace : Gap [32] := by decide
  have hend : Gap [13, 10] := by decide
  have hmethod : Word (ascii ['G', 'E', 'T']) := by decide
  have htarget : Word (ascii ['/']) := by decide
  have hversion : Word (ascii ['H']) := by decide
  have hblank : HeaderBlock ([10, 13, 10].drop (eolWidth 13 - 1)) [] 2 .inside :=
    .blank (by decide) (by decide)
  have hline : HeaderBlock (65 :: ascii [':', ' ', 'b'] ++ 13 :: [10, 13, 10])
      [65 :: ascii [':', ' ', 'b']] 8 .inside :=
    .line (by decide) (by decide) (by decide) (by decide) hblank
  exact .intro hmethod hspace htarget hspace hversion hend (by decide) hline

/-- The parser stays inside a small head that was received whole. -/
theorem staysInside_smallHead :
    StaysInside 17 (parseHttpHeader {}
      (smallHead ++ List.replicate (kReqBufSize - 17) 0)) :=
  (staysInside_iff (by rw [List.length_replicate]; decide) {}).mpr
    (.inr ⟨_, _, _, _, _, .inside, headText_smallHead, by decide⟩)

/-- Four bytes short of a head, and with the missing line ends still on the stack from
an earlier request: the parser reads three bytes past the received ones and returns a
head of 17 bytes out of 13. -/
theorem staysInside_fails :
    (smallHead.take 13).length + (smallHead.drop 13 ++
        List.replicate (kReqBufSize - 17) 0).length = kReqBufSize ∧
      (∃ req, parseHttpHeader {}
        (smallHead.take 13 ++ (smallHead.drop 13 ++ List.replicate (kReqBufSize - 17) 0)) =
          (.ok (17, req), 16)) ∧
      ¬ StaysInside (smallHead.take 13).length (parseHttpHeader {}
        (smallHead.take 13 ++ (smallHead.drop 13 ++ List.replicate (kReqBufSize - 17) 0))) := by
  have hshort : ∃ req, parseHttpHeader {} smallHead = (.ok (17, req), 16) := ⟨_, rfl⟩
  obtain ⟨req, hreq⟩ := hshort
  have hinside : (parseHttpHeader {} smallHead).2 ≤ smallHead.length := by
    rw [hreq]
    exact (by decide : 16 ≤ smallHead.length)
  have hrun : parseHttpHeader {} (smallHead.take 13 ++
      (smallHead.drop 13 ++ List.replicate (kReqBufSize - 17) 0)) = (.ok (17, req), 16) := by
    rw [← List.append_assoc, List.take_append_drop,
      (local_parseHttpHeader {}).extend_eq hinside, hreq]
  refine ⟨?_, ⟨req, hrun⟩, ?_⟩
  · rw [List.length_append, List.length_replicate]
    decide
  · rw [hrun]
    exact fun h => absurd h.1 (by decide : ¬ 16 ≤ (smallHead.take 13).length)

end RequestMaker
end Calabash
