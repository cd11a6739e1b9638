import Calabash.Web.BufferRead
import Calabash.Web.Framing

/-!
# Sending a response

`HttpTask` has `BufferRead` give the response to `Socket::send`, which makes every `::send`
that answers -1 again.

## Main results

* `pieces_returns_iff` — on a sink that takes, `BufferRead` returns when the file gives enough.
* `returns_dead_iff` — with a peer that is gone for good, it returns when everything was taken
  before.
-/

namespace Calabash

open Sink (Offer accepted)

/-- A stream whose `readsome` gives these pieces, and then nothing more. One `BufferRead` does
not see what is behind its last seek. -/
def pieceStream : InputStream (List Bytes) where
  readsome reads := (reads.headD [], reads.tail)
  tellEnd reads := (reads.flatten.length, [])
  seekBeg reads := reads

/-- `Socket::send`; its state is how many `::send` calls were made, and `answers` are theirs: -1,
or a number of bytes, which is never more than were given. With `fuel` the loop is left after so
many calls at the latest. -/
def socketSend (answers : ℕ → Option ℕ) : ℕ → Sink ℕ UInt8
  | 0, _, _ => none
  | fuel + 1, i, buf =>
    match answers i with
    | some n => some (min n buf.length, i + 1)
    | none => socketSend answers fuel (i + 1) buf

namespace DataReader

/-- The reader with its file stream. -/
def stream (d : DataReader) : StreamReader (List Bytes) := ⟨d.beginData, d.streamSize, d.reads⟩

open StreamReader (Pulls pump)

variable {S : Type}

/-! ## Streams that give pieces -/

theorem Reaches.pulls {missing : ℕ} {reads pieces : List Bytes} (h : Reaches missing reads pieces) :
    ∃ rest, Pulls pieceStream missing reads pieces rest := by
  induction h with
  | done reads => exact ⟨reads, .done reads⟩
  | @more missing buf reads pieces _ ih =>
    obtain ⟨rest, hrest⟩ := ih
    exact ⟨rest, .more (f := buf :: reads) hrest⟩

theorem reaches_of_pulls {missing : ℕ} {reads pieces rest : List Bytes}
    (h : Pulls pieceStream missing reads pieces rest) : Reaches missing reads pieces := by
  induction h with
  | done reads => exact .done reads
  | @more missing reads rest pieces _ ih =>
    cases reads with
    | nil => cases ih
    | cons buf reads => exact .more ih

theorem pieces_returns_iff {func : Sink S UInt8} (h : func.Takes) (d : DataReader) (s : S) :
    (∃ fuel result, StreamReader.bufferRead pieceStream func.recorded fuel d.stream (s, []) =
      some result) ↔ d.streamSize ≤ d.reads.flatten.length := by
  rw [StreamReader.returns_iff h, ← exists_reaches_iff]
  constructor
  · intro ⟨pieces, rest, hpulls⟩
    exact ⟨pieces, reaches_of_pulls hpulls⟩
  · intro ⟨pieces, hreaches⟩
    exact ⟨pieces, hreaches.pulls⟩

theorem pieces_recorded {func : Sink S UInt8} (h : func.Within) {d : DataReader} {fuel : ℕ}
    {r' : StreamReader (List Bytes)} {s s' : S} {log : List (Offer UInt8)}
    (hread : StreamReader.bufferRead pieceStream func.recorded fuel d.stream (s, []) =
      some (r', s', log)) :
    ∃ pieces, Reaches d.streamSize d.reads pieces ∧
      accepted log = d.beginData ++ pieces.flatten := by
  obtain ⟨pieces, rest, hpulls, hacc, -⟩ := StreamReader.bufferRead_recorded h hread
  exact ⟨pieces, reaches_of_pulls hpulls, hacc⟩

/-! ## A peer that is gone -/

/-- The answers from the `i`-th up to the `k`-th. -/
def before (answers : ℕ → Option ℕ) (i k : ℕ) : List (Option ℕ) :=
  (List.range' i (k - i)).map answers

theorem before_of_lt (answers : ℕ → Option ℕ) {i k : ℕ} (h : i < k) :
    before answers i k = answers i :: before answers (i + 1) k := by
  obtain ⟨n, rfl⟩ := Nat.exists_eq_add_of_lt h
  have hlong : i + n + 1 - i = n + 1 := by omega
  have hshort : i + n + 1 - (i + 1) = n := by omega
  rw [before, before, hlong, hshort, List.range'_succ, List.map_cons]

theorem socketSend_mono {answers : ℕ → Option ℕ} {fuel more : ℕ} (hle : fuel ≤ more) {i : ℕ}
    {buf : Bytes} {r : ℕ × ℕ} (h : socketSend answers fuel i buf = some r) :
    socketSend answers more i buf = some r := by
  induction fuel generalizing more i with
  | zero => cases h
  | succ fuel ih =>
    obtain ⟨more, rfl⟩ : ∃ m, more = m + 1 := ⟨more - 1, by omega⟩
    rw [socketSend] at h ⊢
    cases hanswer : answers i with
    | some n =>
      rw [hanswer] at h
      exact h
    | none =>
      rw [hanswer] at h
      exact ih (by omega) h

/-- An `::send` that fails for good is made for ever. -/
theorem socketSend_dead {answers : ℕ → Option ℕ} {k : ℕ} (hdead : ∀ i, k ≤ i → answers i = none)
    (fuel : ℕ) {i : ℕ} (hi : k ≤ i) (buf : Bytes) : socketSend answers fuel i buf = none := by
  induction fuel generalizing i with
  | zero => rfl
  | succ fuel ih =>
    rw [socketSend, hdead i hi]
    exact ih (by omega)

/-- Where `Socket::send` returns, the loop on the answers before the peer was gone goes on
behind what was taken. -/
theorem sendAll_socketSend {answers : ℕ → Option ℕ} {k : ℕ}
    (hdead : ∀ i, k ≤ i → answers i = none) {fuel i n j : ℕ} {buf : Bytes} (hbuf : buf ≠ [])
    (hsend : socketSend answers fuel i buf = some (n, j)) (out : Bytes) :
    n ≤ buf.length ∧ j ≤ k ∧ ∃ out', sendAll buf (before answers i k) out =
      sendAll (buf.drop n) (before answers j k) out' := by
  induction fuel generalizing i with
  | zero => cases hsend
  | succ fuel ih =>
    have hi : i < k := by
      by_contra hge
      rw [socketSend_dead hdead (fuel + 1) (Nat.le_of_not_lt hge)] at hsend
      cases hsend
    obtain ⟨c, cs, rfl⟩ := List.exists_cons_of_ne_nil hbuf
    rw [socketSend] at hsend
    rw [before_of_lt answers hi]
    cases hanswer : answers i with
    | none =>
      rw [hanswer] at hsend
      rw [sendAll]
      exact ih hsend
    | some a =>
      rw [hanswer] at hsend
      cases hsend
      exact ⟨Nat.min_le_right _ _, hi, _, by rw [sendAll, ← List.drop_eq_drop_min]⟩

/-- Where the loop gets through on the answers before the peer was gone, `Socket::send`
returns. -/
theorem socketSend_isSome {answers : ℕ → Option ℕ} {k i : ℕ} {buf out : Bytes} {wire : Wire}
    (hbuf : buf ≠ []) (hall : sendAll buf (before answers i k) out = some wire) {fuel : ℕ}
    (hfuel : k - i < fuel) :
    ∃ n j, socketSend answers fuel i buf = some (n, j) ∧ i < j := by
  induction fuel generalizing i with
  | zero => omega
  | succ fuel ih =>
    obtain ⟨c, cs, rfl⟩ := List.exists_cons_of_ne_nil hbuf
    rcases Nat.lt_or_ge i k with hi | hge
    · rw [socketSend]
      rw [before_of_lt answers hi] at hall
      cases hanswer : answers i with
      | none =>
        rw [hanswer, sendAll] at hall
        obtain ⟨n, j, hsend, hj⟩ := ih hall (by omega)
        exact ⟨n, j, hsend, by omega⟩
      | some a => exact ⟨_, _, rfl, Nat.lt_succ_self i⟩
    · rw [before, Nat.sub_eq_zero_of_le hge, List.range'_zero, List.map_nil, sendAll] at hall
      cases hall

/-- The loop with `Socket::send` gets through what is left only if it does on the answers before
the peer was gone. -/
theorem sendAll_of_feed {answers : ℕ → Option ℕ} {k : ℕ} (hdead : ∀ i, k ≤ i → answers i = none)
    {data : Bytes} {fuel passes sent i n j : ℕ} (hsent : sent ≤ data.length) (hi : i ≤ k)
    (hfeed : Sink.feed (socketSend answers fuel) data passes sent i = some (n, j)) (out : Bytes) :
    n = data.length ∧ j ≤ k ∧ ∃ out', sendAll (data.drop sent) (before answers i k) out =
      some ⟨before answers j k, out'⟩ := by
  induction passes generalizing sent i out with
  | zero => cases hfeed
  | succ passes ih =>
    rcases Nat.eq_or_lt_of_le hsent with rfl | hlt
    · rw [Sink.feed_of_le (Nat.le_refl _)] at hfeed
      cases hfeed
      exact ⟨rfl, hi, out, by rw [List.drop_length, sendAll]⟩
    · rw [Sink.feed_of_lt hlt] at hfeed
      obtain ⟨⟨n₁, j₁⟩, hsend, hrest⟩ := Option.bind_eq_some_iff.mp hfeed
      obtain ⟨hle, hj₁, out₁, hall⟩ :=
        sendAll_socketSend hdead (Sink.drop_ne_nil hlt) hsend out
      rw [List.length_drop] at hle
      rw [hall, List.drop_drop]
      exact ih (by omega) hj₁ hrest out₁

theorem feed_isSome_of_sendAll {answers : ℕ → Option ℕ} {k : ℕ}
    (hdead : ∀ i, k ≤ i → answers i = none) {data out : Bytes} {fuel passes sent i : ℕ}
    {wire : Wire} (hsent : sent ≤ data.length) (hi : i ≤ k)
    (hall : sendAll (data.drop sent) (before answers i k) out = some wire) (hfuel : k < fuel)
    (hpasses : k - i < passes) :
    ∃ result, Sink.feed (socketSend answers fuel) data passes sent i = some result := by
  induction passes generalizing sent i out with
  | zero => omega
  | succ passes ih =>
    rcases Nat.eq_or_lt_of_le hsent with rfl | hlt
    · exact ⟨_, Sink.feed_of_le (Nat.le_refl _) passes i⟩
    · obtain ⟨n, j, hsend, hj⟩ :=
        @socketSend_isSome _ _ _ _ _ _ (Sink.drop_ne_nil hlt) hall fuel (by omega)
      obtain ⟨hle, hjk, out', hrest⟩ :=
        sendAll_socketSend hdead (Sink.drop_ne_nil hlt) hsend out
      rw [List.length_drop] at hle
      rw [hrest, List.drop_drop] at hall
      rw [Sink.feed_of_lt hlt, hsend]
      exact @ih out' (sent + n) j (by omega) hjk hall (by omega)

theorem sendStream_of_pump {answers : ℕ → Option ℕ} {k : ℕ}
    (hdead : ∀ i, k ≤ i → answers i = none) {fuel passes streamSize realReadSize i : ℕ}
    {reads : List Bytes} {result : List Bytes × ℕ} (hi : i ≤ k)
    (hpump : pump pieceStream (socketSend answers fuel) streamSize passes realReadSize reads i =
      some result) (out : Bytes) :
    ∃ wire, sendStream (streamSize - realReadSize) reads ⟨before answers i k, out⟩ =
      some wire := by
  induction passes generalizing realReadSize reads i out with
  | zero => cases hpump
  | succ passes ih =>
    rw [pump] at hpump
    split at hpump
    · next hlt =>
      obtain ⟨⟨n, j⟩, hfeed, hrest⟩ := Option.bind_eq_some_iff.mp hpump
      obtain ⟨rfl, hj, out', hall⟩ := sendAll_of_feed hdead (Nat.zero_le _) hi hfeed out
      obtain ⟨wire, hwire⟩ := ih hj hrest out'
      obtain ⟨missing, hmissing⟩ := Nat.exists_eq_add_of_lt hlt
      have hleft : streamSize - realReadSize = missing + 1 := by omega
      rw [hleft]
      cases reads with
      | nil =>
        have hsame : streamSize - (realReadSize + ([] : Bytes).length) = missing + 1 := hleft
        simp only [pieceStream, List.headD_nil, List.tail_nil] at hwire
        rw [hsame, sendStream] at hwire
        cases hwire
      | cons buf reads =>
        have hnext : missing + 1 - buf.length = streamSize - (realReadSize + buf.length) := by
          omega
        refine ⟨wire, ?_⟩
        rw [List.drop_zero] at hall
        simp only [pieceStream, List.headD_cons, List.tail_cons] at hall hwire
        rw [sendStream, hall, hnext]
        exact hwire
    · next hge =>
      rw [Nat.sub_eq_zero_of_le (Nat.le_of_not_lt hge)]
      exact ⟨_, by rw [sendStream]⟩

theorem pump_isSome_of_sendStream {answers : ℕ → Option ℕ} {k : ℕ}
    (hdead : ∀ i, k ≤ i → answers i = none) {fuel passes streamSize realReadSize i : ℕ}
    {reads : List Bytes} {out : Bytes} {wire : Wire} (hi : i ≤ k)
    (hstream : sendStream (streamSize - realReadSize) reads ⟨before answers i k, out⟩ =
      some wire) (hfuel : k < fuel) (hpasses : k + reads.length < passes) :
    ∃ result, pump pieceStream (socketSend answers fuel) streamSize passes realReadSize reads i =
      some result := by
  induction reads generalizing passes realReadSize i out with
  | nil =>
    obtain ⟨passes, rfl⟩ : ∃ m, passes = m + 1 := ⟨passes - 1, by omega⟩
    cases hmissing : streamSize - realReadSize with
    | zero => exact ⟨([], i), by rw [pump, if_neg (by omega)]⟩
    | succ missing =>
      rw [hmissing, sendStream] at hstream
      cases hstream
  | cons buf reads ih =>
    rw [List.length_cons] at hpasses
    obtain ⟨passes, rfl⟩ : ∃ m, passes = m + 1 := ⟨passes - 1, by omega⟩
    cases hmissing : streamSize - realReadSize with
    | zero => exact ⟨(buf :: reads, i), by rw [pump, if_neg (by omega)]⟩
    | succ missing =>
      have hnext : missing + 1 - buf.length = streamSize - (realReadSize + buf.length) := by omega
      rw [hmissing, sendStream, hnext] at hstream
      obtain ⟨next, hnext, hrest⟩ := Option.bind_eq_some_iff.mp hstream
      have hall : sendAll (buf.drop 0) (before answers i k) out = some next := hnext
      obtain ⟨⟨n, j⟩, hfeed⟩ := @feed_isSome_of_sendAll _ _ hdead buf out fuel passes 0 i next
        (Nat.zero_le _) hi hall hfuel (by omega)
      obtain ⟨rfl, hj, out', hall'⟩ := sendAll_of_feed hdead (Nat.zero_le _) hi hfeed out
      rw [hall] at hall'
      cases hall'
      rw [pump, if_pos (by omega)]
      have hdata : (pieceStream.readsome (buf :: reads)).1 = buf := rfl
      rw [hdata, hfeed]
      exact ih hj hrest (by omega)

/-- `BufferRead` with `Socket::send` on a peer that is gone from the `k`-th call on. -/
theorem bufferRead_socketSend {answers : ℕ → Option ℕ} {k : ℕ}
    (hdead : ∀ i, k ≤ i → answers i = none) (d : DataReader) :
    (∃ fuel result, StreamReader.bufferRead pieceStream (socketSend answers fuel) fuel d.stream 0 =
      some result) ↔ ∃ wire, d.bufferRead ⟨before answers 0 k, []⟩ = some wire := by
  constructor
  · rintro ⟨fuel, result, hread⟩
    obtain ⟨⟨n, j⟩, hhead, hrest⟩ := Option.bind_eq_some_iff.mp hread
    obtain ⟨p, hbody, -⟩ := Option.bind_eq_some_iff.mp hrest
    obtain ⟨-, hj, out, hall⟩ := sendAll_of_feed hdead (Nat.zero_le _) (Nat.zero_le k) hhead []
    obtain ⟨wire, hwire⟩ := sendStream_of_pump hdead hj hbody out
    refine ⟨wire, ?_⟩
    rw [List.drop_zero] at hall
    rw [DataReader.bufferRead]
    simp only [stream] at hall hwire
    rw [hall]
    exact hwire
  · rintro ⟨wire, hwire⟩
    obtain ⟨next, hall, hrest⟩ := Option.bind_eq_some_iff.mp hwire
    have hfuel : k < k + d.reads.length + 1 := by omega
    have hall' : sendAll (d.beginData.drop 0) (before answers 0 k) [] = some next := hall
    obtain ⟨⟨n, j⟩, hfeed⟩ := feed_isSome_of_sendAll hdead (Nat.zero_le _) (Nat.zero_le k) hall'
      hfuel hfuel
    obtain ⟨-, hj, out, hnext⟩ := sendAll_of_feed hdead (Nat.zero_le _) (Nat.zero_le k) hfeed []
    rw [hall'] at hnext
    cases hnext
    obtain ⟨p, hpump⟩ := @pump_isSome_of_sendStream _ _ hdead _ _ _ 0 _ _ _ _ hj hrest hfuel
      (Nat.lt_succ_self _)
    refine ⟨k + d.reads.length + 1, (⟨d.beginData, d.streamSize, p.1⟩, p.2), ?_⟩
    rw [StreamReader.bufferRead]
    simp only [stream, hfeed, hpump, Option.bind_eq_bind, Option.bind_some]
    rfl

end DataReader

namespace Response

open DataReader (Reaches Covers before)

/-- The call of `BufferRead` in `HttpTask` returns. -/
def Returns (res : Response) (answers : ℕ → Option ℕ) : Prop :=
  ∃ fuel result, StreamReader.bufferRead pieceStream (socketSend answers fuel) fuel
    res.getDataReader.stream 0 = some result

/-- Once there is enough fuel, more changes nothing. -/
theorem Returns.eventually {res : Response} {answers : ℕ → Option ℕ} (h : res.Returns answers) :
    ∃ fuel result, ∀ more ≥ fuel, StreamReader.bufferRead pieceStream (socketSend answers more) more
      res.getDataReader.stream 0 = some result := by
  obtain ⟨fuel, result, hread⟩ := h
  refine ⟨fuel, result, fun more hle => ?_⟩
  exact StreamReader.bufferRead_mono (fun _ _ _ hr => DataReader.socketSend_mono hle hr) hle hread

/-- When every `::send` from the `k`-th on fails for good, the call returns exactly when the file
gives enough and the answers before took the head with the body, and every piece of the
file. -/
theorem returns_dead_iff (res : Response) {answers : ℕ → Option ℕ} {k : ℕ}
    (hdead : ∀ i, k ≤ i → answers i = none) :
    res.Returns answers ↔
      ∃ pieces, Reaches res.getDataReader.streamSize res.getDataReader.reads pieces ∧
        Covers (res.getDataReader.beginData :: pieces) (before answers 0 k) := by
  rw [Returns, DataReader.bufferRead_socketSend hdead]
  exact DataReader.bufferRead_isSome

/-- A peer that takes the response in one piece and is gone then. -/
theorem returns_dead_empty : Returns {} fun i => if i = 0 then some 38 else none := by
  refine (returns_dead_iff {} (k := 1) fun i hi => if_neg (by omega)).mpr ⟨[], .done _, ?_⟩
  have hgroup : before (fun i => if i = 0 then some 38 else none) 0 1 = [some 38] ++ [] := rfl
  rw [hgroup]
  exact .cons (by decide) (.nil [])

/-- A peer that is gone from the start. -/
theorem returns_dead_fails : ¬ ∀ (res : Response) (answers : ℕ → Option ℕ) (k : ℕ),
    (∀ i, k ≤ i → answers i = none) → res.Returns answers := by
  intro h
  have hreturns := h {} (fun _ => none) 0 fun _ _ => rfl
  rw [Returns, @DataReader.bufferRead_socketSend _ 0 fun _ _ => rfl] at hreturns
  obtain ⟨wire, hwire⟩ := hreturns
  cases hwire

end Response
end Calabash
