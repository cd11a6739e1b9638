import Calabash.Lib.Sinks
import Calabash.Web.Response

/-!
# `BufferRead` with any sink and any file stream

`BufferRead` gives the bytes it has to a function that takes some of what it is offered.
The file stream is known by what `readsome` and the seeks make of it.

## Main results

* `bufferRead_recorded` — what is delivered is the begin data and then what the stream gives.
* `bufferRead_mono` — a greater `fuel` changes nothing about a `BufferRead` that returns.
* `returns_iff` — `BufferRead` returns when the stream gives as many bytes as it has to.
* `delivers_again` — an open file is delivered whole, each time.
-/

namespace Calabash

open Sink (Offer accepted)

/-- `kReadBufSize`. -/
def kReadBufSize : ℕ := 4 * 1024

/-- What `DataReader` does with an `ifstream`, as a state of type `F`. -/
structure InputStream (F : Type) where
  /-- `readsome(buf, kReadBufSize)`, and the bytes it puts into `buf`. -/
  readsome : F → Bytes × F
  /-- `seekg(0, end)` and `tellg()`. -/
  tellEnd : F → ℤ × F
  /-- `seekg(0, beg)`. -/
  seekBeg : F → F

/-- `DataReader`, with the state of its file stream. -/
structure StreamReader (F : Type) where
  beginData : Bytes := []
  streamSize : ℕ := 0
  inputFileStream : F

namespace StreamReader
variable {F S : Type}

/-- `SetFileStream` with an open stream. -/
def setFileStream (file : InputStream F) (r : StreamReader F) (input : F) : StreamReader F :=
  { r with
    streamSize := toSizeT (file.tellEnd input).1
    inputFileStream := file.seekBeg (file.tellEnd input).2 }

/-- `SetBeginData`. -/
def setBeginData (r : StreamReader F) (data : Bytes) : StreamReader F :=
  { r with beginData := data }

/-- The loop of `BufferRead` over the file. With `fuel` each loop is left after so many passes at
the latest. -/
def pump (file : InputStream F) (func : Sink S UInt8) (streamSize : ℕ) :
    ℕ → ℕ → F → S → Option (F × S)
  | 0, _, _, _ => none
  | fuel + 1, realReadSize, f, s =>
    if realReadSize < streamSize then do
      let (pkRealSend, s) ← func.feed (file.readsome f).1 fuel 0 s
      pump file func streamSize fuel (realReadSize + pkRealSend) (file.readsome f).2 s
    else some (f, s)

/-- `BufferRead`. It never returns when this is `none` for every `fuel`. -/
def bufferRead (file : InputStream F) (func : Sink S UInt8) (fuel : ℕ) (r : StreamReader F)
    (s : S) : Option (StreamReader F × S) := do
  let (_, s) ← func.feed r.beginData fuel 0 s
  let (f, s) ← pump file func r.streamSize fuel 0 r.inputFileStream s
  return ({ r with inputFileStream := file.seekBeg f }, s)

/-- The pieces that successive `readsome` calls give, with `missing` bytes to go, and the
stream behind them. -/
inductive Pulls (file : InputStream F) : ℕ → F → List Bytes → F → Prop
  | done (f : F) : Pulls file 0 f [] f
  | more {missing : ℕ} {f f' : F} {pieces : List Bytes} :
      Pulls file (missing + 1 - (file.readsome f).1.length) (file.readsome f).2 pieces f' →
      Pulls file (missing + 1) f ((file.readsome f).1 :: pieces) f'

theorem Pulls.unique {file : InputStream F} {missing : ℕ} {f f₁ f₂ : F}
    {pieces₁ pieces₂ : List Bytes} (h₁ : Pulls file missing f pieces₁ f₁)
    (h₂ : Pulls file missing f pieces₂ f₂) : pieces₁ = pieces₂ := by
  induction h₁ generalizing pieces₂ with
  | done f =>
    cases h₂
    rfl
  | more _ ih =>
    cases h₂ with
    | more h₂ => rw [ih h₂]

/-! ## The bound -/

theorem pump_mono {file : InputStream F} {func func' : Sink S UInt8}
    (hfunc : ∀ s elems r, func s elems = some r → func' s elems = some r)
    {streamSize fuel more realReadSize : ℕ} (hle : fuel ≤ more) {f : F} {s : S} {result : F × S}
    (h : pump file func streamSize fuel realReadSize f s = some result) :
    pump file func' streamSize more realReadSize f s = some result := by
  induction fuel generalizing more realReadSize f s with
  | zero => cases h
  | succ fuel ih =>
    obtain ⟨more, rfl⟩ : ∃ m, more = m + 1 := ⟨more - 1, by omega⟩
    rw [pump] at h ⊢
    by_cases hlt : realReadSize < streamSize
    · rw [if_pos hlt] at h ⊢
      obtain ⟨r, hr, hrest⟩ := Option.bind_eq_some_iff.mp h
      rw [Sink.feed_mono hfunc (by omega) hr]
      exact ih (by omega) hrest
    · rw [if_neg hlt] at h ⊢
      exact h

/-- A greater bound, and a sink that comes back more often, change nothing about a `BufferRead`
that returns. -/
theorem bufferRead_mono {file : InputStream F} {func func' : Sink S UInt8}
    (hfunc : ∀ s elems r, func s elems = some r → func' s elems = some r) {fuel more : ℕ}
    (hle : fuel ≤ more) {r : StreamReader F} {s : S} {result : StreamReader F × S}
    (h : bufferRead file func fuel r s = some result) :
    bufferRead file func' more r s = some result := by
  obtain ⟨p, hhead, hrest⟩ := Option.bind_eq_some_iff.mp h
  obtain ⟨q, hbody, hend⟩ := Option.bind_eq_some_iff.mp hrest
  rw [bufferRead, Sink.feed_mono hfunc hle hhead, Option.bind_eq_bind, Option.bind_some]
  simp only [pump_mono hfunc hle hbody]
  exact hend

/-! ## What is delivered -/

/-- A loop that ends has got what it needs from the stream and delivered it, and made no empty
offer. -/
theorem pump_recorded {file : InputStream F} {func : Sink S UInt8} (h : func.Within)
    {streamSize fuel realReadSize : ℕ} {f : F} {p : S × List (Offer UInt8)}
    {result : F × S × List (Offer UInt8)}
    (hpump : pump file func.recorded streamSize fuel realReadSize f p = some result) :
    ∃ pieces more, Pulls file (streamSize - realReadSize) f pieces result.1 ∧
      result.2.2 = p.2 ++ more ∧ accepted more = pieces.flatten ∧ ∀ o ∈ more, o.elems ≠ [] := by
  induction fuel generalizing realReadSize f p with
  | zero => cases hpump
  | succ fuel ih =>
    rw [pump] at hpump
    split at hpump
    · next hlt =>
      obtain ⟨⟨n, p'⟩, hfeed, hrest⟩ := Option.bind_eq_some_iff.mp hpump
      obtain ⟨hcount, more₁, hlog₁, hacc₁, hne₁⟩ := Sink.feed_recorded h (Nat.zero_le _) hfeed
      obtain ⟨pieces, more₂, hpulls, hlog₂, hacc₂, hne₂⟩ := ih hrest
      obtain ⟨missing, hmissing⟩ := Nat.exists_eq_add_of_lt hlt
      have hleft : streamSize - realReadSize = missing + 1 := by omega
      have hnext : missing + 1 - (file.readsome f).1.length = streamSize - (realReadSize + n) := by
        simp only at hcount
        omega
      refine ⟨(file.readsome f).1 :: pieces, more₁ ++ more₂, ?_, ?_, ?_, ?_⟩
      · rw [hleft]
        exact .more (by rwa [hnext])
      · rw [hlog₂, hlog₁, List.append_assoc]
      · rw [Sink.accepted_append, hacc₁, hacc₂, List.drop_zero, List.flatten_cons]
      · intro o ho
        rcases List.mem_append.mp ho with ho | ho
        · exact hne₁ o ho
        · exact hne₂ o ho
    · next hge =>
      cases hpump
      refine ⟨[], [], ?_, (List.append_nil _).symm, rfl, fun o ho => absurd ho List.not_mem_nil⟩
      rw [Nat.sub_eq_zero_of_le (Nat.le_of_not_lt hge)]
      exact .done f

/-- On a sink that takes, the loop ends when the stream gives what it needs. -/
theorem pump_isSome {file : InputStream F} {func : Sink S UInt8} (h : func.Takes) {missing : ℕ}
    {f f' : F} {pieces : List Bytes} (hpulls : Pulls file missing f pieces f')
    {streamSize realReadSize fuel : ℕ} (hsize : streamSize - realReadSize = missing)
    (hfuel : pieces.length + pieces.flatten.length < fuel) (p : S × List (Offer UInt8)) :
    ∃ result, pump file func.recorded streamSize fuel realReadSize f p = some result := by
  induction hpulls generalizing realReadSize fuel p with
  | done f =>
    obtain ⟨fuel, rfl⟩ := Nat.exists_eq_add_of_lt hfuel
    exact ⟨(f, p), by rw [pump, if_neg (by omega)]⟩
  | @more missing f f' pieces _ ih =>
    obtain ⟨fuel, rfl⟩ : ∃ n, fuel = n + 1 := ⟨fuel - 1, by omega⟩
    rw [List.length_cons, List.flatten_cons, List.length_append] at hfuel
    obtain ⟨⟨n, p'⟩, hfeed⟩ :=
      @Sink.feed_isSome _ _ _ h.recorded (file.readsome f).1 fuel 0 (by omega) p
    have hcount : n = (file.readsome f).1.length :=
      (Sink.feed_recorded h.within (Nat.zero_le _) hfeed).1
    rw [pump, if_pos (by omega), hfeed]
    exact ih (by omega) (by omega) p'

/-- What was delivered when `BufferRead` returns is the begin data and then what the stream gave
until that was enough, and no offer was empty. -/
theorem bufferRead_recorded {file : InputStream F} {func : Sink S UInt8} (h : func.Within)
    {fuel : ℕ} {r r' : StreamReader F} {s s' : S} {log : List (Offer UInt8)}
    (hread : bufferRead file func.recorded fuel r (s, []) = some (r', s', log)) :
    ∃ pieces f', Pulls file r.streamSize r.inputFileStream pieces f' ∧
      accepted log = r.beginData ++ pieces.flatten ∧ ∀ o ∈ log, o.elems ≠ [] := by
  obtain ⟨⟨n, p⟩, hhead, hrest⟩ := Option.bind_eq_some_iff.mp hread
  obtain ⟨⟨f', p'⟩, hbody, hend⟩ := Option.bind_eq_some_iff.mp hrest
  cases hend
  obtain ⟨-, more₁, hlog₁, hacc₁, hne₁⟩ := Sink.feed_recorded h (Nat.zero_le _) hhead
  obtain ⟨pieces, more₂, hpulls, hlog₂, hacc₂, hne₂⟩ := pump_recorded h hbody
  simp only [List.nil_append] at hlog₁ hlog₂
  subst hlog₁
  subst hlog₂
  refine ⟨pieces, f', hpulls, ?_, ?_⟩
  · rw [Sink.accepted_append, hacc₁, hacc₂, List.drop_zero]
  · intro o ho
    rcases List.mem_append.mp ho with ho | ho
    · exact hne₁ o ho
    · exact hne₂ o ho

/-- On a sink that takes, `BufferRead` returns when the stream gives what it needs. -/
theorem bufferRead_isSome {file : InputStream F} {func : Sink S UInt8} (h : func.Takes)
    {r : StreamReader F} {pieces : List Bytes} {f' : F}
    (hpulls : Pulls file r.streamSize r.inputFileStream pieces f') {fuel : ℕ}
    (hfuel : r.beginData.length + pieces.length + pieces.flatten.length < fuel) (s : S) :
    ∃ result, bufferRead file func.recorded fuel r (s, []) = some result := by
  obtain ⟨⟨n, p⟩, hhead⟩ :=
    @Sink.feed_isSome _ _ _ h.recorded r.beginData fuel 0 (by omega) (s, [])
  obtain ⟨⟨f, p'⟩, hbody⟩ := pump_isSome h hpulls (Nat.sub_zero _) (by omega : _ < fuel) p
  refine ⟨({ r with inputFileStream := file.seekBeg f }, p'), ?_⟩
  rw [bufferRead, hhead, Option.bind_eq_bind, Option.bind_some]
  simp only [hbody]
  rfl

/-- On a sink that takes, `BufferRead` returns exactly when the stream gives as many bytes as
its size says. -/
theorem returns_iff {file : InputStream F} {func : Sink S UInt8} (h : func.Takes)
    (r : StreamReader F) (s : S) :
    (∃ fuel result, bufferRead file func.recorded fuel r (s, []) = some result) ↔
      ∃ pieces f', Pulls file r.streamSize r.inputFileStream pieces f' := by
  constructor
  · rintro ⟨fuel, ⟨r', s', log⟩, hread⟩
    obtain ⟨pieces, f', hpulls, -⟩ := bufferRead_recorded h.within hread
    exact ⟨pieces, f', hpulls⟩
  · rintro ⟨pieces, f', hpulls⟩
    exact ⟨_, bufferRead_isSome h hpulls (Nat.lt_succ_self _) s⟩

/-! ## Open files -/

/-- A stream on an open file: `rest` is what is between its position and the end. As long as
there is something, `readsome` gives at least one byte of it and no more than fit `buf`. -/
structure OnFile (file : InputStream F) (content : Bytes) (rest : F → Bytes) : Prop where
  readsome : ∀ f, rest f ≠ [] → 1 ≤ (file.readsome f).1.length ∧
    (file.readsome f).1.length ≤ kReadBufSize ∧
    rest f = (file.readsome f).1 ++ rest (file.readsome f).2
  tellEnd : ∀ f, (file.tellEnd f).1 = content.length
  seekBeg : ∀ f, rest (file.seekBeg f) = content

theorem OnFile.pulls {file : InputStream F} {content : Bytes} {rest : F → Bytes}
    (h : OnFile file content rest) (f : F) :
    ∃ pieces f', Pulls file (rest f).length f pieces f' ∧ pieces.flatten = rest f := by
  induction hleft : (rest f).length using Nat.strongRecOn generalizing f with
  | ind left ih =>
    cases left with
    | zero =>
      rw [List.length_eq_zero_iff] at hleft
      exact ⟨[], f, .done f, by rw [hleft, List.flatten_nil]⟩
    | succ left =>
      obtain ⟨hpos, -, hrest⟩ := h.readsome f (by rintro hnil; rw [hnil] at hleft; cases hleft)
      have hlength : (rest (file.readsome f).2).length =
          left + 1 - (file.readsome f).1.length := by
        rw [hrest, List.length_append] at hleft
        omega
      obtain ⟨pieces, f', hpulls, hflatten⟩ := ih _ (by omega) (file.readsome f).2 hlength
      exact ⟨_, f', .more hpulls, by rw [List.flatten_cons, hflatten, ← hrest]⟩

/-- The stream on an open file that gives as much as fits `buf`; its state is the position. -/
def openFile (content : Bytes) : InputStream ℕ where
  readsome pos := ((content.drop pos).take kReadBufSize, pos + kReadBufSize)
  tellEnd _ := (content.length, content.length)
  seekBeg _ := 0

theorem onFile_openFile (content : Bytes) :
    OnFile (openFile content) content fun pos => content.drop pos where
  readsome pos hrest := by
    have hpos := List.length_pos_iff.mpr hrest
    have hbuf : 0 < kReadBufSize := by decide
    refine ⟨?_, List.length_take_le _ _, ?_⟩
    · rw [openFile, List.length_take]
      omega
    · rw [openFile, ← List.drop_drop, List.take_append_drop]
  tellEnd _ := rfl
  seekBeg _ := rfl

/-- On every sink that takes, `BufferRead` returns, all of the offers have a byte at least, and
these bytes are accepted. -/
def Delivers (file : InputStream F) (r : StreamReader F) (bytes : Bytes) : Prop :=
  ∀ (S : Type) (func : Sink S UInt8), func.Takes → ∀ s, ∃ fuel r' s' log,
    bufferRead file func.recorded fuel r (s, []) = some (r', s', log) ∧ accepted log = bytes ∧
      ∀ o ∈ log, o.elems ≠ []

theorem OnFile.delivers {file : InputStream F} {content : Bytes} {rest : F → Bytes}
    (h : OnFile file content rest) {r : StreamReader F}
    (hsize : r.streamSize = content.length) (hstart : rest r.inputFileStream = content) :
    Delivers file r (r.beginData ++ content) := by
  intro S func hfunc s
  obtain ⟨pieces, f, hpulls, hflatten⟩ := h.pulls r.inputFileStream
  rw [hstart, ← hsize] at hpulls
  obtain ⟨fuel, ⟨r', s', log⟩, hread⟩ := (returns_iff hfunc r s).mpr ⟨pieces, f, hpulls⟩
  obtain ⟨pieces', f', hpulls', hacc, hne⟩ := bufferRead_recorded hfunc.within hread
  rw [hpulls'.unique hpulls, hflatten, hstart] at hacc
  exact ⟨fuel, r', s', log, hread, hacc, hne⟩

/-- A reader of an open file delivers the begin data and the file, and does so again after
every `BufferRead`. -/
theorem delivers_again {file : InputStream F} {content : Bytes} {rest : F → Bytes}
    (h : OnFile file content rest) (hsmall : content.length < 2 ^ 63) (r₀ : StreamReader F)
    (input : F) (data : Bytes) :
    Delivers file ((r₀.setFileStream file input).setBeginData data) (data ++ content) ∧
      ∀ (S : Type) (func : Sink S UInt8) (fuel : ℕ) (s s' : S) (r' : StreamReader F),
        bufferRead file func fuel ((r₀.setFileStream file input).setBeginData data) s =
          some (r', s') → Delivers file r' (data ++ content) := by
  have hsize : toSizeT (file.tellEnd input).1 = content.length := by
    rw [h.tellEnd, toSizeT_natCast (by omega)]
  refine ⟨h.delivers hsize (h.seekBeg _), ?_⟩
  intro S func fuel s s' r' hread
  obtain ⟨p, -, hrest⟩ := Option.bind_eq_some_iff.mp hread
  obtain ⟨q, -, hend⟩ := Option.bind_eq_some_iff.mp hrest
  cases hend
  exact h.delivers hsize (h.seekBeg _)

theorem delivers_again_openFile :
    Delivers (openFile [1, 2, 3])
        ((setFileStream (openFile [1, 2, 3]) ⟨[], 0, 0⟩ 0).setBeginData [7]) [7, 1, 2, 3] ∧
      ∀ (S : Type) (func : Sink S UInt8) (fuel : ℕ) (s s' : S) (r' : StreamReader ℕ),
        bufferRead (openFile [1, 2, 3]) func fuel
          ((setFileStream (openFile [1, 2, 3]) ⟨[], 0, 0⟩ 0).setBeginData [7]) s =
            some (r', s') → Delivers (openFile [1, 2, 3]) r' [7, 1, 2, 3] :=
  delivers_again (onFile_openFile [1, 2, 3]) (by decide) ⟨[], 0, 0⟩ 0 [7]

end StreamReader
end Calabash
