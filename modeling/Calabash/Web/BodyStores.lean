import Calabash.Web.Sending

/-!
# The two stores of a body

The body of a response is in `body_data_` and in a file behind it, and each setter writes one of
them. A file that could not be opened has the size that -1 becomes, and one that was cut shorter
gives less than its size was.

## Main results

* `sends_iff` — what is sent is the head, `body_data_` and what is read of the file.
* `sends_honestly_iff` — when a response is sent, with as many bytes as it says.
* `autoFileData_sends_iff` — when `AutoFileData` means the file.
-/

namespace Calabash

open Sink (accepted)

/-- What successive `readsome` calls give of a file whose position is `pos`. Between them it may
be cut to a smaller size; as long as there is something behind the position, they give at least
one byte of it and no more than fit their buffer. -/
inductive Gives (content : Bytes) : ℕ → ℕ → List Bytes → Prop
  | stop {size size' pos : ℕ} : size' ≤ size → size' ≤ pos → Gives content size pos []
  | read {size size' pos n : ℕ} {reads : List Bytes} : size' ≤ size → 1 ≤ n →
      n ≤ kReadBufSize → pos + n ≤ size' → Gives content size' (pos + n) reads →
      Gives content size pos ((content.drop pos).take n :: reads)

/-- What a path names: nothing that can be opened, or a file with its contents when it is set. -/
structure NamedFile extends File where
  named : toFile = ⟨-1, [], []⟩ ∨ tellg = contents.length ∧ contents.length < 2 ^ 63 ∧
    Gives contents contents.length 0 reads

theorem Gives.isPrefix {content : Bytes} {size pos : ℕ} {reads : List Bytes}
    (h : Gives content size pos reads) : reads.flatten <+: content.drop pos := by
  induction h with
  | stop _ _ => exact List.nil_prefix
  | @read size size' pos n reads _ _ _ _ _ ih =>
    rw [← List.drop_drop] at ih
    rw [List.flatten_cons]
    calc (content.drop pos).take n ++ reads.flatten
        <+: (content.drop pos).take n ++ (content.drop pos).drop n :=
          (List.prefix_append_right_inj _).mpr ih
      _ = content.drop pos := List.take_append_drop n _

namespace NamedFile

/-- Nothing was cut off before it was read. -/
def Unchanged (f : NamedFile) : Prop := f.reads.flatten = f.contents

/-- The file could be opened, and gives all of its contents. -/
def Whole (f : NamedFile) : Prop := f.tellg ≠ -1 ∧ f.Unchanged

theorem small (f : NamedFile) : f.contents.length < 2 ^ 63 := by
  rcases f.named with hmissing | ⟨-, hsmall, -⟩
  · rw [hmissing]
    decide
  · exact hsmall

/-- The file gives as many bytes as its size says exactly when it is whole. -/
theorem whole_iff (f : NamedFile) : toSizeT f.tellg ≤ f.reads.flatten.length ↔ f.Whole := by
  rcases f.named with hmissing | ⟨htellg, hsmall, hgives⟩
  · rw [Whole, hmissing]
    simp [toSizeT]
  · have hsize : toSizeT f.tellg = f.contents.length := by
      rw [htellg, toSizeT_natCast (by omega)]
    rw [hsize, Whole, Unchanged]
    constructor
    · intro hle
      exact ⟨by omega, hgives.isPrefix.eq_of_length_le hle⟩
    · rintro ⟨-, hunchanged⟩
      rw [hunchanged]

theorem Whole.size {f : NamedFile} (h : f.Whole) : toSizeT f.tellg = f.reads.flatten.length := by
  rcases f.named with hmissing | ⟨htellg, hsmall, -⟩
  · exact absurd (by rw [hmissing]) h.1
  · rw [htellg, toSizeT_natCast (by omega), h.2]

end NamedFile

namespace Response

open DataReader (Reaches)

variable {S : Type}

/-- The size that `GetDataReader` gives to `MakeHttpHead`. -/
def contentLength (res : Response) : ℕ :=
  (res.bodyData.length + res.dataReader.streamSize) % 2 ^ 64

/-- `BufferRead` on the response returns, and has delivered the head and then these bytes. -/
def Sends (res : Response) (func : Sink S UInt8) (s : S) (behind : Bytes) : Prop :=
  ∃ fuel r' s' log, StreamReader.bufferRead pieceStream func.recorded fuel
      res.getDataReader.stream (s, []) = some (r', s', log) ∧
    accepted log = res.makeHttpHead res.contentLength ++ behind

/-- On a sink that takes, what is behind the head is `body_data_` and what is read of the
file. -/
theorem sends_iff {func : Sink S UInt8} (h : func.Takes) (res : Response) (s : S)
    (behind : Bytes) :
    res.Sends func s behind ↔
      ∃ pieces, Reaches res.dataReader.streamSize res.dataReader.reads pieces ∧
        behind = res.bodyData ++ pieces.flatten := by
  have hbegin : res.getDataReader.beginData =
      res.makeHttpHead res.contentLength ++ res.bodyData := rfl
  constructor
  · rintro ⟨fuel, r', s', log, hread, hacc⟩
    obtain ⟨pieces, hreaches, hpieces⟩ := DataReader.pieces_recorded h.within hread
    rw [hacc, hbegin, List.append_assoc] at hpieces
    exact ⟨pieces, hreaches, List.append_cancel_left hpieces⟩
  · rintro ⟨pieces, hreaches, rfl⟩
    obtain ⟨fuel, ⟨r', s', log⟩, hread⟩ :=
      (DataReader.pieces_returns_iff h res.getDataReader s).mpr
        (DataReader.exists_reaches_iff.mp ⟨pieces, hreaches⟩)
    obtain ⟨pieces', hreaches', hpieces⟩ := DataReader.pieces_recorded h.within hread
    refine ⟨fuel, r', s', log, hread, ?_⟩
    rw [hpieces, hbegin, List.append_assoc, hreaches'.unique hreaches]

end Response

/-- A call that sets a body. A string is shorter than 2^63. -/
inductive BodyCall
  | bodyData (dat : Bytes) (small : dat.length < 2 ^ 63)
  | bodyDataFile (file : NamedFile)
  | bodyDataStream (file : NamedFile)
  | autoFileData (file : NamedFile)

namespace BodyCall

open DataReader (Reaches)

variable {S : Type}

def apply (res : Response) : BodyCall → Response
  | bodyData dat _ => res.setBodyData dat
  | bodyDataFile file => res.setBodyData file.contents
  | bodyDataStream file => res.bodyDataStream file.toFile
  | autoFileData file => res.autoFileData file.toFile

/-- The file that the call puts behind the body. -/
def stream? : BodyCall → Option NamedFile
  | bodyDataStream file => some file
  | autoFileData file => if 1024 * 1024 < toSizeT file.tellg then some file else none
  | _ => none

/-- The file that is behind the body after the calls. -/
def streamed (calls : List BodyCall) : Option NamedFile := (calls.filterMap stream?).getLast?

/-- A response with this code and these headers after the calls. -/
def build (code : ℤ) (headers : List (Bytes × Bytes)) (calls : List BodyCall) : Response :=
  calls.foldl apply { code, headers }

/-- The stores of a response with this file behind its body. -/
structure Holds (file : Option NamedFile) (res : Response) : Prop where
  small : res.bodyData.length < 2 ^ 63
  stream : match file with
    | none => res.dataReader.streamSize = 0
    | some f => res.dataReader.streamSize = toSizeT f.tellg ∧ res.dataReader.reads = f.reads

theorem streamed_concat (calls : List BodyCall) (call : BodyCall) :
    streamed (calls ++ [call]) = call.stream?.or (streamed calls) := by
  rw [streamed, List.filterMap_append]
  cases hcall : call.stream? with
  | none => simp [hcall, streamed]
  | some f => simp [hcall]

theorem Holds.apply {file : Option NamedFile} {res : Response} (h : Holds file res)
    (call : BodyCall) : Holds (call.stream?.or file) (call.apply res) := by
  cases call with
  | bodyData dat small => exact ⟨small, h.stream⟩
  | bodyDataFile f => exact ⟨f.small, h.stream⟩
  | bodyDataStream f => exact ⟨h.small, rfl, rfl⟩
  | autoFileData f =>
    rw [BodyCall.apply, Response.autoFileData, stream?]
    split
    · exact ⟨h.small, rfl, rfl⟩
    · exact ⟨f.small, h.stream⟩

theorem holds_build (code : ℤ) (headers : List (Bytes × Bytes)) (calls : List BodyCall) :
    Holds (streamed calls) (build code headers calls) := by
  induction calls using List.reverseRecOn with
  | nil => exact ⟨Nat.two_pow_pos 63, rfl⟩
  | append_singleton calls call ih =>
    rw [streamed_concat, build, List.foldl_concat]
    exact ih.apply call

/-- `BufferRead` returns, and if the file behind the body did not change, the length in the
head is that of what was delivered behind it. -/
def SendsHonestly (calls : List BodyCall) (res : Response) (func : Sink S UInt8) (s : S) : Prop :=
  ∃ behind, res.Sends func s behind ∧
    ((∀ f, streamed calls = some f → f.Unchanged) → behind.length = res.contentLength)

/-- Whatever was set before, on a sink that takes a response is sent honestly exactly when the
file behind its body, if there is one, could be opened and is not cut before it is read. -/
theorem sends_honestly_iff (code : ℤ) (headers : List (Bytes × Bytes)) (calls : List BodyCall)
    {func : Sink S UInt8} (h : func.Takes) (s : S) :
    SendsHonestly calls (build code headers calls) func s ↔
      ∀ f, streamed calls = some f → f.Whole := by
  obtain ⟨hsmall, hstream⟩ := holds_build code headers calls
  rw [SendsHonestly]
  simp only [Response.sends_iff h]
  cases hfile : streamed calls with
  | none =>
    rw [hfile] at hstream
    have hnone : ∀ f : NamedFile, none = some f → f.Whole := fun f hf => by cases hf
    refine iff_of_true ⟨_, ⟨[], ?_, rfl⟩, fun _ => ?_⟩ hnone
    · rw [hstream]
      exact .done _
    · rw [Response.contentLength, hstream, List.flatten_nil, List.append_nil, Nat.add_zero,
        Nat.mod_eq_of_lt (by omega)]
  | some f =>
    rw [hfile] at hstream
    obtain ⟨hsize, hreads⟩ := hstream
    rw [hsize, hreads]
    constructor
    · rintro ⟨behind, ⟨pieces, hreaches, -⟩, -⟩ g hg
      cases hg
      exact f.whole_iff.mp (DataReader.exists_reaches_iff.mp ⟨pieces, hreaches⟩)
    · intro hwhole
      have hf := hwhole f rfl
      obtain ⟨pieces, hreaches⟩ := DataReader.exists_reaches_iff.mpr hf.size.le
      refine ⟨_, ⟨pieces, hreaches, rfl⟩, fun _ => ?_⟩
      have hflatten := hreaches.flatten hf.size.symm
      have hcontents := f.small
      rw [Response.contentLength, hsize, hf.size, List.length_append, hflatten, hf.2,
        Nat.mod_eq_of_lt (by omega)]

/-- A file of two bytes that are read one at a time, behind a body of one. -/
theorem sends_honestly_small : ∃ f : NamedFile,
    SendsHonestly [.bodyData [65] (by decide), .bodyDataStream f]
      (build 200 [] [.bodyData [65] (by decide), .bodyDataStream f]) Sink.takeAll () := by
  have hgives : Gives [66, 67] 2 0 [[66], [67]] :=
    .read (Nat.le_refl 2) (Nat.le_refl 1) (by decide) (by decide)
      (.read (Nat.le_refl 2) (Nat.le_refl 1) (by decide) (by decide)
        (.stop (Nat.le_refl 2) (Nat.le_refl 2)))
  refine ⟨⟨⟨2, [66, 67], [[66], [67]]⟩, .inr ⟨rfl, by decide, hgives⟩⟩, ?_⟩
  refine (sends_honestly_iff 200 [] _ Sink.takes_takeAll ()).mpr ?_
  intro f hf
  cases hf
  have hopened : (2 : ℤ) ≠ -1 := by decide
  exact ⟨hopened, rfl⟩

/-- A path that names nothing: the loop waits for 2^64 - 1 bytes. -/
theorem sends_honestly_fails : ∃ f : NamedFile, f.tellg = -1 ∧
    ¬ SendsHonestly [.bodyDataStream f] (build 200 [] [.bodyDataStream f]) Sink.takeAll () := by
  refine ⟨⟨⟨-1, [], []⟩, .inl rfl⟩, rfl, ?_⟩
  rintro ⟨behind, hsends, -⟩
  obtain ⟨pieces, hreaches, -⟩ := (Response.sends_iff Sink.takes_takeAll _ () behind).mp hsends
  have hle := DataReader.exists_reaches_iff.mp ⟨pieces, hreaches⟩
  revert hle
  decide

end BodyCall

namespace Response

open DataReader (Reaches)

variable {S : Type}

/-- In whatever state a response is: on a sink that takes, what is sent after `AutoFileData` is
the file exactly when there is nothing in the store that the call does not write. -/
theorem autoFileData_sends_iff (res : Response) (file : SteadyFile) {func : Sink S UInt8}
    (h : func.Takes) (s : S) :
    (res.autoFileData file.toFile).Sends func s file.contents ↔
      if file.contents.length ≤ 1024 * 1024 then res.dataReader.streamSize = 0
      else res.bodyData = [] := by
  have hsize : toSizeT file.tellg = file.contents.length := by
    have hsmall := file.small
    rw [file.tellg_eq, toSizeT_natCast (by omega)]
  rw [sends_iff h, autoFileData, hsize]
  by_cases hbig : 1024 * 1024 < file.contents.length
  · rw [if_pos hbig, if_neg (by omega)]
    simp only [bodyDataStream, DataReader.setFileStream, hsize]
    have hlength : file.reads.flatten.length = file.contents.length := by rw [file.reads_eq]
    obtain ⟨pieces, hreaches⟩ := DataReader.exists_reaches_iff.mpr hlength.ge
    have hflatten := (hreaches.flatten hlength).trans file.reads_eq
    constructor
    · rintro ⟨pieces', hreaches', hbody⟩
      rw [hreaches'.unique hreaches, hflatten] at hbody
      simpa using hbody
    · intro hbody
      exact ⟨pieces, hreaches, by rw [hbody, hflatten, List.nil_append]⟩
  · rw [if_neg hbig, if_pos (by omega)]
    simp only [setBodyData]
    constructor
    · rintro ⟨pieces, hreaches, hbody⟩
      have hnil : pieces.flatten = [] := by simpa using hbody
      have hle := hreaches.le_length
      rw [hnil] at hle
      exact Nat.le_zero.mp hle
    · intro hstream
      rw [hstream]
      exact ⟨[], .done _, by simp⟩

/-- A file of one byte, which is read at once. -/
def byteFile (c : UInt8) : SteadyFile where
  tellg := 1
  contents := [c]
  reads := [[c]]
  tellg_eq := rfl
  reads_eq := rfl
  small := Nat.one_lt_two_pow (by decide)

theorem autoFileData_sends_first :
    ((({} : Response).setBodyData [65]).autoFileData (byteFile 66).toFile).Sends Sink.takeAll ()
      [66] :=
  (autoFileData_sends_iff (({} : Response).setBodyData [65]) (byteFile 66) Sink.takes_takeAll
    ()).mpr rfl

/-- A file that was set to be streamed before is still sent behind the new one. -/
theorem autoFileData_sends_fails :
    ¬ ((({} : Response).bodyDataStream (byteFile 65).toFile).autoFileData
      (byteFile 66).toFile).Sends Sink.takeAll () [66] := by
  have hshort : ¬ 1024 * 1024 < toSizeT (byteFile 66).tellg := by decide
  rw [sends_iff Sink.takes_takeAll, autoFileData, if_neg hshort]
  rintro ⟨pieces, hreaches, hbody⟩
  have hle : 1 ≤ pieces.flatten.length := hreaches.le_length
  have happend : [66] ++ [] = [66] ++ pieces.flatten := hbody
  have hnil := List.append_cancel_left happend
  rw [← hnil] at hle
  cases hle

end Response
end Calabash
