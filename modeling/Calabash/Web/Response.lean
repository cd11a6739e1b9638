import Calabash.Cpp
import Mathlib.Algebra.BigOperators.Group.List.Basic
import Mathlib.Algebra.GroupWithZero.Nat
import Mathlib.Data.List.ReduceOption

/-!
# `Response` and the `DataReader` that sends it

What successive `::send` calls answer is a list: how many bytes were taken, or nothing for
the answer -1. What successive `readsome` calls on the open file give is a list of byte
strings. At the end of a list there is nothing more to be had, and a loop that waits for it
goes on for ever.
-/

namespace Calabash

/-- What `::send` has yet to answer, and the bytes it has taken. -/
structure Wire where
  answers : List (Option ℕ)
  sent : Bytes := []

/-- A file as `ifstream` sees it: the position of its end, -1 when it cannot be opened;
the bytes an `istreambuf_iterator` runs over; and what successive `readsome` calls give. -/
structure File where
  tellg : ℤ
  contents : Bytes
  reads : List Bytes

/-- `DataReader`; `reads` stands for its file stream. -/
structure DataReader where
  beginData : Bytes := []
  streamSize : ℕ := 0
  reads : List Bytes := []

namespace DataReader

/-- The loop of `BufferRead` over a run of bytes, with `Socket::send` inside: an `::send`
that answers -1 is made again. -/
def sendAll : Bytes → List (Option ℕ) → Bytes → Option Wire
  | [], answers, sent => some ⟨answers, sent⟩
  | _ :: _, [], _ => none
  | c :: cs, none :: answers, sent => sendAll (c :: cs) answers sent
  | c :: cs, some n :: answers, sent =>
    sendAll ((c :: cs).drop n) answers (sent ++ (c :: cs).take n)

/-- The loop of `BufferRead` over the file, with `missing` bytes of it to go. -/
def sendStream : ℕ → List Bytes → Wire → Option Wire
  | 0, _, wire => some wire
  | _ + 1, [], _ => none
  | missing + 1, buf :: reads, wire => do
    let wire ← sendAll buf wire.answers wire.sent
    sendStream (missing + 1 - buf.length) reads wire

/-- `BufferRead` with `Socket::send`; `none` when it never returns. -/
def bufferRead (d : DataReader) (wire : Wire) : Option Wire := do
  let wire ← sendAll d.beginData wire.answers wire.sent
  sendStream d.streamSize d.reads wire

/-- The answers cover the pieces: they fall into groups, one for each piece, and those of a
group take at least as much as the piece is long. -/
inductive Covers : List Bytes → List (Option ℕ) → Prop
  | nil (answers : List (Option ℕ)) : Covers [] answers
  | cons {piece : Bytes} {pieces : List Bytes} {group rest : List (Option ℕ)} :
      piece.length ≤ group.reduceOption.sum → Covers pieces rest →
      Covers (piece :: pieces) (group ++ rest)

/-- The pieces of the file that the loop reads, with `missing` bytes to go. -/
inductive Reaches : ℕ → List Bytes → List Bytes → Prop
  | done (reads : List Bytes) : Reaches 0 reads []
  | more {missing : ℕ} {buf : Bytes} {reads pieces : List Bytes} :
      Reaches (missing + 1 - buf.length) reads pieces →
      Reaches (missing + 1) (buf :: reads) (buf :: pieces)

theorem Covers.append_left {pieces : List Bytes} {answers : List (Option ℕ)}
    (h : Covers pieces answers) (more : List (Option ℕ)) : Covers pieces (more ++ answers) := by
  cases h with
  | nil => exact .nil _
  | @cons piece pieces group rest hlen hrest =>
    rw [← List.append_assoc]
    refine .cons ?_ hrest
    rw [List.reduceOption_append, List.sum_append]
    omega

/-- A loop that returns took a group of answers, and sent all of its bytes. -/
theorem sendAll_some {bytes : Bytes} {answers : List (Option ℕ)} {sent : Bytes} {wire : Wire}
    (h : sendAll bytes answers sent = some wire) :
    wire.sent = sent ++ bytes ∧
      ∃ group, answers = group ++ wire.answers ∧ bytes.length ≤ group.reduceOption.sum := by
  fun_induction sendAll bytes answers sent with
  | case1 answers sent =>
    cases h
    exact ⟨by simp, [], rfl, by simp⟩
  | case2 => cases h
  | case3 c cs answers sent ih =>
    obtain ⟨hsent, group, rfl, hlen⟩ := ih h
    exact ⟨hsent, none :: group, rfl, by rwa [List.reduceOption_cons_of_none]⟩
  | case4 c cs n answers sent ih =>
    obtain ⟨hsent, group, rfl, hlen⟩ := ih h
    refine ⟨?_, some n :: group, rfl, ?_⟩
    · rw [hsent, List.append_assoc, List.take_append_drop]
    · rw [List.length_drop] at hlen
      rw [List.reduceOption_cons_of_some, List.sum_cons]
      omega

/-- Answers that take enough let the loop return, and what it did not use is left. -/
theorem sendAll_group {bytes : Bytes} {group : List (Option ℕ)}
    (h : bytes.length ≤ group.reduceOption.sum) (rest : List (Option ℕ)) (sent : Bytes) :
    ∃ wire more, sendAll bytes (group ++ rest) sent = some wire ∧
      wire.answers = more ++ rest := by
  induction group generalizing bytes sent with
  | nil =>
    have hnil : bytes = [] := List.length_eq_zero_iff.mp (by simpa using h)
    subst hnil
    exact ⟨⟨rest, sent⟩, [], by rw [List.nil_append, sendAll], rfl⟩
  | cons answer group ih =>
    cases bytes with
    | nil => exact ⟨⟨answer :: group ++ rest, sent⟩, answer :: group, by rw [sendAll], rfl⟩
    | cons c cs =>
      cases answer with
      | none =>
        rw [List.cons_append, sendAll]
        exact ih (by rwa [List.reduceOption_cons_of_none] at h) sent
      | some n =>
        rw [List.cons_append, sendAll]
        refine ih ?_ _
        rw [List.reduceOption_cons_of_some, List.sum_cons] at h
        rw [List.length_drop]
        omega

theorem sendStream_some {missing : ℕ} {reads : List Bytes} {wire wire' : Wire}
    (h : sendStream missing reads wire = some wire') :
    ∃ pieces, Reaches missing reads pieces ∧ Covers pieces wire.answers ∧
      wire'.sent = wire.sent ++ pieces.flatten := by
  fun_induction sendStream missing reads wire with
  | case1 reads wire =>
    cases h
    exact ⟨[], .done _, .nil _, by simp⟩
  | case2 => cases h
  | case3 missing buf reads wire ih =>
    obtain ⟨next, hnext, hrest⟩ := Option.bind_eq_some_iff.mp h
    obtain ⟨hsent, group, hanswers, hlen⟩ := sendAll_some hnext
    obtain ⟨pieces, hreaches, hcovers, hall⟩ := ih next hrest
    refine ⟨buf :: pieces, .more hreaches, ?_, ?_⟩
    · rw [hanswers]
      exact .cons hlen hcovers
    · rw [hall, hsent, List.flatten_cons, List.append_assoc]

theorem sendStream_covers {missing : ℕ} {reads pieces : List Bytes}
    (h : Reaches missing reads pieces) :
    ∀ wire : Wire, Covers pieces wire.answers →
      ∃ wire', sendStream missing reads wire = some wire' := by
  induction h with
  | done reads => exact fun wire _ => ⟨wire, by rw [sendStream]⟩
  | @more missing buf reads pieces _ ih =>
    intro wire hcovers
    generalize hanswers : wire.answers = answers at hcovers
    cases hcovers with
    | cons hlen hrest =>
      obtain ⟨next, more, hsend, hleft⟩ := sendAll_group hlen _ wire.sent
      obtain ⟨wire', hwire'⟩ := ih next (by rw [hleft]; exact hrest.append_left more)
      refine ⟨wire', ?_⟩
      rw [sendStream, hanswers, hsend]
      exact hwire'

/-- `BufferRead` returns exactly when the file gives enough bytes and the answers cover
what there is to send, and then it has sent that. -/
theorem bufferRead_isSome {d : DataReader} {answers : List (Option ℕ)} :
    (∃ wire, d.bufferRead ⟨answers, []⟩ = some wire) ↔
      ∃ pieces, Reaches d.streamSize d.reads pieces ∧ Covers (d.beginData :: pieces) answers := by
  constructor
  · intro ⟨wire, h⟩
    obtain ⟨next, hnext, hrest⟩ := Option.bind_eq_some_iff.mp h
    obtain ⟨-, group, hanswers, hlen⟩ := sendAll_some hnext
    obtain ⟨pieces, hreaches, hcovers, -⟩ := sendStream_some hrest
    refine ⟨pieces, hreaches, ?_⟩
    simp only at hanswers
    rw [hanswers]
    exact .cons hlen hcovers
  · intro ⟨pieces, hreaches, hcovers⟩
    cases hcovers with
    | cons hlen hrest =>
      obtain ⟨next, more, hsend, hleft⟩ := sendAll_group hlen _ []
      obtain ⟨wire, hwire⟩ :=
        sendStream_covers hreaches next (by rw [hleft]; exact hrest.append_left more)
      exact ⟨wire, by rw [bufferRead, hsend]; exact hwire⟩

theorem bufferRead_sent {d : DataReader} {answers : List (Option ℕ)} {wire : Wire}
    (h : d.bufferRead ⟨answers, []⟩ = some wire) :
    ∃ pieces, Reaches d.streamSize d.reads pieces ∧
      wire.sent = d.beginData ++ pieces.flatten := by
  obtain ⟨next, hnext, hrest⟩ := Option.bind_eq_some_iff.mp h
  obtain ⟨hsent, -⟩ := sendAll_some hnext
  obtain ⟨pieces, hreaches, -, hall⟩ := sendStream_some hrest
  exact ⟨pieces, hreaches, by rw [hall, hsent, List.nil_append]⟩

/-- `SetFileStream`: the position that `tellg` gives becomes a `size_t`. -/
def setFileStream (d : DataReader) (file : File) : DataReader :=
  { d with streamSize := toSizeT file.tellg, reads := file.reads }

end DataReader

/-- `kHttpCodeWithInfo`. -/
def kHttpCodeWithInfo : List (ℤ × String) :=
  [(100, "Continue"), (101, "Switching Protocols"), (200, "OK"), (201, "Created"),
   (202, "Accepted"), (203, "Non-Authoritative Information"), (204, "No Content"),
   (205, "Reset Content"), (206, "Partial Content"), (300, "Multiple Choices"),
   (301, "Moved Permanently"), (302, "Found"), (303, "See Other"), (304, "Not Modified"),
   (305, "Use Proxy"), (306, "Unused"), (307, "Temporary Redirect"), (400, "Bad Request"),
   (401, "Unauthorized"), (402, "Payment Required"), (403, "Forbidden"), (404, "Not Found"),
   (405, "Method Not Allowed"), (406, "Not Acceptable"), (407, "Proxy Authentication Required"),
   (408, "Request Time-out"), (409, "Conflict"), (410, "Gone"), (411, "Length Required"),
   (412, "Precondition Failed"), (413, "Request Entity Too Large"),
   (414, "Request-URI Too Large"), (415, "Unsupported Media Type"),
   (416, "Requested range not satisfiable"), (417, "Expectation Failed"),
   (500, "Internal Server Error"), (501, "Not Implemented"), (502, "Bad Gateway"),
   (503, "Service Unavailable"), (504, "Gateway Time-out"), (505, "HTTP Version not supported")]

/-- `kHttpExtensionWithContentType`. -/
def kHttpExtensionWithContentType : List (String × String) :=
  [(".avi", "video/x-msvideo"), (".bin", "application/octet-stream"), (".bmp", "image/bmp"),
   (".css", "text/css; charset=utf-8"), (".csv", "text/csv"), (".doc", "application/msword"),
   (".docx", "application/vnd.openxmlformats-officedocument.wordprocessingml.document"),
   (".epub", "application/epub+zip"), (".gif", "image/gif"),
   (".html", "text/html; charset=utf-8"), (".ico", "image/vnd.microsoft.icon"),
   (".jar", "application/java-archive"), (".jpeg", "image/jpeg"), (".jpg", "image/jpeg"),
   (".js", "text/javascript; charset: utf-8"), (".json", "application/json; charset=utf-8"),
   (".mp3", "audio/mpeg"), (".mpeg", "video/mpeg"), (".png", "image/png"),
   (".pdf", "application/pdf"), (".php", "application/x-httpd-php"),
   (".ppt", "application/vnd.ms-powerpoint"),
   (".pptx", "application/vnd.openxmlformats-officedocument.presentationml.presentation"),
   (".rar", "application/vnd.rar"), (".svg", "image/svg+xml"), (".txt", "text/plain"),
   (".wav", "audio/wav"), (".weba", "audio/webm"), (".webm", "video/webm"),
   (".webp", "image/webp"), (".xls", "application/vnd.ms-excel"),
   (".xlsx", "application/vnd.openxmlformats-officedocument.spreadsheetml.sheet"),
   (".xml", "application/xml"), (".zip", "application/zip"),
   (".7z", "application/x-7z-compressed")]

/-- `Response`. -/
structure Response where
  code : ℤ := 200
  dataReader : DataReader := {}
  bodyData : Bytes := []
  headers : List (Bytes × Bytes) := []

namespace Response

/-- The information on a code, if `kHttpCodeWithInfo` has it. -/
def codeInfo (code : ℤ) : Option Bytes :=
  (kHttpCodeWithInfo.find? (·.1 = code)).map fun entry => ascii entry.2.toList

/-- The content type of an extension, if `kHttpExtensionWithContentType` has it. -/
def contentType (extension : Bytes) : Option Bytes :=
  (kHttpExtensionWithContentType.find? (ascii ·.1.toList = extension)).map
    fun entry => ascii entry.2.toList

/-- A number as a stream prints it. -/
def decimal (n : ℤ) : Bytes :=
  ascii ((if n < 0 then ['-'] else []) ++ Nat.toDigits 10 n.natAbs)

/-- `MakeHttpHead`. -/
def makeHttpHead (res : Response) (size : ℕ) : Bytes :=
  ascii "HTTP/1.1 ".toList ++ decimal res.code ++ ascii " ".toList ++
    (codeInfo res.code).getD (ascii " ".toList) ++ [13, 10] ++
    res.headers.flatMap (fun th => th.1 ++ ascii ": ".toList ++ th.2 ++ [13, 10]) ++
    ascii "Content-Length: ".toList ++ decimal size ++ [13, 10, 13, 10]

/-- `GetDataReader`; the sum of the sizes is a `size_t`. -/
def getDataReader (res : Response) : DataReader :=
  { res.dataReader with
    beginData := makeHttpHead res
      ((res.bodyData.length + res.dataReader.streamSize) % 2 ^ 64) ++ res.bodyData }

def setCode (res : Response) (code : ℤ) : Response := { res with code }

/-- The loop of `SetHeader`: the value of the first entry with the name is replaced. -/
def setHeaderIn (k v : Bytes) : List (Bytes × Bytes) → List (Bytes × Bytes)
  | [] => [(k, v)]
  | th :: ths => if th.1 = k then (k, v) :: ths else th :: setHeaderIn k v ths

/-- `SetHeader`. -/
def setHeader (res : Response) (k v : Bytes) : Response :=
  { res with headers := setHeaderIn k v res.headers }

/-- `SetType`. The lookup enters an extension it does not know with an empty text, which
is also what it gives for it. -/
def setType (res : Response) (type : Bytes) : Response :=
  res.setHeader (ascii "Content-Type".toList) ((contentType type).getD [])

/-- `BodyData` with a string. -/
def setBodyData (res : Response) (dat : Bytes) : Response := { res with bodyData := dat }

/-- `BodyDataStream`. -/
def bodyDataStream (res : Response) (file : File) : Response :=
  { res with dataReader := res.dataReader.setFileStream file }

/-- `path::extension`: from the last dot of the file name, unless it is the first
character or the name is `..`. -/
def extension (path : Bytes) : Bytes :=
  let name := (path.reverse.takeWhile (· ≠ 47)).reverse
  let suffix := (name.reverse.takeWhile (· ≠ 46)).reverse
  if name.length ≤ suffix.length + 1 ∨ name = [46, 46] then [] else 46 :: suffix

/-- `AutoSetType`, which looks the type up twice. -/
def autoSetType (res : Response) (path : Bytes) : Response :=
  match contentType (extension path) with
  | some type => res.setType type
  | none => res.setType (ascii "application/octet-stream".toList)

/-- `AutoFileData`: a file of more than 1 MB is streamed, and so is one that cannot be
opened. -/
def autoFileData (res : Response) (file : File) : Response :=
  if 1024 * 1024 < toSizeT file.tellg then res.bodyDataStream file
  else res.setBodyData file.contents

def notFoundPage : Bytes :=
  ascii ("<!DOCTYPE html><html><head><meta charset=\"utf-8\"><title>Calabash</title></head> ".toList ++
    "<body><h1 style=\"text-align: center;\">404 Page Not Found</h1>".toList ++
    "<p style=\"text-align: center;\">request not matched</p></body></html>".toList)

/-- `page_not_found`. -/
def pageNotFound (res : Response) : Response :=
  ((res.setBodyData notFoundPage).setType (ascii ".html".toList)).setCode 404

end Response

end Calabash
