import Calabash.Lib.Reads
import Calabash.Web.Request

/-!
# `RequestMaker`

The scanners, the head parser and `Parse`, function by function. `const char *`
cursors are indices into the buffer they walk; reading the buffer is `Reads`, so
every scanner reports how far it looked. The copy of a header line is a separate
object: the line, the pushed `'\n'` and the terminating NUL.
-/

namespace Calabash
namespace RequestMaker

open Reads

/-- `' '`, `'\r'`, `'\n'` or `'\t'`. -/
def isBlank (c : UInt8) : Bool := c == 32 || c == 13 || c == 10 || c == 9

/-- `'\r'` or `'\n'`. -/
def isLineEnd (c : UInt8) : Bool := c == 13 || c == 10

/-- `std::string(p, n)` with `p` at `start` and `n` the difference of two
pointers: a negative difference converts to a size no string can have. -/
def makeString (start : ℕ) (len : ℤ) : Reads UInt8 Fault Bytes :=
  if len < 0 then throw .lengthError else copy .undefined start len.toNat

/-- `GetNextWord`. The leading blanks move `buf`, but not `ptr`. -/
def getNextWord (buf : ℕ) (stop : Option ℕ := none) : Reads UInt8 Fault (Bytes × ℕ) := do
  let start ← scanWhile .undefined isBlank stop buf
  let ptr ← scanWhile .undefined (fun c => !isBlank c) stop buf
  let str ← makeString start ((ptr : ℤ) - start)
  let ptr ← scanWhile .undefined isBlank stop ptr
  return (str, ptr)

/-- `GetNextLine`. After `'\r'` one more byte is passed over unread. -/
def getNextLine (buf : ℕ) : Reads UInt8 Fault (Bytes × ℕ) := do
  let ptr ← scanWhile .undefined (fun c => !isLineEnd c) none buf
  let str ← makeString buf ((ptr : ℤ) - buf)
  let c ← peek .undefined ptr
  return (str, (if c = 13 then ptr + 1 else ptr) + 1)

/-- `Split`: `piece` is `str[bg..ed)`. A separator emits it, even when empty; the
end of the string emits it only when the outer loop was entered for it. The `int`
indices are left to `splitLoop`, which returns the same of every text that fits the
receive buffer (`splitLoop_of_buffer`). -/
def splitFrom (ch : UInt8) : Bytes → Bytes → List Bytes
  | piece, [] => if piece = [] then [] else [piece]
  | piece, c :: cs =>
    if c = ch then piece :: splitFrom ch [] cs else splitFrom ch (piece ++ [c]) cs

def split (str : Bytes) (ch : UInt8) : List Bytes := splitFrom ch [] str

/-- `kNumMap`, the digits `0123456789ABCDEF`. -/
def kNumMap : Bytes :=
  ascii ['0', '1', '2', '3', '4', '5', '6', '7', '8', '9', 'A', 'B', 'C', 'D', 'E', 'F']

/-- `UrlCodeGetHEX`: a character outside `kNumMap` is found at its end. -/
def urlCodeGetHEX (l r : UInt8) : UInt8 :=
  (UInt8.ofNat (kNumMap.idxOf l) <<< 4) + UInt8.ofNat (kNumMap.idxOf r)

/-- `UrlDecode`: `'%'` is 37. With one character left the decoder looks at the
terminating NUL, and throws all the same. -/
def urlDecode : Bytes → Except Fault Bytes
  | [] => .ok []
  | c :: cs =>
    if c = 37 then
      match cs with
      | l :: r :: rest => do
        let ret ← urlDecode rest
        .ok (urlCodeGetHEX l r :: ret)
      | _ => .error .invalidArgument
    else do
      let ret ← urlDecode cs
      .ok (c :: ret)

/-- One pass of the parameter loop; `'='` is 61. Without a `'='` the scan runs
past the end of the piece. The value is taken from the offset the decoded key is
long, not from the `'='`. -/
def parseParam (parm : Bytes) : Except Fault (Bytes × Bytes) :=
  if parm.idxOf 61 < parm.length then do
    let index := parm.idxOf 61
    let key ← urlDecode (parm.take index)
    let index := max (index + 1) parm.length
    let val ← urlDecode ((parm.drop key.length).take (index - key.length))
    .ok (key, val)
  else .error .undefined

/-- The loop over the pieces of the query. -/
def parseParams : List Bytes → StringMap → Except Fault StringMap
  | [], params => .ok params
  | parm :: parms, params => do
    let (key, val) ← parseParam parm
    parseParams parms (emplace params key val)

/-- Lines 62 to 76: the target is split at `'?'` (63), and a single query at
`'&'` (38). The first piece of an empty target would not exist. Both texts come from
the receive buffer, so `split` is what the loops return (`splitLoop_of_buffer`). -/
def parseTarget (target : Bytes) (params : StringMap) : Except Fault (Bytes × StringMap) :=
  match split target 63 with
  | [] => .error .undefined
  | first :: others => do
    let path ← urlDecode first
    match others with
    | [query] => do
      let params ← parseParams (split query 38) params
      .ok (path, params)
    | _ => .ok (path, params)

/-- `key.pop_back()`. -/
def popBack (key : Bytes) : Except Fault Bytes :=
  if key = [] then .error .undefined else .ok key.dropLast

/-- The body of the header loop: the key is the first word of the line's copy
without its last character, the value what follows the blanks after it. -/
def parseHeaderLine (headers : Bytes) : Except Fault (Bytes × Bytes) := do
  let scan : Reads UInt8 Fault (Bytes × Bytes) := do
    let (key, ptr) ← getNextWord 0
    let (val, _) ← getNextLine ptr
    return (key, val)
  let (key, val) ← scan.result (headers ++ [10, 0])
  let key ← popBack key
  .ok (key, val)

/-- The header loop. Every pass consumes a byte of the buffer, so `fuel` beyond
the buffer's size is never used up. -/
def headerLoop : ℕ → ℕ → Bytes → StringMap → Reads UInt8 Fault (ℕ × StringMap)
  | 0, _, _, _ => throw .undefined
  | fuel + 1, buf, headers, stored =>
    if headers = [] then return (buf, stored)
    else do
      let (key, val) ← lift (parseHeaderLine headers)
      let (headers, buf) ← getNextLine buf
      headerLoop fuel buf headers (emplace stored key val)

/-- `ParseHttpHeader`: the size of the head, and the request filled from it. -/
def parseHttpHeader (req : Request) : Reads UInt8 Fault (ℕ × Request) := do
  let (method, buf) ← getNextWord 0
  let (path, buf) ← getNextWord buf
  let (version, buf) ← getNextWord buf
  let (headers, buf) ← getNextLine buf
  let (buf, stored) ← headerLoop (kReqBufSize + 1) buf headers req.headers
  let (path, params) ← lift (parseTarget path req.params)
  return (buf, { req with method, path, version, headers := stored, params })

/-- `TestContentTypeMultipart` and `TestContentTypeJson`: the text is compared up
to its end, and a shorter `str` differs from it at the terminating NUL. -/
def testContentType (text str : Bytes) : Bool := text.isPrefixOf str

def testContentTypeMultipart (str : Bytes) : Bool :=
  testContentType (ascii ['m', 'u', 'l', 't', 'i', 'p', 'a', 'r', 't']) str

def testContentTypeJson (str : Bytes) : Bool :=
  testContentType (ascii ['a', 'p', 'p', 'l', 'i', 'c', 'a', 't', 'i', 'o', 'n', '/',
    'j', 's', 'o', 'n']) str

def contentLength : Bytes :=
  ascii ['C', 'o', 'n', 't', 'e', 'n', 't', '-', 'L', 'e', 'n', 'g', 't', 'h']

def contentType : Bytes :=
  ascii ['C', 'o', 'n', 't', 'e', 'n', 't', '-', 'T', 'y', 'p', 'e']

/-- `SaveMultipartFile`, whose body is empty. -/
def saveMultipartFile (_buf : Bytes) (_start : ℕ) (_len : ℤ) (req : Request) : Request := req

/-- The body loop: `recv` until `bodySize` bytes are held. A delivery overwrites
the buffer from its start, and the string is made from just those bytes. -/
def readBody (bodySize : ℕ) : ℕ → Bytes → List Bytes → Bool × Bytes × List Bytes
  | realRead, body, [] => (decide (bodySize ≤ realRead), body, [])
  | realRead, body, chunk :: rest =>
    if realRead < bodySize then
      if chunk = [] then (false, body, rest)
      else readBody bodySize (realRead + chunk.length) (body ++ chunk) rest
    else (true, body, chunk :: rest)

theorem readBody_suffix (bodySize : ℕ) (realRead : ℕ) (body : Bytes) (ds : List Bytes) :
    (readBody bodySize realRead body ds).2.2 <:+ ds := by
  induction ds generalizing realRead body with
  | nil => simp [readBody]
  | cons chunk rest ih =>
    simp only [readBody]
    split
    · split
      · exact List.suffix_cons _ _
      · exact (ih _ _).trans (List.suffix_cons _ _)
    · exact List.suffix_refl _

/-- The socket after the body loop. -/
def recvBody (socket : Socket) (bodySize realRead : ℕ) (body : Bytes) : Bool × Bytes × Socket :=
  let run := readBody bodySize realRead body socket.deliveries
  (run.1, run.2.1, ⟨socket.ip, run.2.2, fun c hc =>
    socket.fits c ((readBody_suffix _ _ _ _).mem hc)⟩)

/-- The last lines of `Parse`. -/
def markJson (req : Request) : Request :=
  if testContentTypeJson (req.header contentType) then { req with isJson := true } else req

/-- `Parse`, on a stack buffer that holds `stale` before the first `recv`. -/
def parse (stale : Bytes) (socket : Socket) (req : Request) :
    Except Fault (Bool × Request × Socket) := do
  let (chunk, socket) := socket.recv
  if chunk = [] then return (false, req, socket)
  let buf := chunk ++ stale.drop chunk.length
  let (headSize, req) ← (parseHttpHeader req).result buf
  if headSize = 0 then return (false, req, socket)
  let req := { req with
    bodySize := toSizeT (strtol (req.header contentLength)), fromIp := socket.ip }
  let rest : ℤ := (chunk.length : ℤ) - headSize
  if testContentTypeMultipart (req.header contentType) then
    return (true, markJson (saveMultipartFile buf headSize rest req), socket)
  else
    let body ← (makeString headSize rest).result buf
    let (complete, body, socket) := recvBody socket req.bodySize rest.toNat body
    let req := { req with body }
    if complete then return (true, markJson req, socket)
    else return (false, req, socket)

end RequestMaker
end Calabash
