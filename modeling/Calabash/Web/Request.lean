import Calabash.Cpp

/-!
# `Request` and the socket it is read from

The fields of a `Request` that the server writes or reads while serving it. Its
JSON body, URL and cookies are left to the handlers and are not part of the model.

A `Socket` is seen from the side of `recv`: its deliveries are what successive
`recv` calls return. A delivery that does not fit the caller's buffer cannot
happen, so the bound is a field of the structure.
-/

namespace Calabash

/-- `RequestMaker::kReqBufSize`, 512 KB. -/
def kReqBufSize : ℕ := 512 * 1024

/-- `Request`. -/
structure Request where
  isJson : Bool := false
  method : Bytes := []
  version : Bytes := []
  path : Bytes := []
  body : Bytes := []
  bodySize : ℕ := 0
  fromIp : Bytes := []
  params : StringMap := ∅
  headers : StringMap := ∅
  deriving DecidableEq

/-- `Request::header`: the stored value, or the empty string. -/
def Request.header (req : Request) (name : Bytes) : Bytes :=
  (req.headers.lookup name).getD []

/-- What successive `recv` calls on a socket return. An empty delivery, and the
end of the list, stand for a result that is not positive. -/
structure Socket where
  ip : Bytes
  deliveries : List Bytes
  fits : ∀ chunk ∈ deliveries, chunk.length ≤ kReqBufSize

namespace Socket

/-- `Socket::recv`: the next delivery, and the socket after it. -/
def recv (socket : Socket) : Bytes × Socket :=
  match socket with
  | ⟨ip, [], fits⟩ => ([], ⟨ip, [], fits⟩)
  | ⟨ip, chunk :: rest, fits⟩ =>
    (chunk, ⟨ip, rest, fun c hc => fits c (List.mem_cons_of_mem _ hc)⟩)

@[simp] theorem recv_cons (ip chunk : Bytes) (rest : List Bytes) (fits) :
    recv ⟨ip, chunk :: rest, fits⟩ =
      (chunk, ⟨ip, rest, fun c hc => fits c (List.mem_cons_of_mem _ hc)⟩) := rfl

end Socket
end Calabash
