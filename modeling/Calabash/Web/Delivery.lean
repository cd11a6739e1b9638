import Calabash.Web.Message

/-!
# `Parse`, delivery by delivery

The head is read from the first delivery alone; the body loop goes on. This module
says what each part makes of the deliveries: the body loop takes whole deliveries until
the length is reached, and on a complete request `Parse` returns only if the first
delivery covers the head.

## Main results

* `readBody_group`, `readBody_true` — the body loop takes a group of whole deliveries.
* `Message.parse_inside` — `Parse` on a request whose head lies in the first delivery.
* `Message.parse_ok` — what the first delivery was like when `Parse` returned, whatever
  the stack held.
-/

namespace Calabash
namespace RequestMaker

open Reads

/-! ## The body loop -/

/-- Deliveries that reach the length with their last byte are taken, and no more. -/
theorem readBody_group {group : List Bytes} (hne : ∀ c ∈ group, c ≠ []) (rest : List Bytes)
    {bodySize realRead : ℕ} (hsize : realRead + group.flatten.length = bodySize) (body : Bytes) :
    readBody bodySize realRead body (group ++ rest) = (true, body ++ group.flatten, rest) := by
  induction group generalizing realRead body with
  | nil =>
    have hfull : realRead = bodySize := by simpa using hsize
    subst hfull
    cases rest <;> simp [readBody]
  | cons c group ih =>
    have hc := hne c List.mem_cons_self
    have hpos := List.length_pos_iff.mpr hc
    simp only [List.flatten_cons, List.length_append] at hsize
    rw [List.cons_append, readBody, if_pos (by omega), if_neg hc,
      ih (fun d hd => hne d (List.mem_cons_of_mem _ hd)) (by omega)]
    simp

/-- With nothing left to read the loop is not entered. -/
theorem readBody_full {bodySize realRead : ℕ} (h : bodySize ≤ realRead) (body : Bytes)
    (ds : List Bytes) : readBody bodySize realRead body ds = (true, body, ds) := by
  cases ds with
  | nil => simp [readBody, h]
  | cons c ds => rw [readBody, if_neg (by omega)]

/-- A loop that ends well took a group of whole deliveries, and was done with it only
at the end. -/
theorem readBody_true {bodySize realRead : ℕ} {body : Bytes} {ds : List Bytes}
    (h : (readBody bodySize realRead body ds).1 = true) :
    ∃ group rest, ds = group ++ rest ∧
      readBody bodySize realRead body ds = (true, body ++ group.flatten, rest) ∧
      bodySize ≤ realRead + group.flatten.length := by
  induction ds generalizing realRead body with
  | nil =>
    simp only [readBody, decide_eq_true_eq] at h
    exact ⟨[], [], rfl, by simp [readBody, h], by simpa using h⟩
  | cons c ds ih =>
    by_cases hmore : realRead < bodySize
    · by_cases hc : c = []
      · simp [readBody, hmore, hc] at h
      · rw [readBody, if_pos hmore, if_neg hc] at h ⊢
        obtain ⟨group, rest, rfl, hrun, hsize⟩ := ih h
        refine ⟨c :: group, rest, rfl, by simp [hrun], ?_⟩
        simp only [List.flatten_cons, List.length_append]
        omega
    · exact ⟨[], c :: ds, rfl, by rw [readBody_full (by omega)]; simp, by simp; omega⟩

/-! ## `Parse` past the first delivery -/

/-- The request once the head has been read. -/
def sized (req : Request) (ip : Bytes) : Request :=
  { req with bodySize := toSizeT (strtol (req.header contentLength)), fromIp := ip }

/-- What `Parse` returns after the body loop. -/
def finish (req : Request) (run : Bool × Bytes × Socket) : Bool × Request × Socket :=
  (run.1, if run.1 then markJson { req with body := run.2.1 } else { req with body := run.2.1 },
    run.2.2)

@[simp] theorem markJson_body (req : Request) : (markJson req).body = req.body := by
  rw [markJson]
  split <;> rfl

@[simp] theorem markJson_headers (req : Request) : (markJson req).headers = req.headers := by
  rw [markJson]
  split <;> rfl

@[simp] theorem markJson_bodySize (req : Request) :
    (markJson req).bodySize = req.bodySize := by
  rw [markJson]
  split <;> rfl

@[simp] theorem finish_headers (req : Request) (run : Bool × Bytes × Socket) :
    (finish req run).2.1.headers = req.headers := by
  rw [finish]
  cases run.1 <;> simp

@[simp] theorem finish_bodySize (req : Request) (run : Bool × Bytes × Socket) :
    (finish req run).2.1.bodySize = req.bodySize := by
  rw [finish]
  cases run.1 <;> simp

section
variable {stale ip chunk : Bytes} {rest : List Bytes} {fits} {req found : Request} {size : ℕ}

theorem parse_error (hne : chunk ≠ []) {e : Fault}
    (h : (parseHttpHeader req (chunk ++ stale.drop chunk.length)).1 = .error e) :
    parse stale ⟨ip, chunk :: rest, fits⟩ req = .error e := by
  simp only [parse, Socket.recv_cons, if_neg hne, Reads.result, h, Bind.bind, Except.bind]

/-- A multipart request takes nothing from the socket beyond the first delivery. -/
theorem parse_multipart (hne : chunk ≠ [])
    (h : (parseHttpHeader req (chunk ++ stale.drop chunk.length)).1 = .ok (size, found))
    (hsize : size ≠ 0) (hmulti : testContentTypeMultipart (found.header contentType) = true) :
    parse stale ⟨ip, chunk :: rest, fits⟩ req =
      .ok (true, markJson (sized found ip),
        ⟨ip, rest, fun c hc => fits c (List.mem_cons_of_mem _ hc)⟩) := by
  have hmulti' : testContentTypeMultipart ((sized found ip).header contentType) = true := hmulti
  simp only [parse, Socket.recv_cons, if_neg hne, Reads.result, h, Bind.bind, Except.bind,
    if_neg hsize]
  exact if_pos hmulti'

/-- A head longer than the delivery asks for a string of negative length. -/
theorem parse_short (hne : chunk ≠ [])
    (h : (parseHttpHeader req (chunk ++ stale.drop chunk.length)).1 = .ok (size, found))
    (hshort : chunk.length < size)
    (hmulti : testContentTypeMultipart (found.header contentType) = false) :
    parse stale ⟨ip, chunk :: rest, fits⟩ req = .error .lengthError := by
  have hmulti' : testContentTypeMultipart ((sized found ip).header contentType) = false := hmulti
  have hsize : size ≠ 0 := by omega
  have hneg : ((chunk.length : ℤ) - size) < 0 := by omega
  simp only [parse, Socket.recv_cons, if_neg hne, Reads.result, h, Bind.bind, Except.bind,
    if_neg hsize]
  refine (if_neg (by rw [← sized, hmulti']; simp)).trans ?_
  simp only [makeString, if_pos hneg, run_throw]

/-- A head inside the delivery: what is behind it starts the body. -/
theorem parse_inside (hne : chunk ≠ [])
    (h : (parseHttpHeader req (chunk ++ stale.drop chunk.length)).1 = .ok (size, found))
    (hsize : size ≠ 0) (hin : size ≤ chunk.length)
    (hmulti : testContentTypeMultipart (found.header contentType) = false) :
    parse stale ⟨ip, chunk :: rest, fits⟩ req =
      .ok (finish (sized found ip)
        (recvBody ⟨ip, rest, fun c hc => fits c (List.mem_cons_of_mem _ hc)⟩
          (sized found ip).bodySize (chunk.length - size) (chunk.drop size))) := by
  have hmulti' : testContentTypeMultipart ((sized found ip).header contentType) = false := hmulti
  have hnat : ((chunk.length : ℤ) - size).toNat = chunk.length - size := by omega
  have hpos : ¬ ((chunk.length : ℤ) - size) < 0 := by omega
  have hdrop : (chunk ++ stale.drop chunk.length).drop size =
      chunk.drop size ++ stale.drop chunk.length := List.drop_append_of_le_length hin
  have hcopy : makeString size ((chunk.length : ℤ) - size)
      (chunk ++ stale.drop chunk.length) = (.ok (chunk.drop size), chunk.length) := by
    have hcells := copy_eq (e := Fault.undefined) hdrop
      (by rw [List.length_append]; omega)
    rw [List.length_drop] at hcells
    rw [makeString, if_neg hpos, hnat, hcells]
    simp only [Prod.mk.injEq, true_and]
    omega
  simp only [parse, Socket.recv_cons, if_neg hne, Reads.result, h, Bind.bind, Except.bind,
    if_neg hsize]
  refine (if_neg (by rw [← sized, hmulti']; simp)).trans ?_
  simp only [hcopy, hnat, finish, sized]
  split
  · rename_i hc
    simp only [hc, if_true]
    rfl
  · rename_i hc
    simp only [hc, Bool.false_eq_true, if_false]
    rfl

end

end RequestMaker

/-! ## `Parse` on a complete request -/

namespace Message

open RequestMaker Reads

/-- The parser takes the request for multipart. -/
def TakenMultipart (m : Message) : Prop :=
  testContentTypeMultipart (m.stored contentType) = true

instance (m : Message) : Decidable m.TakenMultipart :=
  inferInstanceAs (Decidable (testContentTypeMultipart (m.stored contentType) = true))

/-- The length the parser waits for. -/
def expected (m : Message) : ℕ := if m.Declares then m.body.length else 0

theorem expected_le (m : Message) : m.expected ≤ m.body.length := by
  rw [expected]
  split <;> omega

@[simp] theorem header_read (m : Message) (t : Bytes × StringMap) (name : Bytes) :
    (m.read {} t).header name = m.stored name :=
  header_eq_stored m name _ rfl

theorem sized_bodySize (m : Message) (hs : ∀ f ∈ m.fields, Scannable f.line)
    (t : Bytes × StringMap) (ip : Bytes) : (sized (m.read {} t) ip).bodySize = m.expected := by
  have hsmall : m.expected < 2 ^ 64 := by
    have hle := m.expected_le
    have hbody := m.body_small
    omega
  have hcast : strtol (m.stored contentLength) = (m.expected : ℤ) := by
    rw [strtol_stored m hs, expected]
    split <;> rfl
  rw [sized, header_read, hcast, toSizeT_natCast hsmall]

theorem head_ne_nil (m : Message) : m.head ≠ [] := by
  obtain ⟨c, t, hm, -, -⟩ := m.method_word.exists_cons
  simp [head, hm]

theorem text_ne_nil (m : Message) : m.text ≠ [] := by
  simp [text, m.head_ne_nil]

section
variable {m : Message} {stale b : Bytes} {rest : List Bytes} (ip : Bytes)
  (fits : ∀ c ∈ (m.head ++ b) :: rest, c.length ≤ kReqBufSize)

/-- A readable request that is not multipart: the body loop goes on behind the head. -/
theorem parse_inside (hr : m.Readable) (hmulti : ¬ m.TakenMultipart)
    (hstale : stale.length = kReqBufSize) :
    ∃ t, parseTarget m.target ∅ = .ok t ∧
      parse stale ⟨ip, (m.head ++ b) :: rest, fits⟩ {} =
        .ok (finish (sized (m.read {} t) ip)
          (recvBody ⟨ip, rest, fun c hc => fits c (List.mem_cons_of_mem _ hc)⟩
            m.expected b.length b)) := by
  have hfit : (m.head ++ b).length ≤ kReqBufSize := fits _ List.mem_cons_self
  have hbuf : (m.head ++ (b ++ stale.drop (m.head ++ b).length)).length ≤ kReqBufSize := by
    simp only [List.length_append, List.length_drop] at hfit ⊢
    omega
  obtain ⟨t, ht, hhead⟩ := parseHttpHeader_readable hr hbuf {}
  rw [← List.append_assoc] at hhead
  have hpos := List.length_pos_iff.mpr m.head_ne_nil
  refine ⟨t, ht, ?_⟩
  rw [RequestMaker.parse_inside (by simp [m.head_ne_nil]) hhead (by omega) (by simp)
    (by rw [header_read]; simpa [TakenMultipart] using hmulti), sized_bodySize m hr.1,
    List.length_append, Nat.add_sub_cancel_left, List.drop_left]

/-- A readable request that is taken for multipart: the first delivery is all there is. -/
theorem parse_multipart (hr : m.Readable) (hmulti : m.TakenMultipart)
    (hstale : stale.length = kReqBufSize) :
    ∃ t, parseTarget m.target ∅ = .ok t ∧
      parse stale ⟨ip, (m.head ++ b) :: rest, fits⟩ {} =
        .ok (true, markJson (sized (m.read {} t) ip),
          ⟨ip, rest, fun c hc => fits c (List.mem_cons_of_mem _ hc)⟩) := by
  have hfit : (m.head ++ b).length ≤ kReqBufSize := fits _ List.mem_cons_self
  have hbuf : (m.head ++ (b ++ stale.drop (m.head ++ b).length)).length ≤ kReqBufSize := by
    simp only [List.length_append, List.length_drop] at hfit ⊢
    omega
  obtain ⟨t, ht, hhead⟩ := parseHttpHeader_readable hr hbuf {}
  rw [← List.append_assoc] at hhead
  have hpos := List.length_pos_iff.mpr m.head_ne_nil
  refine ⟨t, ht, ?_⟩
  exact RequestMaker.parse_multipart (by simp [m.head_ne_nil]) hhead (by omega)
    (by rw [header_read]; exact hmulti)

end

/-- A stack full of `'a'`: nothing on it ends a line. -/
def noLineEnds : Bytes := List.replicate kReqBufSize 97

/-- When `Parse` returns on such a stack, the first delivery alone showed the parser the
head: the request is readable, and the delivery covers the head, unless the request is
taken for multipart, and then nothing else is taken from the socket. -/
theorem parse_ok (m : Message) {chunk tail more ip : Bytes} {rest : List Bytes} {fits}
    {out : Bool × Request × Socket} (hne : chunk ≠ []) (hsplit : chunk ++ tail = m.head ++ more)
    (h : parse noLineEnds ⟨ip, chunk :: rest, fits⟩ {} = .ok out) :
    m.Readable ∧
      (m.head.length ≤ chunk.length ∨ m.TakenMultipart ∧ out.2.2.deliveries = rest) := by
  set buf := chunk ++ noLineEnds.drop chunk.length with hbuf
  have hfit : chunk.length ≤ kReqBufSize := fits _ List.mem_cons_self
  have hsize : buf.length ≤ kReqBufSize := by
    rw [hbuf, List.length_append, List.length_drop, noLineEnds, List.length_replicate]
    omega
  rcases hrun : (parseHttpHeader {} buf).1 with e | ⟨size, found⟩
  · rw [parse_error hne hrun] at h
    cases h
  -- The last byte the parser looked at is a line end, so it was received.
  have hinside : (parseHttpHeader {} buf).2 ≤ chunk.length := by
    rcases parseHttpHeader_cases hsize {} with
      hund | hgap | ⟨method, target, version, ls, n, k, htext⟩
    · rw [hrun] at hund
      cases hund
    · obtain ⟨n, hthrow, -⟩ := parseHttpHeader_gap hgap {}
      rw [hthrow] at hrun
      cases hrun
    · obtain ⟨p, e, r, hhead, hlast, he⟩ := parseHttpHeader_eq htext hsize {}
      rw [hhead]
      by_contra hlong
      have hmem : e ∈ noLineEnds.drop chunk.length := by
        have hdrop : buf.drop p = (noLineEnds.drop chunk.length).drop (p - chunk.length) := by
          rw [hbuf, List.drop_append, List.drop_eq_nil_of_le (by simp only at hlong; omega),
            List.nil_append]
        rw [hdrop] at hlast
        exact (List.drop_suffix _ _).mem (by rw [hlast]; exact List.mem_cons_self)
      have ha : e = 97 := List.eq_of_mem_replicate ((List.drop_suffix _ _).mem hmem)
      subst ha
      exact absurd he (by decide)
  have hlocal := local_parseHttpHeader {}
  have hchunk : parseHttpHeader {} chunk = parseHttpHeader {} buf := hlocal.prefix_eq hinside
  have hwhole : parseHttpHeader {} (m.head ++ more) = parseHttpHeader {} buf := by
    rw [← hsplit, hlocal.extend_eq (by rw [hchunk]; exact hinside) tail, hchunk]
  obtain ⟨hr, rfl, t, -, rfl⟩ := parseHttpHeader_ok m (by rw [hwhole]; exact hrun)
  refine ⟨hr, ?_⟩
  by_cases hmulti : m.TakenMultipart
  · have hpos := List.length_pos_iff.mpr m.head_ne_nil
    rw [RequestMaker.parse_multipart hne hrun (by omega) (by rw [header_read]; exact hmulti),
      Except.ok.injEq] at h
    exact .inr ⟨hmulti, by rw [← h]⟩
  · refine .inl ?_
    by_contra hshort
    rw [parse_short hne hrun (by omega)
      (by rw [header_read]; simpa [TakenMultipart] using hmulti)] at h
    cases h

end Message
end Calabash
