import Calabash.Web.Segmentation

/-!
# Requests in a row on one connection

After a response the socket is attached again, and the next `Parse` starts with
whatever `recv` returns next. What it has taken cannot be given back, so the deliveries
of the stream have to fall into groups, one for each request. `servedExactly_iff` says
that this is exactly when every `Parse` returns the request it should and leaves the
stream at the first byte of the next one.
-/

namespace Calabash

open RequestMaker

/-- The bytes the socket has yet to deliver. -/
def Socket.pending (socket : Socket) : Bytes := socket.deliveries.flatten

namespace Message

/-- The request is filled from the head of `m`. -/
structure ReadAs (m : Message) (req : Request) : Prop where
  method : req.method = m.method
  target : parseTarget m.target ∅ = .ok (req.path, req.params)
  version : req.version = m.version
  headers : req.headers = storeLines m.lines ∅

/-- Successive `Parse` calls on the socket, whatever the stack holds, return the requests
in order; each takes the bytes of its request and no others, and stores the body unless
it is multipart. -/
def ServedExactly : List Message → Socket → Prop
  | [], _ => True
  | m :: ms, socket => ∀ stale : Bytes, stale.length = kReqBufSize →
    ∃ req next, parse stale socket {} = .ok (true, req, next) ∧
      socket.pending = m.text ++ next.pending ∧ m.ReadAs req ∧
      (¬ m.Multipart → req.body = m.body) ∧ ServedExactly ms next

/-- The deliveries fall into groups, one for each request. The first delivery of a group
covers the head, and it is the only one when the parser takes the request for multipart
or does not find its length. -/
inductive Aligned : List Message → List Bytes → Prop
  | nil : Aligned [] []
  | cons {m : Message} {ms : List Message} {b : Bytes} {group rest : List Bytes} :
      m.Readable → b ++ group.flatten = m.body →
      (m.TakenMultipart ∨ ¬ m.Declares → group = []) → Aligned ms rest →
      Aligned (m :: ms) ((m.head ++ b) :: (group ++ rest))

theorem markJson_readAs {m : Message} {t : Bytes × StringMap} {ip body : Bytes}
    (ht : parseTarget m.target ∅ = .ok t) :
    m.ReadAs (markJson { sized (m.read {} t) ip with body }) := by
  rw [markJson]
  split <;> exact ⟨rfl, ht, rfl, rfl⟩

/-- One `Parse` on the deliveries of a request. -/
theorem parse_group {m : Message} {b stale ip : Bytes} {group rest : List Bytes} {fits}
    (hr : m.Readable) (hbody : b ++ group.flatten = m.body) (hne : ∀ c ∈ group, c ≠ [])
    (hone : m.TakenMultipart ∨ ¬ m.Declares → group = []) (hstale : stale.length = kReqBufSize) :
    ∃ req next, parse stale ⟨ip, (m.head ++ b) :: (group ++ rest), fits⟩ {} =
        .ok (true, req, next) ∧
      next.deliveries = rest ∧ m.ReadAs req ∧ (¬ m.Multipart → req.body = m.body) := by
  by_cases hmulti : m.TakenMultipart
  · obtain rfl := hone (.inl hmulti)
    obtain ⟨t, ht, hrun⟩ := parse_multipart ip fits hr hmulti hstale
    exact ⟨_, _, hrun, rfl, markJson_readAs ht, fun h => absurd (multipart_of_stored hmulti) h⟩
  · obtain ⟨t, ht, hrun⟩ := parse_inside ip fits hr hmulti hstale
    have hloop : readBody m.expected b.length b (group ++ rest) = (true, m.body, rest) := by
      by_cases hd : m.Declares
      · rw [expected, if_pos hd, readBody_group hne rest (by rw [← List.length_append, hbody]),
          hbody]
      · obtain rfl := hone (.inr hd)
        rw [expected, if_neg hd, readBody_full (Nat.zero_le _), ← hbody]
        simp
    simp only [recvBody, hloop] at hrun
    exact ⟨_, _, hrun, rfl, markJson_readAs ht, fun _ => by simp⟩

theorem eq_nil_of_flatten_eq_nil {group : List Bytes} (hne : ∀ c ∈ group, c ≠ [])
    (h : group.flatten = []) : group = [] := by
  cases group with
  | nil => rfl
  | cons c group =>
    rw [List.flatten_cons, List.append_eq_nil_iff] at h
    exact absurd h.1 (hne c List.mem_cons_self)

/-- A `Parse` that takes exactly the bytes of a request found it in a group of
deliveries. -/
theorem group_of_parse {m : Message} {chunk ip : Bytes} {ds : List Bytes} {fits}
    {req : Request} {next : Socket} (hne : ∀ c ∈ chunk :: ds, c ≠ [])
    (h : parse noLineEnds ⟨ip, chunk :: ds, fits⟩ {} = .ok (true, req, next))
    (hexact : chunk ++ ds.flatten = m.text ++ next.pending) :
    ∃ b group, chunk = m.head ++ b ∧ ds = group ++ next.deliveries ∧ m.Readable ∧
      b ++ group.flatten = m.body ∧ (m.TakenMultipart ∨ ¬ m.Declares → group = []) := by
  have hchunk := hne chunk List.mem_cons_self
  have hds : ∀ c ∈ ds, c ≠ [] := fun c hc => hne c (List.mem_cons_of_mem _ hc)
  have hsplit : chunk ++ ds.flatten = m.head ++ (m.body ++ next.pending) := by
    rw [hexact, text, List.append_assoc]
  have hlines : noLineEnds.length = kReqBufSize := List.length_replicate
  obtain ⟨hr, hin⟩ := m.parse_ok hchunk hsplit h
  have hcover : ∃ b, chunk = m.head ++ b := by
    rcases List.append_eq_append_iff.mp hsplit with ⟨x, hhead, -⟩ | ⟨b, hb, -⟩
    · refine ⟨[], ?_⟩
      rcases hin with hle | ⟨-, hrest⟩
      · have hnil : x = [] := by
          rw [hhead, List.length_append] at hle
          exact List.length_eq_zero_iff.mp (by omega)
        rw [hhead, hnil]
        simp
      · -- Nothing but the first delivery was taken, so it is the whole request.
        simp only at hrest
        rw [Socket.pending, hrest] at hexact
        have hall := List.append_cancel_right hexact
        rw [text, hhead, List.append_assoc] at hall
        have hlen := congrArg List.length hall
        rw [List.length_append, List.length_append] at hlen
        have hnil : x = [] := List.length_eq_zero_iff.mp (by omega)
        rw [hhead, hnil]
        simp
    · exact ⟨b, hb⟩
  obtain ⟨b, rfl⟩ := hcover
  have hbody : b ++ ds.flatten = m.body ++ next.pending := by
    rw [List.append_assoc] at hsplit
    exact List.append_cancel_left hsplit
  by_cases hmulti : m.TakenMultipart
  · obtain ⟨t, -, hrun⟩ := parse_multipart ip fits hr hmulti hlines
    rw [h, Except.ok.injEq] at hrun
    have hrest : next.deliveries = ds := by
      rw [Prod.mk.injEq, Prod.mk.injEq] at hrun
      rw [hrun.2.2]
    rw [Socket.pending, hrest] at hbody
    exact ⟨b, [], rfl, by rw [hrest]; rfl, hr, by simpa using hbody, fun _ => rfl⟩
  · obtain ⟨t, -, hrun⟩ := parse_inside ip fits hr hmulti hlines
    rw [h, Except.ok.injEq] at hrun
    simp only [finish, recvBody, Prod.mk.injEq] at hrun
    obtain ⟨group, rest, rfl, hloop, -⟩ := readBody_true hrun.1.symm
    have hrest : next.deliveries = rest :=
      (congrArg Socket.deliveries hrun.2.2).trans (congrArg (fun run => run.2.2) hloop)
    rw [Socket.pending, hrest, List.flatten_append, ← List.append_assoc] at hbody
    refine ⟨b, group, rfl, by rw [hrest], hr, List.append_cancel_right hbody, fun hone => ?_⟩
    have hd : ¬ m.Declares := hone.resolve_left hmulti
    rw [expected, if_neg hd, readBody_full (Nat.zero_le _)] at hloop
    have hflat : group.flatten = [] := by simpa using (Prod.mk.inj (Prod.mk.inj hloop).2).1
    exact eq_nil_of_flatten_eq_nil (fun c hc => hds c (List.mem_append_left _ hc)) hflat

/-- What a `Parse` that takes just the first request leaves of the stream. -/
theorem pending_next {ms : List Message} {m : Message} {socket next : Socket}
    (hstream : socket.pending = (m :: ms).flatMap text)
    (hexact : socket.pending = m.text ++ next.pending) : next.pending = ms.flatMap text := by
  rw [hstream, List.flatMap_cons] at hexact
  exact (List.append_cancel_left hexact).symm

theorem servedExactly_socket {ms : List Message} {socket : Socket}
    (hne : ∀ c ∈ socket.deliveries, c ≠ []) (hstream : socket.pending = ms.flatMap text) :
    ServedExactly ms socket ↔ Aligned ms socket.deliveries := by
  induction ms generalizing socket with
  | nil =>
    have hnil : socket.deliveries = [] := eq_nil_of_flatten_eq_nil hne hstream
    rw [hnil]
    exact ⟨fun _ => .nil, fun _ => trivial⟩
  | cons m ms ih =>
    have hlines : noLineEnds.length = kReqBufSize := List.length_replicate
    obtain ⟨ip, deliveries, fits⟩ := socket
    simp only at hne
    constructor
    · intro hserved
      obtain ⟨req, next, hrun, hexact, -, -, hnext⟩ := hserved noLineEnds hlines
      cases deliveries with
      | nil => cases hrun
      | cons chunk ds =>
        obtain ⟨b, group, rfl, rfl, hr, hbody, hone⟩ := group_of_parse hne hrun hexact
        have hrest : ∀ c ∈ next.deliveries, c ≠ [] := fun c hc =>
          hne c (List.mem_cons_of_mem _ (List.mem_append_right _ hc))
        exact .cons hr hbody hone ((ih hrest (pending_next hstream hexact)).mp hnext)
    · intro haligned stale hstale
      cases haligned with
      | @cons _ _ b group rest hr hbody hone hms =>
        have hgroup : ∀ c ∈ group, c ≠ [] := fun c hc =>
          hne c (List.mem_cons_of_mem _ (List.mem_append_left _ hc))
        obtain ⟨req, next, hrun, hds, hread, hreq⟩ :
            ∃ req next, parse stale ⟨ip, (m.head ++ b) :: (group ++ rest), fits⟩ {} =
                .ok (true, req, next) ∧
              next.deliveries = rest ∧ m.ReadAs req ∧ (¬ m.Multipart → req.body = m.body) :=
          parse_group hr hbody hgroup hone hstale
        subst hds
        have hexact : Socket.pending ⟨ip, (m.head ++ b) :: (group ++ next.deliveries), fits⟩ =
            m.text ++ next.pending := by
          simp [Socket.pending, text, ← hbody]
        have hrest : ∀ c ∈ next.deliveries, c ≠ [] := fun c hc =>
          hne c (List.mem_cons_of_mem _ (List.mem_append_right _ hc))
        have hnext := (ih hrest (pending_next hstream hexact)).mpr hms
        exact ⟨req, next, hrun, hexact, hread, hreq, hnext⟩

/-- Requests in a row are served exactly, for one way of cutting the stream, when the
deliveries fall into their groups. -/
theorem servedExactly_iff (ip : Bytes) (ms : List Message) (cut : Cut (ms.flatMap text)) :
    ServedExactly ms (cut.socket ip) ↔ Aligned ms cut.chunks :=
  servedExactly_socket cut.nonempty cut.flatten_eq

/-- Two requests that arrive in one delivery: the first `Parse` takes both. -/
theorem servedExactly_fails :
    ¬ ServedExactly [hello, hello]
      ((Cut.one ([hello, hello].flatMap text) (by decide) (by decide)).socket []) := by
  intro hserved
  set cut := Cut.one ([hello, hello].flatMap text) (by decide) (by decide) with hcut
  have hiff : ServedExactly [hello, hello] (cut.socket []) ↔
      Aligned [hello, hello] (cut.socket []).deliveries :=
    servedExactly_socket cut.nonempty cut.flatten_eq
  have haligned : Aligned [hello, hello] cut.chunks := hiff.mp hserved
  generalize hds : cut.chunks = ds at haligned
  cases haligned with
  | @cons _ _ b group rest hr hbody hone hms =>
    simp only [hcut, Cut.one, List.cons.injEq, List.nil_eq, List.append_eq_nil_iff] at hds
    obtain ⟨hchunk, rfl, rfl⟩ := hds
    have hb : b = hello.body := by simpa using hbody
    rw [hb] at hchunk
    exact absurd (congrArg List.length hchunk) (by decide)

end Message
end Calabash
