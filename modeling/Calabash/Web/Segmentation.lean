import Calabash.Web.Delivery

/-!
# How a request is cut

The same request can reach the server in different deliveries. `agree_iff` says for
which two ways of cutting it `Parse` returns the same: the head has to lie in the first
delivery of both, since only the body is read on, and the length has to come from a field
with the exact name, unless there is nothing for it to decide.
-/

namespace Calabash

open RequestMaker

/-- A way of cutting a text into deliveries. -/
structure Cut (text : Bytes) where
  chunks : List Bytes
  flatten_eq : chunks.flatten = text
  nonempty : ∀ c ∈ chunks, c ≠ []
  fits : ∀ c ∈ chunks, c.length ≤ kReqBufSize

namespace Cut
variable {text : Bytes}

/-- The socket that makes the deliveries. -/
def socket (cut : Cut text) (ip : Bytes) : Socket := ⟨ip, cut.chunks, cut.fits⟩

/-- The first delivery. -/
def first (cut : Cut text) : Bytes := cut.chunks.headD []

theorem exists_cons (cut : Cut text) (h : text ≠ []) :
    ∃ rest, cut.chunks = cut.first :: rest ∧ cut.first ++ rest.flatten = text := by
  have hflat := cut.flatten_eq
  cases hchunks : cut.chunks with
  | nil =>
    rw [hchunks] at hflat
    exact absurd hflat.symm h
  | cons c rest =>
    rw [hchunks] at hflat
    exact ⟨rest, by simp [first, hchunks], by simpa [first, hchunks] using hflat⟩

theorem first_ne_nil (cut : Cut text) (h : text ≠ []) : cut.first ≠ [] := by
  obtain ⟨rest, hchunks, -⟩ := cut.exists_cons h
  exact cut.nonempty _ (by rw [hchunks]; exact List.mem_cons_self)

/-- A text that fits a delivery, uncut. -/
def one (text : Bytes) (hne : text ≠ []) (hfit : text.length ≤ kReqBufSize) : Cut text where
  chunks := [text]
  flatten_eq := by simp
  nonempty := by simpa using hne
  fits := by simpa using hfit

/-- A text that fits a delivery, cut in two behind its first `n` bytes. -/
def two (text : Bytes) (n : ℕ) (hpos : 0 < n) (hlt : n < text.length)
    (hfit : text.length ≤ kReqBufSize) : Cut text where
  chunks := [text.take n, text.drop n]
  flatten_eq := by simp
  nonempty := by
    intro c hc
    rw [← List.length_pos_iff]
    simp only [List.mem_cons, List.not_mem_nil, or_false] at hc
    rcases hc with rfl | rfl
    · rw [List.length_take]
      omega
    · rw [List.length_drop]
      omega
  fits := by
    intro c hc
    simp only [List.mem_cons, List.not_mem_nil, or_false] at hc
    rcases hc with rfl | rfl
    · rw [List.length_take]
      omega
    · rw [List.length_drop]
      omega

end Cut

namespace Message
variable {m : Message}

/-- The body `Parse` stores: all of it when it knows the length, and otherwise what came
with the head. -/
def storedBody (m : Message) (cut : Cut m.text) : Bytes :=
  if m.Declares then m.body else cut.first.drop m.head.length

/-- A first delivery that covers the head is the head and the front of the body. -/
theorem first_eq (cut : Cut m.text) (hin : m.head.length ≤ cut.first.length) :
    cut.first = m.head ++ m.body.take (cut.first.length - m.head.length) := by
  obtain ⟨rest, -, htext⟩ := cut.exists_cons m.text_ne_nil
  rcases List.append_eq_append_iff.mp htext with ⟨x, hhead, hx⟩ | ⟨x, hfirst, hbody⟩
  · have hnil : x = [] := by
      rw [hhead, List.length_append] at hin
      exact List.length_eq_zero_iff.mp (by omega)
    rw [hnil, List.append_nil] at hhead
    rw [hhead]
    simp
  · rw [hbody, hfirst, List.length_append, Nat.add_sub_cancel_left, List.take_left]

theorem first_drop (cut : Cut m.text) (hin : m.head.length ≤ cut.first.length) :
    cut.first.drop m.head.length = m.body.take (cut.first.length - m.head.length) := by
  conv_lhs => rw [first_eq cut hin, List.drop_left]

theorem storedBody_eq_iff (cut₁ cut₂ : Cut m.text) (h₁ : m.head.length ≤ cut₁.first.length)
    (h₂ : m.head.length ≤ cut₂.first.length) :
    m.storedBody cut₁ = m.storedBody cut₂ ↔
      m.Declares ∨ m.body = [] ∨ cut₁.first.length = cut₂.first.length := by
  have hle : ∀ cut : Cut m.text, cut.first.length ≤ m.head.length + m.body.length := by
    intro cut
    obtain ⟨rest, -, htext⟩ := cut.exists_cons m.text_ne_nil
    have hlen := congrArg List.length htext
    have htotal : m.text.length = m.head.length + m.body.length := List.length_append
    rw [List.length_append, htotal] at hlen
    omega
  have hle₁ := hle cut₁
  have hle₂ := hle cut₂
  by_cases hd : m.Declares
  · simp [storedBody, hd]
  · rw [storedBody, storedBody, if_neg hd, if_neg hd, first_drop cut₁ h₁, first_drop cut₂ h₂]
    constructor
    · intro heq
      have hlen := congrArg List.length heq
      rw [List.length_take, List.length_take] at hlen
      exact .inr (.inr (by omega))
    · rintro (h | h | h)
      · exact absurd h hd
      · rw [h, List.take_nil, List.take_nil]
      · rw [h]

/-- A readable request whose head lies in the first delivery. -/
theorem parse_cut (hr : m.Readable) (hmulti : ¬ m.TakenMultipart) {stale : Bytes}
    (hstale : stale.length = kReqBufSize) (ip : Bytes) (cut : Cut m.text)
    (hin : m.head.length ≤ cut.first.length) :
    ∃ t s, parseTarget m.target ∅ = .ok t ∧
      parse stale (cut.socket ip) {} =
        .ok (true, markJson { sized (m.read {} t) ip with body := m.storedBody cut }, s) := by
  obtain ⟨rest, hchunks, htext⟩ := cut.exists_cons m.text_ne_nil
  obtain ⟨b, hb⟩ : ∃ b, cut.first = m.head ++ b := ⟨_, first_eq cut hin⟩
  have hbody : b ++ rest.flatten = m.body := by
    rw [hb, List.append_assoc] at htext
    exact List.append_cancel_left htext
  have hfits : ∀ c ∈ (m.head ++ b) :: rest, c.length ≤ kReqBufSize := by
    rw [← hb, ← hchunks]
    exact cut.fits
  have hsocket : cut.socket ip = ⟨ip, (m.head ++ b) :: rest, hfits⟩ := by
    simp only [Cut.socket, hchunks, hb]
  obtain ⟨t, ht, hrun⟩ := parse_inside ip hfits hr hmulti hstale
  have hloop : ∃ s, recvBody ⟨ip, rest, fun c hc => hfits c (List.mem_cons_of_mem _ hc)⟩
      m.expected b.length b = (true, m.storedBody cut, s) := by
    by_cases hd : m.Declares
    · have hsize : b.length + rest.flatten.length = m.body.length := by
        rw [← List.length_append, hbody]
      have hgroup := readBody_group
        (fun c hc => cut.nonempty c (by rw [hchunks]; exact List.mem_cons_of_mem _ hc)) [] hsize b
      rw [List.append_nil, hbody] at hgroup
      simp only [recvBody, expected, storedBody, if_pos hd, hgroup]
      exact ⟨_, rfl⟩
    · simp only [recvBody, expected, storedBody, if_neg hd, hb, List.drop_left,
        readBody_full (Nat.zero_le _)]
      exact ⟨_, rfl⟩
  obtain ⟨s, hs⟩ := hloop
  refine ⟨t, s, ht, ?_⟩
  rw [hsocket, hrun, hs]
  rfl

/-- The fields `Parse` fills from the head and the body. -/
structure SameFields (req₁ req₂ : Request) : Prop where
  method : req₁.method = req₂.method
  path : req₁.path = req₂.path
  version : req₁.version = req₂.version
  headers : req₁.headers = req₂.headers
  bodySize : req₁.bodySize = req₂.bodySize
  body : req₁.body = req₂.body

/-- `Parse` returns the same boolean and fills the same fields for both ways of cutting,
whatever the stack holds. -/
def Agree (ip : Bytes) (cut₁ cut₂ : Cut m.text) : Prop :=
  ∀ stale₁ stale₂ : Bytes, stale₁.length = kReqBufSize → stale₂.length = kReqBufSize →
    ∃ complete req₁ req₂ s₁ s₂, parse stale₁ (cut₁.socket ip) {} = .ok (complete, req₁, s₁) ∧
      parse stale₂ (cut₂.socket ip) {} = .ok (complete, req₂, s₂) ∧ SameFields req₁ req₂

/-- A run that returns on a stack without line ends had the head in its first
delivery. -/
theorem head_in_first (hmulti : ¬ m.Multipart) {ip : Bytes} {cut : Cut m.text}
    {out : Bool × Request × Socket} (h : parse noLineEnds (cut.socket ip) {} = .ok out) :
    m.Readable ∧ m.head.length ≤ cut.first.length := by
  obtain ⟨rest, hchunks, htext⟩ := cut.exists_cons m.text_ne_nil
  have hfits : ∀ c ∈ cut.first :: rest, c.length ≤ kReqBufSize := by
    rw [← hchunks]
    exact cut.fits
  have hsocket : cut.socket ip = ⟨ip, cut.first :: rest, hfits⟩ := by
    simp only [Cut.socket, hchunks]
  rw [hsocket] at h
  obtain ⟨hr, hin | ⟨htaken, -⟩⟩ := m.parse_ok (cut.first_ne_nil m.text_ne_nil) htext h
  · exact ⟨hr, hin⟩
  · exact absurd (multipart_of_stored htaken) hmulti

/-- Two ways of cutting a request that is not multipart are read alike exactly when
the request is readable, its head lies in the first delivery of both, and the first
deliveries do not decide the body. -/
theorem agree_iff (hmulti : ¬ m.Multipart) (ip : Bytes) (cut₁ cut₂ : Cut m.text) :
    Agree ip cut₁ cut₂ ↔
      m.Readable ∧ m.head.length ≤ cut₁.first.length ∧ m.head.length ≤ cut₂.first.length ∧
        (m.Declares ∨ m.body = [] ∨ cut₁.first.length = cut₂.first.length) := by
  have htaken : ¬ m.TakenMultipart := fun h => hmulti (multipart_of_stored h)
  have hlines : noLineEnds.length = kReqBufSize := List.length_replicate
  constructor
  · intro hagree
    obtain ⟨complete, req₁, req₂, s₁, s₂, h₁, h₂, hsame⟩ :=
      hagree noLineEnds noLineEnds hlines hlines
    obtain ⟨hr, hin₁⟩ := head_in_first hmulti h₁
    obtain ⟨-, hin₂⟩ := head_in_first hmulti h₂
    refine ⟨hr, hin₁, hin₂, (storedBody_eq_iff cut₁ cut₂ hin₁ hin₂).mp ?_⟩
    obtain ⟨t₁, u₁, -, hrun₁⟩ := parse_cut hr htaken hlines ip cut₁ hin₁
    obtain ⟨t₂, u₂, -, hrun₂⟩ := parse_cut hr htaken hlines ip cut₂ hin₂
    rw [h₁] at hrun₁
    rw [h₂] at hrun₂
    simp only [Except.ok.injEq, Prod.mk.injEq] at hrun₁ hrun₂
    have hbody := hsame.body
    rw [hrun₁.2.1, hrun₂.2.1] at hbody
    simpa using hbody
  · rintro ⟨hr, hin₁, hin₂, hbody⟩ stale₁ stale₂ hs₁ hs₂
    obtain ⟨t₁, u₁, ht₁, hrun₁⟩ := parse_cut hr htaken hs₁ ip cut₁ hin₁
    obtain ⟨t₂, u₂, ht₂, hrun₂⟩ := parse_cut hr htaken hs₂ ip cut₂ hin₂
    rw [ht₁, Except.ok.injEq] at ht₂
    subst ht₂
    rw [← (storedBody_eq_iff cut₁ cut₂ hin₁ hin₂).mpr hbody] at hrun₂
    exact ⟨_, _, _, u₁, u₂, hrun₁, hrun₂, rfl, rfl, rfl, rfl, rfl, rfl⟩

/-- `POST / H` with `Content-Length: 2` and the body `hi`. -/
def hello : Message where
  method := ascii ['P', 'O', 'S', 'T']
  target := ascii ['/']
  version := ascii ['H']
  crlf := true
  fields := [⟨contentLength, ascii [' ', '2'], true, by decide, by decide, by decide⟩]
  blankCrlf := true
  body := ascii ['h', 'i']
  method_word := by decide
  target_word := by decide
  version_word := by decide
  fields_ne := by simp
  length_declared := by decide
  body_declared := by decide
  body_small := by decide

theorem hello_fits : hello.text.length ≤ kReqBufSize := by decide

/-- Cut inside the body, or in front of it, the request is read alike. -/
theorem agree_hello :
    Agree [] (Cut.two hello.text 31 (by decide) (by decide) hello_fits)
      (Cut.two hello.text 32 (by decide) (by decide) hello_fits) :=
  (agree_iff (by decide) [] _ _).mpr
    ⟨⟨by decide, by decide⟩, by decide, by decide, .inl (by decide)⟩

/-- Cut in front of the last line end of the head, it is not: one way of cutting has
`Parse` return, and the other has it throw for every stack. -/
theorem agree_fails :
    ¬ hello.Multipart ∧
      ¬ Agree [] (Cut.two hello.text 31 (by decide) (by decide) hello_fits)
        (Cut.two hello.text 30 (by decide) (by decide) hello_fits) := by
  refine ⟨by decide, fun hagree => ?_⟩
  have hlines : noLineEnds.length = kReqBufSize := List.length_replicate
  obtain ⟨_, _, _, _, _, -, h, -⟩ := hagree noLineEnds noLineEnds hlines hlines
  obtain ⟨-, hin⟩ := head_in_first (by decide) h
  exact absurd hin (by decide)

end Message
end Calabash
