import Calabash.Web.Effort

/-!
# Every request is answered

A server whose handlers return, on a thread pool, with clients that send requests one by one. As
long as nothing new comes from outside, every run ends; where it ends, the loop waits, no worker
has a task, and every client has got an answer to each of its requests.

## Main results

* `Partway.goes_on` — a task can always go on.
* `idle_of_rest` — a server that cannot is idle.
* `serves` — what becomes of a server that nothing new comes to.
-/

namespace Calabash

open HttpMessage (receive)
open RequestMaker

/-- Whatever a task meets outside, the server returns a response to its request, and the log line
behind it can be written. -/
structure Site.Returns (server : Site) : Prop where
  meets : ∃ out, server.meets out
  returns : ∀ out, server.meets out → ∀ req, ∃ fuel res,
    (server.handle out fuel req).ending = .returned res ∧
      out.logs (server.handle out fuel req).logs = true

/-- A `Handle` that has ended has returned. -/
theorem Site.Returns.ending {server : Site} (h : server.Returns) {out : Outside}
    (hmeets : server.meets out) {fuel : ℕ} {req : Request}
    (hover : (server.handle out fuel req).ending ≠ .running) : ∃ res,
      (server.handle out fuel req).ending = .returned res ∧
        out.logs (server.handle out fuel req).logs = true := by
  obtain ⟨enough, res, hres, hlogs⟩ := h.returns out hmeets req
  have hsame : server.handle out fuel req = server.handle out enough req := by
    rw [← Server.handle_mono (Nat.le_max_left fuel enough) hover,
      Server.handle_mono (Nat.le_max_right fuel enough) (by rw [hres]; simp)]
  rw [hsame]
  exact ⟨res, hres, hlogs⟩

/-- A connection on which nothing is said. -/
def Link.silent : Link := ⟨⟨[], [], by simp⟩, ⟨[], []⟩⟩

/-! ## A task goes on -/

section
variable {server : Site} {l l' : Link}

/-- A task that has a request in front of it does not throw. -/
theorem Partway.not_threw {e : Exception} (h : Partway server l (.threw e) l')
    (hreturns : server.Returns) (hl : l.Honest) (hmore : l.socket.deliveries ≠ []) : False := by
  cases h with
  | garbled hstale hparse =>
    obtain ⟨req, next, hrun⟩ := hl.parse hmore hstale
    rw [hparse] at hrun
    cases hrun
  | raised hstale hparse hmeets hending =>
    obtain ⟨res, hres, -⟩ := hreturns.ending hmeets (by rw [hending]; simp)
    rw [hending] at hres
    cases hres
  | unlogged hstale hparse hmeets hending hlog =>
    obtain ⟨res, -, hlogs⟩ := hreturns.ending hmeets (by rw [hending]; simp)
    exact hlog hlogs

/-- A file that is still missing bytes has some left to read. -/
theorem Partway.reads_left {missing : ℕ} {reads : List Bytes} {logged : Bool}
    (h : Partway server l (.sending [] (missing + 1) reads logged) l') (hsite : server.Composes)
    (hl : l.Honest) : reads ≠ [] := by
  rintro rfl
  cases h with
  | sending hstale hparse hmeets hending hrun hall hleft =>
    obtain ⟨ms, haligned, hne⟩ := hl
    obtain ⟨m, rest, -, hread, hbody, -⟩ := Serving.parse_aligned haligned hne hstale hparse
    obtain ⟨calls, hmade⟩ := hsite.gives_madeBy ⟨_, _, hread, hbody, hmeets, hending⟩
    rw [List.append_nil] at hall
    rw [hall, hmade.length_reads, Nat.sub_self] at hleft
    cases hleft

/-- `recv` brings something of a request. -/
theorem Link.Honest.recv (hl : l.Honest) (hmore : l.socket.deliveries ≠ []) :
    ∃ chunk next, l.socket.recv = (chunk, next) ∧ chunk ≠ [] := by
  obtain ⟨ms, -, hne⟩ := hl
  obtain ⟨⟨ip, deliveries, fits⟩, wire⟩ := l
  cases deliveries with
  | nil => exact absurd rfl hmore
  | cons chunk rest => exact ⟨chunk, _, rfl, hne chunk List.mem_cons_self⟩

/-- `Parse` begins with a request in front of it. -/
theorem exists_opened (hl : l.Honest) (hmore : l.socket.deliveries ≠ []) :
    ∃ pc l'', TaskStep server .reading l pc l'' := by
  obtain ⟨chunk, next, hrecv, hne⟩ := hl.recv hmore
  have hstale : (List.replicate kReqBufSize (0 : UInt8)).length = kReqBufSize :=
    List.length_replicate
  obtain ⟨req, last, hparse⟩ := hl.parse hmore hstale
  have hgoes := parse_goesOn hrecv hne (List.replicate kReqBufSize 0)
  rw [hparse] at hgoes
  cases hafter : afterRecv l.socket.ip (List.replicate kReqBufSize 0) chunk with
  | ok pc => exact ⟨pc, _, .opened _ hstale hrecv hne hafter⟩
  | error fault =>
    rw [hafter] at hgoes
    cases hgoes

/-- A task under way can take a step, or has come to its `attach`. -/
theorem Partway.goes_on {pc : TaskPc} (h : Partway server l pc l') (hsite : server.Composes)
    (hreturns : server.Returns) (hl : l.Honest) (hmore : l.socket.deliveries ≠ [])
    (hanswers : ∀ c cs missing reads logged, pc = .sending (c :: cs) missing reads logged →
      l'.wire.answers ≠ []) :
    pc = .released .attach ∨ ∃ pc' l'', TaskStep server pc l' pc' l'' := by
  cases pc with
  | reading =>
    cases h
    exact .inr (exists_opened hl hmore)
  | body req realRead body =>
    right
    by_cases hfull : req.bodySize ≤ realRead
    · exact ⟨_, _, .full hfull⟩
    · rcases hrecv : l'.socket.recv with ⟨chunk, next⟩
      by_cases hne : chunk = []
      · subst hne
        exact ⟨_, _, .broken (Nat.lt_of_not_le hfull) hrecv⟩
      · exact ⟨_, _, .more (Nat.lt_of_not_le hfull) hrecv hne⟩
  | handling req =>
    obtain ⟨out, hmeets⟩ := hreturns.meets
    obtain ⟨fuel, res, hending, -⟩ := hreturns.returns out hmeets req
    exact .inr ⟨_, _, .answer out fuel hmeets hending⟩
  | sending left missing reads logged =>
    right
    obtain ⟨socket, answers, sent⟩ := l'
    cases left with
    | cons c cs =>
      cases answers with
      | nil => exact absurd rfl (hanswers c cs missing reads logged rfl)
      | cons answer answers =>
        cases answer with
        | none => exact ⟨_, _, .again⟩
        | some n => exact ⟨_, _, .send⟩
    | nil =>
      cases missing with
      | zero => exact ⟨_, _, .log⟩
      | succ missing =>
        cases reads with
        | nil => exact absurd rfl (h.reads_left hsite hl)
        | cons buf reads => exact ⟨_, _, .read⟩
  | released call =>
    cases call with
    | attach => exact .inl rfl
    | remove => exact (h.not_remove hl hmore).elim
  | threw e => exact (h.not_threw hreturns hl hmore).elim

end

/-! ## A server goes on -/

namespace Pooled
variable {W S : Type} [DecidableEq W] [DecidableEq S] {σ σ' : Pooled W S}

open Function (update)

/-- The pool takes no task from a worker that is in it. -/
theorem running_pool {e : ThreadPool.Event S} (h : σ.Coherent) (hstep : Step σ (.pool e) σ')
    {w : W} {s : S} (hw : σ.view.worker w = .running s) : σ'.view.worker w = .running s := by
  have hquiet : ∀ pool', ThreadPool.Step σ.pool e pool' → (∀ t, e ≠ .start t) →
      (∀ t, e ≠ .dequeue t) → workerView (σ.task w) (pool'.worker w) = .running s := by
    intro pool' hpool hstart hdequeue
    rw [(Deployed.worker_step hpool hstart hdequeue w).1 (σ.task w)]
    exact hw
  cases hstep with
  | call t es pool hloop hpool | returned t es pool hloop hpool =>
    exact hquiet pool hpool (by simp) (by simp)
  | finish v t how hv htask => exact hquiet _ (.finish v how hv) (by simp) (by simp)
  | start v t hv =>
    rw [view_start_task hv]
    exact hw
  | pool e pool he hpool =>
    cases e with
    | start => cases he
    | dequeue t =>
      cases hpool with
      | @take v _ rest hv htasks =>
        obtain ⟨hidle, hview⟩ := view_take h t rest hv
        have hvw : w ≠ v := by
          rintro rfl
          rw [hidle] at hw
          cases hw
        rw [hview]
        dsimp only
        rwa [Function.update_of_ne hvw]
    | _ => exact hquiet pool hpool (by simp) (by simp)

omit [DecidableEq W] [DecidableEq S] in
theorem loopView_queueing (pushed : Bool) (s : S) (es : List (Event S)) :
    (loopView pushed (.queueing s es)).plain = true ∧
      (loopView pushed (.queueing s es)).arriving = none := by
  cases pushed <;> exact ⟨rfl, rfl⟩

/-- What happens in the pool asks for nothing. -/
theorem granted_pool {e : ThreadPool.Event S} (h : σ.Coherent) (hopen : σ.view.Open)
    (hstep : Step σ (.pool e) σ') : σ.view.Granted σ'.view := by
  have hworker : ∀ w s, σ.view.worker w = .running s → σ'.view.worker w ≠ .idle := by
    intro w s hw
    rw [running_pool h hstep hw]
    simp
  have hloop : σ'.view.loop = σ.view.loop ∨
      σ.view.loop.plain = true ∧ σ'.view.loop.arriving = none := by
    have hkeep : σ'.loop = σ.loop ∨ ∃ s es, σ.loop = .queueing s es ∧ σ'.loop = .batch es := by
      cases hstep with
      | returned s es pool hto => exact .inr ⟨s, es, hto, rfl⟩
      | _ => exact .inl rfl
    rcases hkeep with hsame | ⟨s, es, hqueueing, hbatch⟩
    · cases hpc : σ.loop with
      | queueing s es =>
        right
        simp only [view, hsame, hpc]
        exact ⟨(loopView_queueing _ s es).1, (loopView_queueing _ s es).2⟩
      | _ =>
        left
        simp only [view, hsame, hpc, loopView]
    · right
      simp only [view, hqueueing, hbatch]
      exact ⟨(loopView_queueing _ s es).1, rfl⟩
  constructor
  · intro fd hfd
    rcases hloop with hsame | ⟨-, hnone⟩
    · exact hopen.arriving fd (hsame ▸ hfd)
    · rw [hnone] at hfd
      cases hfd
  · intro fd es hto
    rcases hloop with hsame | ⟨hplain, -⟩
    · simp [hsame, hto]
    · rw [hto] at hplain
      cases hplain
  · intro s es hto hbatch
    rcases hloop with hsame | ⟨hplain, -⟩
    · rw [hsame, hto] at hbatch
      cases hbatch
    · rw [hto] at hplain
      cases hplain
  · exact fun w s hw hidle => absurd hidle (hworker w s hw)

omit [DecidableEq S] in
/-- Without a notification or a stop, nobody who sleeps is woken. -/
theorem woken_by {pool pool' : ThreadPool W Unit S} {e : ThreadPool.Event S}
    (hstep : ThreadPool.Step pool e pool') (he : e.external = false)
    (hd : pool.destructor = .notStarted) {w : W} (hw : pool.worker w = .waiting)
    (hw' : pool'.worker w = .waking) : pool'.producer () ≠ pool.producer () := by
  cases hstep with
  | notifyOne p v hp => simp [hp]
  | notifyNone p hp => simp [hp]
  | spurious | call | destroy => cases he
  | notifyAll hnotifying =>
    rw [hd] at hnotifying
    cases hnotifying
  | lock v hv | block v hv | take v hv | leave v hv | unlock v hv | start v hv | finish v _ hv
  | exit v hv =>
    by_cases hwv : w = v
    · subst hwv
      simp [hw] at hv
    · simp [hwv, hw] at hw'
  | acquire | push | reject | release | unwind | seize | setStop | letGo | join =>
    rw [show pool.worker w = _ from hw'] at hw
    cases hw

end Pooled

namespace Deployed
variable {W S : Type} [DecidableEq W] [DecidableEq S] {server : Site}

open Function (update)

/-- Nobody can take a step to which nothing new has led. -/
def Rest (server : Site) (σ : Deployed W S) : Prop := ∀ σ', ¬ Busy server σ σ'

/-- The kernel takes what a task sends, and there is a slot for the connection that was accepted. -/
structure Supplied (σ : Deployed W S) : Prop where
  sends : ∀ w s c cs missing reads logged, σ.core.task w = .running s →
    σ.task w = .sending (c :: cs) missing reads logged → (σ.link s).wire.answers ≠ []
  slots : ∀ fd es, σ.core.loop = .accepted fd es →
    ∃ s pool, σ.core.handler.pool.allocate = .slot s pool

/-- A step that the loop and the clients have no part in. -/
theorem busy_of_plain {σ σ' : Deployed W S} (htended : Serving.Tended server σ.view)
    (hstep : Step server σ σ')
    (hgranted : σ'.core.view ≠ σ.core.view → σ.core.view.Granted σ'.core.view)
    (hloop : σ.core.loop = .waiting → σ'.core.loop = .waiting)
    (hidle : σ'.core.handler.pool.idle = σ.core.handler.pool.idle)
    (haccepted : σ'.accepted = σ.accepted)
    (hwoken : ∀ w, σ.core.pool.worker w = .waiting → σ'.core.pool.worker w = .waking →
      σ'.core.pool.producer () ≠ σ.core.pool.producer ()) : Busy server σ σ' where
  step := hstep
  attends := by
    refine ⟨hgranted, fun hwaiting s ready hmem => ?_, fun s hs => ?_⟩
    · rw [hloop hwaiting] at hmem
      cases hmem
    · rw [hidle] at hs
      rw [haccepted]
      exact htended.honest s hs
  connections hwaiting := by
    rw [hloop hwaiting]
    exact List.not_mem_nil
  reports hwaiting := by
    rw [hloop hwaiting]
    simp
  wakeups := hwoken

section
variable [Fintype W] {σ : Deployed W S}

/-- A task goes on as long as its worker is in it. -/
theorem Rest.not_running (hrest : Rest server σ) (hkept : Kept server σ) (hsupplied : σ.Supplied)
    (hsite : server.Composes) (hreturns : server.Returns) (w : W) (s : S) :
    σ.core.pool.worker w ≠ .running s := by
  intro hw
  obtain ⟨hreach, hown, hopen, -⟩ := kept_reachable hkept.reachable
  have hc := coherent_reachable hreach
  have hview : σ.view.core.worker w = σ.core.task w := Pooled.view_worker hw
  rcases hkept.tended.worker w with hidle | ⟨t, ht⟩
  · rw [hview] at hidle
    have hfinish : Pooled.Step σ.core (.pool (.finish s .returned)) _ :=
      .finish w s .returned hw hidle
    exact hrest _ (busy_of_plain hkept.tended (.pool _ _ (by simp) hfinish)
      (fun _ => Pooled.granted_pool hc hopen hfinish) id rfl rfl
      fun v => Pooled.woken_by (.finish w .returned hw) rfl hc.destructor)
  · obtain ⟨l, hl, hmore, hpartway⟩ := hkept.tended.partway hown ht
    rw [view_pc hw] at hpartway
    rw [hview] at ht
    obtain rfl := hkept.matched w s t hw ht
    rcases hpartway.goes_on hsite hreturns hl hmore
      (fun c cs missing reads logged => hsupplied.sends w t c cs missing reads logged ht)
      with hattach | ⟨pc, l', hcall⟩
    · refine hrest _ (busy_of_plain hkept.tended (.attach w t true hw ht hattach)
        (fun _ => ?_) id rfl rfl fun v hv hv' => by simp [hv] at hv')
      rw [Pooled.view_task hw (σ.core.handler.attach t true) .idle]
      exact .of_reattach rfl hopen.arriving (hview.trans ht) rfl rfl
    · exact hrest _ (busy_of_plain hkept.tended (.call w t pc l' hw ht hcall)
        (fun hne => absurd rfl hne) id rfl rfl fun v hv hv' => by simp [hv] at hv')

/-- The pool has come to rest with them. -/
theorem Rest.pool (hrest : Rest server σ) (hkept : Kept server σ) (hsupplied : σ.Supplied)
    (hsite : server.Composes) (hreturns : server.Returns) : ThreadPool.AtRest σ.core.pool := by
  obtain ⟨hreach, -, hopen, -⟩ := kept_reachable hkept.reachable
  have hc := coherent_reachable hreach
  intro e pool hpool
  by_contra hext
  have he : e.external = false := by simpa using hext
  have hno : ∀ core : Pooled W S, (∀ s, e ≠ .start s) → Pooled.Step σ.core (.pool e) core →
      core.pool = pool → core.handler = σ.core.handler →
      (σ.core.loop = .waiting → core.loop = .waiting) → False := by
    intro core hstart hcore hsame hhandler hloop
    refine hrest _ (busy_of_plain hkept.tended (.pool e core hstart hcore)
      (fun _ => Pooled.granted_pool hc hopen hcore) hloop (by rw [hhandler]) rfl fun w => ?_)
    rw [hsame]
    exact Pooled.woken_by hpool he hc.destructor
  have hinside : Pooled.within e = true → False := by
    intro hwithin
    refine hno { σ.core with pool := pool } (fun s hs => ?_) (.pool e pool hwithin hpool) rfl rfl id
    rw [hs] at hwithin
    cases hwithin
  cases hpool with
  | finish w how hw => exact hrest.not_running hkept hsupplied hsite hreturns w _ hw
  | start w hw =>
    exact hrest _ (busy_of_plain hkept.tended (.start w _ hw)
      (fun _ => Pooled.granted_pool hc hopen (.start w _ hw)) id rfl rfl
      fun v => Pooled.woken_by (.start w hw) rfl hc.destructor)
  | call | destroy => cases he
  | @notifyOne p s w hp hw =>
    obtain ⟨es, hloop⟩ := hc.enqueue s (by simp [Pooled.asked, hp])
    exact hno _ (by simp) (.returned s es _ hloop (.notifyOne p w hp hw)) rfl rfl (by simp [hloop])
  | @notifyNone p s hp hw =>
    obtain ⟨es, hloop⟩ := hc.enqueue s (by simp [Pooled.asked, hp])
    exact hno _ (by simp) (.returned s es _ hloop (.notifyNone p hp hw)) rfl rfl (by simp [hloop])
  | _ => exact hinside rfl

omit [Fintype W] in
/-- A loop in the middle of its events can go on. -/
theorem Rest.no_loop (hrest : Rest server σ) (htended : Serving.Tended server σ.view)
    (hproducer : σ.core.pool.producer () = .idle)
    (hloop : (∃ es, σ.core.loop = .batch es) ∨ ∃ s es, σ.core.loop = .attaching s es) : False := by
  have hview := Pooled.loop_of_producer hproducer
  obtain ⟨handler, loop, hstep, hpool, hgranted⟩ :=
    EventLoop.exists_granted (σ := σ.core.view) (by rwa [hview])
  have hcore : Pooled.Step σ.core .loop { σ.core with handler := handler, loop := loop } :=
    .of_view hproducer hstep
  refine hrest _ (busy_of_plain htended (.loop _ hcore fun s hs => ?_) (fun _ => ?_)
    (fun hwaiting => ?_) (by rw [hpool]; rfl) rfl fun v hv hv' => by simp [hv] at hv')
  · rwa [hpool]
  · rw [Pooled.view_loop hproducer handler loop]
    exact hgranted
  · rcases hloop with ⟨es, hloop⟩ | ⟨s, es, hloop⟩
    all_goals
      rw [hloop] at hwaiting
      cases hwaiting

omit [Fintype W] in
/-- A connection on which nothing is said can come any time. -/
theorem busy_connect (htended : Serving.Tended server σ.view)
    (hproducer : σ.core.pool.producer () = .idle) {fd : ℤ} {es : List (Event S)} {s : S}
    {pool : ObjectPool S} (hloop : σ.core.loop = .accepted fd es)
    (halloc : σ.core.handler.pool.allocate = .slot s pool) : Busy server σ
      { core := { σ.core with
          handler := σ.core.handler.construct s pool fd, loop := .attaching s es }
        task := σ.task
        link := update σ.link s Link.silent, accepted := update σ.accepted s Link.silent } where
  step := .connect fd es s pool Link.silent hproducer hloop halloc rfl
  attends := by
    refine ⟨fun _ => ?_, fun hwaiting => ?_, fun t ht => ?_⟩
    · have hview : σ.core.view.loop = .accepted fd es :=
        (Pooled.loop_of_producer hproducer).trans hloop
      rw [Pooled.view_loop hproducer (σ.core.handler.construct s pool fd) (.attaching s es)]
      exact .of_slot hview rfl rfl
    · rw [hloop] at hwaiting
      cases hwaiting
    · by_cases hts : t = s
      · subst hts
        simp only [Function.update_self]
        exact ⟨[], .nil, by simp [Link.silent]⟩
      · simp only [Function.update_of_ne hts]
        refine htended.honest t fun hidle => ht ?_
        have hslots := ObjectPool.allocate_slot halloc
        have hin : t ∈ s :: pool.idle := hslots ▸ hidle
        exact (List.mem_cons.mp hin).resolve_left hts
  connections hwaiting := by
    rw [hloop] at hwaiting
    cases hwaiting
  reports hwaiting := by
    rw [hloop] at hwaiting
    cases hwaiting
  wakeups v hv hv' := by simp [hv] at hv'

omit [Fintype W] in
/-- A registration of a client that has something to say can be reported. -/
theorem busy_wait (htended : Serving.Tended server σ.view)
    (hproducer : σ.core.pool.producer () = .idle) (hloop : σ.core.loop = .waiting)
    {r : Registration S} (hr : r ∈ σ.core.handler.epoll.interest) (harmed : r.armed = true)
    (hmore : (σ.link r.ptr).socket.deliveries ≠ []) : ∃ σ', Busy server σ σ' := by
  let ready : Ready := ⟨false, false, true, rfl⟩
  have hwait : EventLoop.Step σ.core.bare ⟨{ σ.core.handler with
      epoll := σ.core.handler.epoll.report [r] }, .batch [.client r.ptr ready],
      σ.core.pool.tasks, σ.core.task⟩ :=
    .wait [r] [.client r.ptr ready] hloop (by simpa using ⟨hr, harmed⟩) (List.nodup_singleton r)
      rfl
  have hview : σ.core.view.loop = .waiting :=
    (Pooled.loop_of_producer hproducer).trans hloop
  refine ⟨_, .loop _ (.loop _ _ hproducer hwait) fun _ hs => hs, ⟨fun _ => ?_, ?_, ?_⟩, ?_, ?_,
    fun v hv hv' => by simp [hv] at hv'⟩
  · rw [Pooled.view_loop hproducer { σ.core.handler with epoll := σ.core.handler.epoll.report [r] }]
    exact .of_plain (by rw [hview]; rfl) rfl fun _ => .inr rfl
  · intro _ s ready' hmem
    cases List.mem_singleton.mp hmem
    exact ⟨rfl, hmore⟩
  · exact htended.honest
  · intro _
    simp [EventLoop.LoopPc.events]
  · intro _
    simp

omit [Fintype W] in
/-- The loop goes on up to its next `epoll_wait`. -/
theorem Rest.loop (hrest : Rest server σ) (htended : Serving.Tended server σ.view)
    (hsupplied : σ.Supplied) (hc : σ.core.Coherent) (hopen : σ.core.view.Open)
    (hproducer : σ.core.pool.producer () = .idle) : σ.core.loop = .waiting := by
  have hview := Pooled.loop_of_producer hproducer
  have hkeeps : σ.core.loop.keeps = true := hview ▸ htended.loop
  cases hloop : σ.core.loop with
  | waiting => rfl
  | closing s es | deleting s es | stuck =>
    rw [hloop] at hkeeps
    cases hkeeps
  | batch es => exact (hrest.no_loop htended hproducer (.inl ⟨es, hloop⟩)).elim
  | attaching s es => exact (hrest.no_loop htended hproducer (.inr ⟨s, es, hloop⟩)).elim
  | accepted fd es =>
    obtain ⟨s, pool, halloc⟩ := hsupplied.slots fd es hloop
    exact (hrest _ (busy_connect htended hproducer hloop halloc)).elim
  | queueing s es =>
    have hcall : Pooled.Step σ.core (.pool (.call s)) _ := .call s es _ hloop (.call () s hproducer)
    refine (hrest _ (busy_of_plain htended (.pool _ _ (by simp) hcall)
      (fun _ => Pooled.granted_pool hc hopen hcall) (by simp [hloop]) rfl rfl
      fun v hv hv' => by simp [hv] at hv')).elim

variable [Nonempty W]

/-- A server that cannot go on is idle. -/
theorem idle_of_rest (hrest : Rest server σ) (hkept : Kept server σ) (hsupplied : σ.Supplied)
    (hsite : server.Composes) (hreturns : server.Returns) : σ.Idle := by
  obtain ⟨hreach, hown, hopen, -⟩ := kept_reachable hkept.reachable
  have hc := coherent_reachable hreach
  have hpool := hrest.pool hkept hsupplied hsite hreturns
  obtain ⟨tr, htrace⟩ := trace_core hreach
  have hruns := (Pooled.trace_pool htrace).reachable
  have hx := ThreadPool.exclusive_reachable hruns
  have hproducer := hpool.producer hx ()
  have hloop := hrest.loop hkept.tended hsupplied hc hopen hproducer
  refine ⟨hloop, ?_, fun w => ?_, fun r hr harmed => ?_⟩
  · exact hpool.tasks hx (ThreadPool.covered_reachable hruns)
      (ThreadPool.leavesEmpty_reachable hruns)
  · have hidle : σ.core.task w = .idle :=
      hc.task w (hrest.not_running hkept hsupplied hsite hreturns w)
    rcases hpool.worker hx w with hw | hw <;> simp [Pooled.view, hw, Pooled.workerView, hidle]
  · by_contra hmore
    obtain ⟨σ', hbusy⟩ := busy_wait hkept.tended hproducer hloop hr harmed hmore
    exact hrest σ' hbusy

/-! ## Every run -/

/-- The steps that nothing new has brought about. -/
def busy (server : Site) (W S : Type) [DecidableEq W] [DecidableEq S] :
    System (Deployed W S) Unit where
  init _ := True
  step σ _ σ' := Busy server σ σ'

omit [Nonempty W] in
/-- A run keeps every connection that it finds. -/
theorem kept_run {τ : Deployed W S} {tr : List Unit} (hkept : Kept server σ)
    (hrun : (busy server W S).Run σ tr τ) : Kept server τ ∧
      ∀ s, s ∉ σ.core.handler.pool.idle →
        s ∉ τ.core.handler.pool.idle ∧ τ.accepted s = σ.accepted s := by
  induction hrun with
  | nil => exact ⟨hkept, fun s hs => ⟨hs, rfl⟩⟩
  | snoc _ hbusy ih =>
    obtain ⟨hmiddle, hstays⟩ := ih
    have hstep := hbusy.step
    refine ⟨kept_step hstep hbusy.attends hmiddle, fun s hs => ?_⟩
    obtain ⟨hin, haccepted⟩ := hstays s hs
    obtain ⟨hlast, hsame⟩ := (attended_step (kept_reachable hmiddle.reachable).1 hstep
      hbusy.attends hmiddle.tended).2 s hin
    exact ⟨hlast, hsame.trans haccepted⟩

omit [Nonempty W] in
/-- Every run ends. -/
theorem ends_of_kept [Fintype S] (hkept : Kept server σ) : (busy server W S).Ends σ := by
  refine System.ends_of_lower wellFounded_lowers (P := Kept server) (f := work)
    (fun σ _ σ' h hbusy => kept_step (Busy.step hbusy) (Busy.attends hbusy) h)
    (fun σ _ σ' h hbusy => work_lowers hbusy ?_) hkept
  obtain ⟨hreach, -⟩ := kept_reachable h.reachable
  obtain ⟨tr, htrace⟩ := trace_core hreach
  exact Pooled.stop_eq_false htrace.reachable

/-- As long as nothing new comes from outside: no run goes on for ever, no connection is given up,
and where a run cannot go on every client has an answer to each of its requests. -/
structure Serves (server : Site) (σ : Deployed W S) : Prop where
  ends : (busy server W S).Ends σ
  stays : ∀ tr τ, (busy server W S).Run σ tr τ → ∀ s, s ∉ σ.core.handler.pool.idle →
    s ∉ τ.core.handler.pool.idle ∧ τ.accepted s = σ.accepted s
  answers : ∀ tr τ, (busy server W S).Run σ tr τ → Rest server τ → τ.Supplied →
    ∀ s, s ∉ τ.core.handler.pool.idle →
    ∀ ms, Message.Aligned ms (τ.accepted s).socket.deliveries →
      ∃ reads, List.Forall₂ server.Hears ms reads ∧
        receive ms.length (τ.link s).wire.sent = some (reads, [])

/-- What becomes of a server that nothing new comes to, from any state of a run with an outside
that attends to it. -/
theorem serves [Fintype S] (hsite : server.Composes) (hreturns : server.Returns)
    (h : (attended server W S).Reachable σ) : Serves server σ := by
  have hkept := attended_reachable h
  refine ⟨ends_of_kept hkept, fun tr τ hrun => (kept_run hkept hrun).2, ?_⟩
  intro tr τ hrun hrest hsupplied s hs ms haligned
  obtain ⟨hlast, -⟩ := kept_run hkept hrun
  have hidle := idle_of_rest hrest hlast hsupplied hsite hreturns
  have hregistered := hidle.registered hlast.reachable hs
  obtain ⟨-, -, hne⟩ := hlast.tended.honest s hs
  exact (Serving.serial_reachable (reachable_view (kept_reachable hlast.reachable).1)).answered
    hsite hs (.inl (SocketHandler.Owns.mem_watched hregistered)) (hidle.heard _ hregistered rfl)
    haligned hne

end

/-! ## One request -/

theorem returns_greeter : Serving.greeter.Returns := by
  refine ⟨⟨Server.quiet, rfl⟩, ?_⟩
  rintro out rfl req
  have hanswers : ∃ res, Answers Serving.greeter.toServer Server.quiet req res 0 := by
    by_cases hpath : req.path = ascii ['/']
    · exact ⟨_, Serving.answers_greeter hpath⟩
    · have hlookup : Serving.greeter.handlers.lookup req.path = none := by
        change AList.lookup req.path (AList.insert (ascii ['/']) _ _) = none
        rw [AList.lookup_insert_ne hpath]
        rfl
      exact ⟨_, .noRoot hlookup rfl⟩
  obtain ⟨res, hanswers⟩ := hanswers
  obtain ⟨fuel, hending, -⟩ := answers_iff.mp hanswers
  exact ⟨fuel, res, hending, rfl⟩

/-- A client has said `hello`, and the loop waits. -/
theorem serves_hello : ∃ σ : Deployed Unit Unit, () ∉ σ.core.handler.pool.idle ∧
    σ.accepted () = Serving.helloLink ∧ (σ.link ()).wire.sent = [] ∧
      Serves Serving.greeter σ := by
  let start : Deployed Unit Unit :=
    ⟨⟨⟨⟨[()], 0, 1⟩, fun _ => 0, ⟨[]⟩, []⟩, .waiting, ThreadPool.initial, fun _ => .idle⟩,
      fun _ => .reading, fun _ => Serving.helloLink, fun _ => Serving.helloLink⟩
  have hhonest : Serving.helloLink.Honest :=
    ⟨[Message.hello], Serving.aligned_helloLink, Serving.nonempty_helloLink⟩
  have hstart : (attended Serving.greeter Unit Unit).Trace [] start :=
    .nil ⟨rfl, ⟨by decide, by decide, rfl, rfl, rfl, fun _ => rfl⟩⟩
  have hwait := hstart.snoc (a := ())
    ⟨.loop _ (.loop _ _ rfl (.wait [] [.listening] rfl (by simp) (by simp) rfl)) (fun _ hs => hs),
      fun _ => .of_plain rfl rfl fun _ => .inr rfl, by simp [EventLoop.LoopPc.events],
      fun _ _ => hhonest⟩
  have haccept := hwait.snoc (a := ())
    ⟨.loop _ (.loop _ _ rfl (.accept 4 [] rfl (by simp [start, Pooled.bare]))) (fun _ hs => hs),
      fun _ => .of_accept rfl rfl (by decide) rfl, by simp, fun _ _ => hhonest⟩
  have hslot := haccept.snoc (a := ())
    ⟨.connect 4 [] () ⟨[], 1, 1⟩ Serving.helloLink rfl rfl rfl rfl,
      fun _ => .of_slot rfl rfl rfl, by simp, fun _ _ => hhonest⟩
  have hattach := hslot.snoc (a := ())
    ⟨.loop _ (.loop _ _ rfl (.attach () [] true rfl)) (fun _ hs => hs),
      fun _ => .of_attach rfl rfl rfl rfl, by simp, fun _ _ => hhonest⟩
  have hover := hattach.snoc (a := ())
    ⟨.loop _ (.loop _ _ rfl (.finish rfl)) (fun _ hs => hs),
      fun _ => .of_plain rfl rfl fun _ => .inr rfl, by simp, fun _ _ => hhonest⟩
  exact ⟨_, List.not_mem_nil, rfl, rfl,
    serves Serving.composes_greeter returns_greeter hover.reachable⟩

end Deployed

end Calabash
