import PhpHiredis.Commands
import PhpHiredis.Replay

/-!
# One call at a time

A picture of a connection: its modes, what its queues stand for, and the
replies on their way. Each method, called on a connection that shows some
picture, is specified by the picture it leaves and the value it computes from
the replies it reads.
-/
namespace PhpHiredis

open Library Reader

/-- The method calls on a connected object. -/
inductive Call where
  | command (c : Command)
  | pipeline
  | send
  | multi
  | exec

def Call.run {σ : Type} (peer : Peer σ) (s : RedisSock σ) : Call → Run (Returned × RedisSock σ)
  | command c => c.run peer s
  | pipeline => PhpHiredis.pipeline s
  | send => PhpHiredis.send peer s
  | multi => PhpHiredis.multi peer s
  | exec => PhpHiredis.exec peer s

def runCalls {σ : Type} (peer : Peer σ) :
    List Call → RedisSock σ → Run (List Returned × RedisSock σ)
  | [], s => .ok ([], s)
  | call :: calls, s => do
      let (ret, s) ← call.run peer s
      let (rets, s) ← runCalls peer calls s
      return (ret :: rets, s)

theorem runCalls_append {σ : Type} (peer : Peer σ) (calls calls' : List Call) (s : RedisSock σ) :
    runCalls peer (calls ++ calls') s = do
      let (rets, s) ← runCalls peer calls s
      let (rets', s) ← runCalls peer calls' s
      return (rets ++ rets', s) := by
  induction calls generalizing s with
  | nil => exact (bind_pure _).symm
  | cons call calls ih =>
      simp only [List.cons_append, runCalls, ih, bind_assoc, Outcome.pure_eq, Outcome.ok_bind]

section
variable {σ : Type} {peer : Peer σ} {s s' : RedisSock σ} {rets : List Returned}

theorem runCalls_cons_ok {call : Call} {calls : List Call}
    (h : runCalls peer (call :: calls) s = .ok (rets, s')) :
    ∃ ret s₁ rets', call.run peer s = .ok (ret, s₁) ∧
      runCalls peer calls s₁ = .ok (rets', s') ∧ rets = ret :: rets' := by
  obtain ⟨⟨ret, s₁⟩, hcall, hrest⟩ := Outcome.bind_eq_ok.mp h
  obtain ⟨⟨rets', s₂⟩, hcalls, heq⟩ := Outcome.bind_eq_ok.mp hrest
  cases heq
  exact ⟨ret, s₁, rets', hcall, hcalls, rfl⟩

theorem runCalls_append_ok {calls calls' : List Call}
    (h : runCalls peer (calls ++ calls') s = .ok (rets, s')) :
    ∃ rets₁ s₁ rets₂, runCalls peer calls s = .ok (rets₁, s₁) ∧
      runCalls peer calls' s₁ = .ok (rets₂, s') := by
  rw [runCalls_append] at h
  obtain ⟨⟨rets₁, s₁⟩, hcalls, hrest⟩ := Outcome.bind_eq_ok.mp h
  obtain ⟨⟨rets₂, s₂⟩, hcalls', heq⟩ := Outcome.bind_eq_ok.mp hrest
  cases heq
  exact ⟨rets₁, s₁, rets₂, hcalls, hcalls'⟩

theorem runCalls_block_ok {cs : List Command}
    (h : runCalls peer (.multi :: cs.map .command ++ [.exec]) s = .ok (rets, s')) :
    ∃ ret₁ s₁ rets₂ s₂ ret₃, Call.multi.run peer s = .ok (ret₁, s₁) ∧
      runCalls peer (cs.map .command) s₁ = .ok (rets₂, s₂) ∧
      Call.exec.run peer s₂ = .ok (ret₃, s') := by
  obtain ⟨_, s₂, _, hopen, hclose⟩ := runCalls_append_ok h
  obtain ⟨ret₁, s₁, rets₂, hmulti, hcommands, -⟩ := runCalls_cons_ok hopen
  obtain ⟨ret₃, s₃, _, hexec, hnil, -⟩ := runCalls_cons_ok hclose
  cases hnil
  exact ⟨ret₁, s₁, rets₂, s₂, ret₃, hmulti, hcommands, hexec⟩

end

section
variable {σ : Type}

theorem appendCommand (c : ExtContext σ) {keyword : Bytes} (hk : Plain keyword) :
    redisAppendCommand c keyword [] = .ok (redisAppend c (encodeRequest (tokens [keyword]))) := by
  have hformat := redisvFormatCommand_words hk []
  have hpattern : formatOf keyword [] = keyword := List.append_nil keyword
  rw [hpattern] at hformat
  rw [redisAppendCommand, hformat]
  rfl

theorem appendMulti (c : ExtContext σ) :
    redisAppendCommand c (ascii "MULTI") [] = .ok (redisAppend c (encodeRequest multiRequest)) :=
  appendCommand c (by decide)

theorem appendExec (c : ExtContext σ) :
    redisAppendCommand c (ascii "EXEC") [] = .ok (redisAppend c (encodeRequest execRequest)) :=
  appendCommand c (by decide)

/-- The object after the request `MULTI` was queued, with an empty side queue. -/
def opened (s : RedisSock σ) : RedisSock σ :=
  let s := redisSockGet (redisSockGet s)
  let s := { s with ctx := redisAppend s.ctx (encodeRequest multiRequest), multi := 1 }
  { redisEnqueue s .status none with mode := .transaction, multi_head := none, multi_tail := none }

theorem multi_pipelined_run (peer : Peer σ) {s : RedisSock σ} (hm : s.mode = .direct)
    (hp : s.pipeline ≠ 0) : Call.multi.run peer s = .ok (.self, opened s) := by
  have hmode : (redisSockGet s).mode = .direct := hm
  have hpipe : ¬(redisSockGet s).pipeline = 0 := hp
  simp only [Call.run, PhpHiredis.multi, hmode, if_true, appendMulti, Outcome.ok_bind]
  exact if_neg hpipe

/-- The object after the request `EXEC` was queued: its join is the last node. -/
def joined (s : RedisSock σ) : RedisSock σ :=
  let s := redisSockGet s
  let s := { s with ctx := redisAppend s.ctx (encodeRequest execRequest) }
  { enqueueMain { s with heap := s.heap.alloc ⟨none, none, none, s.multi_head⟩ } s.heap.size with
    mode := .direct, multi := 0, multi_commands := 0 }

/-- In a pipeline `exec` hangs the join on the tail of the main queue. -/
theorem exec_pipelined_run (peer : Peer σ) {s : RedisSock σ} (hp : s.pipeline ≠ 0) {t : ℕ}
    (ht : s.queue_tail = some t) : Call.exec.run peer s = .ok (.self, joined s) := by
  have hpipe : ¬(redisSockGet s).pipeline = 0 := hp
  have htail : (redisSockGet s).queue_tail = some t := ht
  simp only [Call.run, PhpHiredis.exec, appendExec, Outcome.ok_bind]
  refine (if_neg hpipe).trans ?_
  simp only [htail, joined, enqueueMain, redisEnqueue_]
  rfl

/-- An empty queue has no tail to follow. -/
theorem exec_pipelined_fault (peer : Peer σ) {s : RedisSock σ} (hp : s.pipeline ≠ 0)
    (ht : s.queue_tail = none) : Call.exec.run peer s = .fault .nullPointer := by
  have hpipe : ¬(redisSockGet s).pipeline = 0 := hp
  have htail : (redisSockGet s).queue_tail = none := ht
  simp only [Call.run, PhpHiredis.exec, appendExec, Outcome.ok_bind]
  refine (if_neg hpipe).trans ?_
  simp only [htail]

theorem exec_unpipelined (peer : Peer σ) {s s₁ : RedisSock σ} (hp : s.pipeline = 0)
    (hs₁ : s₁ = { redisSockGet s with
      ctx := redisAppend (redisSockGet s).ctx (encodeRequest execRequest) }) :
    Call.exec.run peer s = do
      let ctx ← PhpHiredis.skipLoop peer s₁.heap s₁.heap.size s₁.queue_head s₁.ctx
      let x := s₁.heap.size + 1
      let (z_tab, ctx) ← readInto peer (makeZval ctx x) x
      let h_index ← z_tab.arrval
      let ret ← replayBlock s₁.heap s₁.multi_head (h_index.map Prod.snd) []
      return (.value (.array ret), { s₁ with
        ctx := freeZval ctx x, multi := 0, mode := .direct, multi_head := none,
        multi_tail := none }) := by
  have hpipe : (redisSockGet s).pipeline = 0 := hp
  subst hs₁
  simp only [Call.run, PhpHiredis.exec, appendExec, Outcome.ok_bind]
  exact if_pos hpipe

section
variable {peer : Peer σ} {s s' : RedisSock σ} {ret : Returned}

/-- A `pipeline` that returns has emptied the main queue, or found its guard closed. -/
theorem pipeline_cases (h : Call.pipeline.run peer s = .ok (ret, s')) :
    ((s.mode = .direct ∧ s.pipeline = 0) ∧ ret = .self ∧
      s' = { redisSockGet s with pipeline := 1, queue_head := none, queue_tail := none }) ∨
    (¬(s.mode = .direct ∧ s.pipeline = 0) ∧ ret = .value .false ∧ s' = redisSockGet s) := by
  by_cases hguard : s.mode = .direct ∧ s.pipeline = 0
  · cases (if_pos hguard).symm.trans h
    exact Or.inl ⟨hguard, rfl, rfl⟩
  · cases (if_neg hguard).symm.trans h
    exact Or.inr ⟨hguard, rfl, rfl⟩

/-- A `send` that returns has replayed the main queue, or found its guard closed. -/
theorem send_cases (h : Call.send.run peer s = .ok (ret, s')) :
    (¬(s.pipeline = 0 ∨ s.mode ≠ .direct) ∧ ∃ tab ctx,
      PhpHiredis.sendLoop peer s.heap s.heap.size s.queue_head (redisSockGet s).ctx [] =
        .ok (tab, ctx) ∧ ret = .value (.array tab) ∧
      s' = { redisSockGet s with
        ctx := ctx, pipeline := 0, queue_head := none, queue_tail := none }) ∨
    ((s.pipeline = 0 ∨ s.mode ≠ .direct) ∧ ret = .value .false ∧ s' = redisSockGet s) := by
  by_cases hguard : s.pipeline = 0 ∨ s.mode ≠ .direct
  · cases (if_pos hguard).symm.trans h
    exact Or.inr ⟨hguard, rfl, rfl⟩
  · obtain ⟨⟨tab, ctx⟩, hloop, hend⟩ := Outcome.bind_eq_ok.mp ((if_neg hguard).symm.trans h)
    cases hend
    exact Or.inl ⟨hguard, tab, ctx, hloop, rfl, rfl⟩

/-- An `exec` that returns has read the confirmations and the reply, or in a pipeline
hung its join on the tail of the main queue. -/
theorem exec_cases (h : Call.exec.run peer s = .ok (ret, s')) :
    (s.pipeline = 0 ∧ ∃ ctx₁ z_tab ctx₂ h_index tab,
      PhpHiredis.skipLoop peer s.heap s.heap.size s.queue_head
        (redisAppend (redisSockGet s).ctx (encodeRequest execRequest)) = .ok ctx₁ ∧
      readInto peer (makeZval ctx₁ (s.heap.size + 1)) (s.heap.size + 1) = .ok (z_tab, ctx₂) ∧
      z_tab.arrval = .ok h_index ∧
      replayBlock s.heap s.multi_head (h_index.map Prod.snd) [] = .ok tab ∧
      ret = .value (.array tab) ∧
      s' = { redisSockGet s with
        ctx := freeZval ctx₂ (s.heap.size + 1), multi := 0, mode := .direct, multi_head := none,
        multi_tail := none }) ∨
    (s.pipeline ≠ 0 ∧ (∃ t, s.queue_tail = some t) ∧ ret = .self ∧ s' = joined s) := by
  by_cases hp : s.pipeline = 0
  · rw [exec_unpipelined peer hp rfl] at h
    obtain ⟨ctx₁, hskip, h₁⟩ := Outcome.bind_eq_ok.mp h
    obtain ⟨⟨z_tab, ctx₂⟩, hread, h₂⟩ := Outcome.bind_eq_ok.mp h₁
    obtain ⟨h_index, hindex, h₃⟩ := Outcome.bind_eq_ok.mp h₂
    obtain ⟨tab, hblock, h₄⟩ := Outcome.bind_eq_ok.mp h₃
    cases h₄
    exact Or.inl ⟨hp, ctx₁, z_tab, ctx₂, h_index, tab, hskip, hread, hindex, hblock, rfl, rfl⟩
  · cases ht : s.queue_tail with
    | none =>
        rw [exec_pipelined_fault peer hp ht] at h
        cases h
    | some t =>
        cases (exec_pipelined_run peer hp ht).symm.trans h
        exact Or.inr ⟨hp, ⟨t, rfl⟩, rfl, rfl⟩

end

section
variable {peer : Peer σ} {P : ExtContext σ → List Reply → Prop} {s : RedisSock σ}
  {es : List Entry} {fns : List Validator} {r : Reply} {R S : List Reply}

/-- One confirmation for every node of the main queue, and then the validators of
the side queue on the elements of the reply. -/
theorem exec_reads (hP : Source peer P) (hp : s.pipeline = 0) (h : Holds s es fns)
    (hc : P (redisAppend (redisSockGet s).ctx (encodeRequest execRequest)) (R ++ r :: S))
    (hlen : R.length = es.length) :
    ∃ c', P c' S ∧ Call.exec.run peer s =
      r.value.arrval >>= fun tab => validated fns (tab.map Prod.snd) >>= fun vals =>
        .ok (.value (.array (listTable vals)), { s with
          ctx := c', multi := 0, mode := .direct, multi_head := none, multi_tail := none }) := by
  let s₁ : RedisSock σ := { redisSockGet s with
    ctx := redisAppend (redisSockGet s).ctx (encodeRequest execRequest) }
  have hs₁ : Holds s₁ es fns := h.congr rfl rfl rfl rfl rfl
  obtain ⟨mq, sq, hq⟩ := hs₁
  have hc₁ : P s₁.ctx (R ++ r :: S) := hc
  obtain ⟨c₁, hskip, h₁⟩ := hP.skipLoop hq.main.chain (hq.main.chain.length_le hq.main.bound) hc₁
    (hlen.trans hq.entries.length_eq.symm)
  let x := s₁.heap.size + 1
  obtain ⟨c₂, hread, h₂⟩ := hP.readNew h₁ x
  refine ⟨freeZval c₂ x, hP.withMem h₂ _, ?_⟩
  have hside : Chain s₁.heap.next s₁.multi_head (sq ++ []) := by
    rw [List.append_nil]
    exact hq.side.chain
  have hblock := fun zs => @replayBlock_eq _ _ _ hq.waiting _ _ hside zs (Or.inl rfl) []
  simp only [listTable_nil, List.nil_append] at hblock
  simp only [exec_unpipelined peer hp (show s₁ = _ from rfl), hskip, Outcome.ok_bind]
  rw [hread]
  simp only [Outcome.ok_bind, hblock, bind_assoc, Outcome.pure_eq]
  rfl

theorem send_reads (hP : Source peer P) (hm : s.mode = .direct) (hp : s.pipeline ≠ 0)
    (h : Holds s es fns) (hc : P (redisSockGet s).ctx (R ++ S))
    (hcov : List.Forall₂ Entry.Covers es R) :
    ∃ c', P c' S ∧ Call.send.run peer s = replay es (R.map Reply.value) >>= fun vals =>
      .ok (.value (.array (listTable vals)), { s with
        ctx := c', pipeline := 0, queue_head := none, queue_tail := none }) := by
  have hs₁ : Holds (redisSockGet s) es fns := h.congr rfl rfl rfl rfl rfl
  obtain ⟨mq, sq, hq⟩ := hs₁
  obtain ⟨c', hc', hloop⟩ := hP.sendLoop hq.entries hq.main.chain
    (hq.main.chain.length_le hq.main.bound) hc hcov
  have hsend := hloop []
  rw [listTable_nil] at hsend
  have hguard : ¬((redisSockGet s).pipeline = 0 ∨ (redisSockGet s).mode ≠ .direct) := by
    intro h0
    rcases h0 with h0 | h0
    · exact hp h0
    · exact h0 hm
  refine ⟨c', hc', (if_neg hguard).trans ?_⟩
  rw [hsend]
  simp only [bind_assoc, Outcome.ok_bind, List.nil_append, Outcome.pure_eq]
  rfl

end

end

structure Picture (δ : Type) where
  mode : RedisMode
  pipeline : ℕ
  multi : ℕ
  entries : List Entry
  waiting : List Validator
  session : Session δ
  owed : List Reply

variable {δ : Type}

/-- A connection to the server, between two calls. -/
structure Shows (srv : Server δ) (s : RedisSock (Desk δ)) (v : Picture δ) : Prop where
  mode : s.mode = v.mode
  pipeline : s.pipeline = v.pipeline
  multi : s.multi = v.multi
  holds : Holds s v.entries v.waiting
  talking : Talking srv s.ctx v.session v.owed
  unread : s.ctx.reader.unread = []

namespace Picture
variable (srv : Server δ) (v : Picture δ)

def request (ws : Request) : Picture δ :=
  { v with
    session := (srv.answer v.session ws).1
    owed := v.owed ++ [(srv.answer v.session ws).2] }

/-- A validator is enqueued; in a transaction to the side. -/
def enqueue (fn : Validator) : Picture δ :=
  { v with
    entries := v.entries ++ [.reply (if v.multi = 0 then fn else .skip)]
    waiting := if v.multi = 0 then v.waiting else v.waiting ++ [fn] }

def queue (c : Command) : Picture δ :=
  match c.sent with
  | none => v
  | some ws => (v.request srv ws).enqueue c.validator

end Picture

variable {srv : Server δ} {s : RedisSock (Desk δ)} {v : Picture δ}

namespace Shows

theorem sockGet (h : Shows srv s v) : Shows srv (redisSockGet s) v :=
  ⟨h.mode, h.pipeline, h.multi, h.holds.congr rfl rfl rfl rfl rfl,
    h.talking.newReader h.unread callMem, rfl⟩

theorem request (h : Shows srv s v) (ws : Request) :
    Shows srv { s with ctx := redisAppend s.ctx (encodeRequest ws) } (v.request srv ws) :=
  ⟨h.mode, h.pipeline, h.multi, h.holds.congr rfl rfl rfl rfl rfl, h.talking.append ws, h.unread⟩

theorem enqueue (h : Shows srv s v) (fn : Validator) :
    Shows srv (redisEnqueue s fn none) (v.enqueue fn) where
  mode := (redisEnqueue_mode s fn none).trans h.mode
  pipeline := (redisEnqueue_pipeline s fn none).trans h.pipeline
  multi := (redisEnqueue_multi s fn none).trans h.multi
  holds := by
    unfold Picture.enqueue
    by_cases h0 : v.multi = 0
    · simp only [h0, if_true]
      exact h.holds.redisEnqueue_plain (h.multi.trans h0) fn
    · simp only [h0, if_false]
      exact h.holds.redisEnqueue_multi (fun hs => h0 (h.multi.symm.trans hs)) fn
  talking := by
    rw [redisEnqueue_ctx]
    exact h.talking
  unread := by
    rw [redisEnqueue_ctx]
    exact h.unread

theorem read (h : Shows srv s v) {ctx : ExtContext (Desk δ)}
    (ht : Talking srv ctx v.session []) :
    Shows srv { s with ctx := ctx } { v with owed := [] } :=
  ⟨h.mode, h.pipeline, h.multi, h.holds.congr rfl rfl rfl rfl rfl, ht, ht.drained.1⟩

section
variable {c : Command}

theorem command_unsent (peer : Peer (Desk δ)) (s : RedisSock (Desk δ)) (hfit : c.Fits)
    (hc : c.sent = none) : c.run peer s = .ok (.value .false, s) := by
  rw [Command.run_eq peer s hfit, Command.spec, hc]

theorem command_sent (peer : Peer (Desk δ)) (s : RedisSock (Desk δ)) (hfit : c.Fits) {ws : Request}
    (hc : c.sent = some ws) :
    c.run peer s = runRequest peer s ws c.validator c.closureArgs := by
  rw [Command.run_eq peer s hfit, Command.spec, hc]

/-- In a pipeline or a transaction a command is only queued; the socket is left alone. -/
theorem command_queued (h : Shows srv s v) (hq : ¬(v.pipeline = 0 ∧ v.multi = 0)) (hfit : c.Fits) :
    ∃ s', c.run srv.peer s = .ok (if c.sent = none then .value .false else .self, s') ∧
      Shows srv s' (v.queue srv c) ∧ s'.ctx.sock = s.ctx.sock := by
  unfold Picture.queue
  cases hc : c.sent with
  | none => exact ⟨s, command_unsent srv.peer s hfit hc, h, rfl⟩
  | some ws =>
      have h₁ := h.sockGet.request ws
      let s₁ : RedisSock (Desk δ) := { redisSockGet s with
        ctx := redisAppend (redisSockGet s).ctx (encodeRequest ws) }
      have hq' : ¬(s₁.pipeline = 0 ∧ s₁.multi = 0) := by rwa [h₁.pipeline, h₁.multi]
      refine ⟨_, ?_, h₁.enqueue c.validator, ?_⟩
      · rw [command_sent srv.peer s hfit hc, runRequest]
        exact redisRunEnd_queued srv.peer hq' c.validator c.closureArgs
      · rw [redisEnqueue_ctx]
        rfl

theorem command_direct (h : Shows srv s v) (hq : v.pipeline = 0 ∧ v.multi = 0)
    (howed : v.owed = []) (hfit : c.Fits) {ws : Request} (hc : c.sent = some ws) :
    ∃ s', Shows srv s' { v with
        entries := v.entries ++ [.reply c.validator]
        session := (srv.answer v.session ws).1
        owed := [] } ∧
      c.run srv.peer s =
        c.validator.apply (srv.answer v.session ws).2.value c.closureArgs >>= fun t =>
          .ok (.value t.2, s') := by
  have h₁ := h.sockGet.request ws
  let s₁ : RedisSock (Desk δ) := { redisSockGet s with
    ctx := redisAppend (redisSockGet s).ctx (encodeRequest ws) }
  have hq' : s₁.pipeline = 0 ∧ s₁.multi = 0 := ⟨h.pipeline.trans hq.1, h.multi.trans hq.2⟩
  have htalk := h₁.talking
  simp only [Picture.request, howed, List.nil_append] at htalk
  obtain ⟨c', hread, ht⟩ :=
    htalk.readInto (show s₁.ctx.reader.mem returnValue = some .null from rfl)
  have h₂ := (h₁.enqueue c.validator).read ht
  have hv : ({ (v.request srv ws).enqueue c.validator with owed := [] } : Picture δ) = { v with
      entries := v.entries ++ [.reply c.validator]
      session := (srv.answer v.session ws).1
      owed := [] } := by
    simp [Picture.enqueue, Picture.request, hq.2]
  refine ⟨_, hv ▸ h₂, ?_⟩
  have hrun := redisRunEnd_direct srv.peer hq' c.validator c.closureArgs
  rw [hread] at hrun
  exact (command_sent srv.peer s hfit hc).trans hrun

end

theorem pipeline_direct (h : Shows srv s v) (hm : v.mode = .direct) (hp : v.pipeline = 0) :
    ∃ s', Call.pipeline.run srv.peer s = .ok (.self, s') ∧
      Shows srv s' { v with pipeline := 1, entries := [] } ∧ s'.ctx.sock = s.ctx.sock := by
  have hs := h.sockGet
  have hguard : (redisSockGet s).mode = .direct ∧ (redisSockGet s).pipeline = 0 :=
    ⟨hs.mode.trans hm, hs.pipeline.trans hp⟩
  let s' : RedisSock (Desk δ) :=
    { redisSockGet s with pipeline := 1, queue_head := none, queue_tail := none }
  refine ⟨s', if_pos hguard, ⟨hs.mode, rfl, hs.multi, ?_, hs.talking, hs.unread⟩, rfl⟩
  exact hs.holds.resetMain rfl rfl rfl rfl rfl

theorem multi_pipelined (h : Shows srv s v) (hm : v.mode = .direct) (hp : v.pipeline ≠ 0) :
    ∃ s', Call.multi.run srv.peer s = .ok (.self, s') ∧
      Shows srv s' { v.request srv multiRequest with
        mode := .transaction
        multi := 1
        entries := v.entries ++ [.reply .skip]
        waiting := [] } ∧
      s'.ctx.sock = s.ctx.sock := by
  have hs := h.sockGet.sockGet.request multiRequest
  let s₁ : RedisSock (Desk δ) := { redisSockGet (redisSockGet s) with
    ctx := redisAppend (redisSockGet (redisSockGet s)).ctx (encodeRequest multiRequest)
    multi := 1 }
  have h₁ : Shows srv s₁ { v.request srv multiRequest with multi := 1 } :=
    ⟨hs.mode, hs.pipeline, rfl, hs.holds.congr rfl rfl rfl rfl rfl, hs.talking, hs.unread⟩
  have h₂ := h₁.enqueue .status
  have hpipe : s.pipeline ≠ 0 := fun h0 => hp (h.pipeline.symm.trans h0)
  refine ⟨opened s, multi_pipelined_run srv.peer (h.mode.trans hm) hpipe,
    ⟨rfl, h₂.pipeline, h₂.multi,
    h₂.holds.resetSide rfl rfl rfl rfl rfl, h₂.talking, h₂.unread⟩, ?_⟩
  change (redisEnqueue s₁ .status none).ctx.sock = s.ctx.sock
  rw [redisEnqueue_ctx]
  rfl

theorem multi_direct (h : Shows srv s v) (hm : v.mode = .direct) (hp : v.pipeline = 0)
    (howed : v.owed = []) (hq : v.session.queued = none) :
    ∃ s', Call.multi.run srv.peer s = .ok (.self, s') ∧
      Shows srv s' { v with
        mode := .transaction
        multi := 1
        waiting := []
        session := ⟨v.session.db, some []⟩
        owed := [] } := by
  have hs := h.sockGet.sockGet.request multiRequest
  let s₁ : RedisSock (Desk δ) := { redisSockGet (redisSockGet s) with
    ctx := redisAppend (redisSockGet (redisSockGet s)).ctx (encodeRequest multiRequest)
    multi := 1 }
  have hanswer : srv.answer v.session multiRequest =
      (⟨v.session.db, some []⟩, .status (ascii "OK")) := by
    rw [Server.answer, hq]
    exact if_pos rfl
  have htalk := hs.talking
  simp only [Picture.request, howed, List.nil_append, hanswer] at htalk
  obtain ⟨c', hread, ht⟩ := htalk.readNew 1
  have hv : (Reply.status (ascii "OK")).value = .true := by
    rw [Reply.value]
    exact if_neg (by decide)
  rw [hv] at hread
  let s' : RedisSock (Desk δ) := { s₁ with
    ctx := freeZval c' 1, mode := .transaction, multi_head := none, multi_tail := none }
  have ht' : Talking srv s'.ctx ⟨v.session.db, some []⟩ [] := ht.withMem _
  refine ⟨s', ?_, ⟨rfl, hs.pipeline, rfl, hs.holds.resetSide rfl rfl rfl rfl rfl, ht',
    ht'.drained.1⟩⟩
  have hmode : (redisSockGet s).mode = .direct := h.mode.trans hm
  have hpipe : (redisSockGet s).pipeline = 0 := h.pipeline.trans hp
  simp only [Call.run, PhpHiredis.multi, hmode, if_true, appendMulti, Outcome.ok_bind]
  refine (if_pos hpipe).trans ?_
  rw [show readInto srv.peer (makeZval s₁.ctx 1) 1 = .ok (.true, c') from hread]
  rfl

theorem exec_pipelined (h : Shows srv s v) (hp : v.pipeline ≠ 0) (hes : v.entries ≠ []) :
    ∃ s', Call.exec.run srv.peer s = .ok (.self, s') ∧
      Shows srv s' { v.request srv execRequest with
        mode := .direct
        multi := 0
        entries := v.entries ++ [.block v.waiting] } ∧
      s'.ctx.sock = s.ctx.sock := by
  have hs := h.sockGet.request execRequest
  obtain ⟨t, ht⟩ := h.holds.tail_of_ne_nil hes
  have hpipe : s.pipeline ≠ 0 := fun h0 => hp (h.pipeline.symm.trans h0)
  have hctx : (joined s).ctx = redisAppend (redisSockGet s).ctx (encodeRequest execRequest) := by
    simp only [joined, enqueueMain]
  refine ⟨joined s, exec_pipelined_run srv.peer hpipe ht, ⟨rfl, ?_, rfl,
    hs.holds.join.congr rfl rfl rfl rfl rfl, ?_, ?_⟩, ?_⟩
  · simp only [joined, enqueueMain]
    exact h.pipeline
  · rw [hctx]
    exact hs.talking
  · rw [hctx]
    exact hs.unread
  · rw [hctx]
    rfl

/-- Outside it reads one confirmation for every node of the main queue, and then
the reply to `EXEC`. -/
theorem exec_direct (h : Shows srv s v) (hp : v.pipeline = 0)
    (hlen : v.owed.length = v.entries.length) :
    ∃ s', Shows srv s' { v with
        mode := .direct
        multi := 0
        waiting := []
        session := (srv.answer v.session execRequest).1
        owed := [] } ∧
      Call.exec.run srv.peer s =
        (srv.answer v.session execRequest).2.value.arrval >>= fun es =>
          validated v.waiting (es.map Prod.snd) >>= fun vals =>
            .ok (.value (.array (listTable vals)), s') := by
  have hs := h.sockGet.request execRequest
  obtain ⟨c', ht, hrun⟩ := exec_reads (Talking.source srv _) (h.pipeline.trans hp) h.holds
    hs.talking hlen
  refine ⟨_, ?_, hrun⟩
  exact ⟨rfl, h.pipeline, rfl, h.holds.resetSide rfl rfl rfl rfl rfl, ht, ht.drained.1⟩

/-- When the main queue is longer than what the server owes, it waits for ever. -/
theorem exec_blocked (h : Shows srv s v) (hp : v.pipeline = 0)
    (hlen : v.owed.length < v.entries.length) : Call.exec.run srv.peer s = .blocked := by
  let s₁ : RedisSock (Desk δ) := { redisSockGet s with
    ctx := redisAppend (redisSockGet s).ctx (encodeRequest execRequest) }
  have hs : Shows srv s₁ (v.request srv execRequest) := h.sockGet.request execRequest
  obtain ⟨mq, sq, hq⟩ := hs.holds
  have hmq : mq.length = v.entries.length := hq.entries.length_eq
  have howed : (v.request srv execRequest).owed.length = v.owed.length + 1 := by
    simp [Picture.request]
  rw [exec_unpipelined srv.peer (h.pipeline.trans hp) (show s₁ = _ from rfl)]
  rcases Nat.lt_or_ge (v.owed.length + 1) mq.length with hlt | hge
  · rw [hs.talking.skipLoop_blocked hq.main.chain (by rw [howed]; exact hlt)]
    rfl
  · -- the reply to `EXEC` is taken for the last confirmation
    have htalk := hs.talking
    rw [← List.append_nil (v.request srv execRequest).owed] at htalk
    obtain ⟨c₁, hskip, h₁⟩ := (Talking.source srv _).skipLoop hq.main.chain
      (hq.main.chain.length_le hq.main.bound) htalk (by rw [howed]; omega)
    simp only [hskip, Outcome.ok_bind]
    rw [makeZval, (h₁.withMem _).blocked]
    rfl

theorem send_pipelined (h : Shows srv s v) (hm : v.mode = .direct) (hp : v.pipeline ≠ 0)
    (hcov : List.Forall₂ Entry.Covers v.entries v.owed) :
    ∃ s', Shows srv s' { v with pipeline := 0, entries := [], owed := [] } ∧
      Call.send.run srv.peer s = replay v.entries (v.owed.map Reply.value) >>= fun vals =>
        .ok (.value (.array (listTable vals)), s') := by
  have htalk := h.sockGet.talking
  rw [← List.append_nil v.owed] at htalk
  have hpipe : s.pipeline ≠ 0 := fun h0 => hp (h.pipeline.symm.trans h0)
  obtain ⟨c', ht, hrun⟩ := send_reads (Talking.source srv _) (h.mode.trans hm) hpipe h.holds htalk
    hcov
  refine ⟨_, ?_, hrun⟩
  exact ⟨h.mode, rfl, h.multi, h.holds.resetMain rfl rfl rfl rfl rfl, ht, ht.drained.1⟩

end Shows

end PhpHiredis
