import PhpHiredis.Arrival
import PhpHiredis.Calls
import PhpHiredis.Library.Reached

/-!
# Mode and transaction flag

An open transaction is recorded twice: in `mode`, which the guards of `pipeline`,
`send` and `multi` look at, and in `multi`, which decides how a command is
queued. Outside a pipeline `multi` sets the flag before it reads the reply of
the server, and the mode after it. So the two agree in a run exactly as long as
the server confirms what it is asked; and `exec` looks at neither of them.
-/
namespace PhpHiredis

open Library Reader

variable {σ : Type}

/-- The object after a `connect` that succeeds, whatever came before. -/
def Connects (s : RedisSock σ) : Prop := ∃ fd sock, s = .connected (redisConnect fd sock)

/-- The call returns. -/
def Leads (peer : Peer σ) (s : RedisSock σ) (call : Call) (s' : RedisSock σ) : Prop :=
  ∃ ret, call.run peer s = .ok (ret, s')

/-- The context in which `multi` reads the reply to its request. -/
def multiContext (s : RedisSock σ) : ExtContext σ :=
  makeZval (redisAppend (redisSockGet s).ctx (encodeRequest multiRequest)) 1

section
variable {peer : Peer σ} {s s' : RedisSock σ} {ret : Returned}

/-- Neither the flags nor the mode change. -/
def SameModes (s s' : RedisSock σ) : Prop :=
  s'.mode = s.mode ∧ s'.multi = s.multi ∧ s'.pipeline = s.pipeline

theorem redisRunEnd_modes {fn : Validator} {closureArgs : Option (List Zval)}
    (h : redisRunEnd peer s fn closureArgs = .ok (ret, s')) : SameModes s s' := by
  by_cases hq : s.pipeline = 0 ∧ s.multi = 0
  · rw [redisRunEnd_direct peer hq] at h
    obtain ⟨⟨z, ctx⟩, -, h₁⟩ := Outcome.bind_eq_ok.mp h
    obtain ⟨t, -, h₂⟩ := Outcome.bind_eq_ok.mp h₁
    cases h₂
    exact ⟨redisEnqueue_mode .., redisEnqueue_multi .., redisEnqueue_pipeline ..⟩
  · rw [redisRunEnd_queued peer hq] at h
    cases h
    exact ⟨redisEnqueue_mode .., redisEnqueue_multi .., redisEnqueue_pipeline ..⟩

theorem Command.run_modes {c : Command} (h : c.run peer s = .ok (ret, s')) : SameModes s s' := by
  rw [Command.run_eq peer s (Command.fits_of_returns ⟨_, h⟩), Command.spec] at h
  cases hc : c.sent with
  | none =>
      rw [hc] at h
      cases h
      exact ⟨rfl, rfl, rfl⟩
  | some ws =>
      rw [hc] at h
      let s₁ : RedisSock σ := { redisSockGet s with
        ctx := redisAppend (redisSockGet s).ctx (encodeRequest ws) }
      have hmodes : SameModes s₁ s' := redisRunEnd_modes h
      exact hmodes

theorem pipeline_rejected (h : ¬(s.mode = .direct ∧ s.pipeline = 0)) :
    Call.pipeline.run peer s = .ok (.value .false, redisSockGet s) := if_neg h

theorem send_rejected (h : s.pipeline = 0 ∨ s.mode ≠ .direct) :
    Call.send.run peer s = .ok (.value .false, redisSockGet s) := if_pos h

theorem multi_rejected (h : s.mode ≠ .direct) :
    Call.multi.run peer s = .ok (.value .false, redisSockGet s) := if_neg h

theorem pipeline_modes (h : Call.pipeline.run peer s = .ok (ret, s')) :
    s'.mode = s.mode ∧ s'.multi = s.multi := by
  obtain ⟨-, -, rfl⟩ | ⟨-, -, rfl⟩ := pipeline_cases h
  · exact ⟨rfl, rfl⟩
  · exact ⟨rfl, rfl⟩

theorem send_modes (h : Call.send.run peer s = .ok (ret, s')) :
    s'.mode = s.mode ∧ s'.multi = s.multi := by
  obtain ⟨-, tab, ctx, -, -, rfl⟩ | ⟨-, -, rfl⟩ := send_cases h
  · exact ⟨rfl, rfl⟩
  · exact ⟨rfl, rfl⟩

/-- What `multi` makes of the reply to its request. -/
def multiEnd (s : RedisSock σ) (z_reply : Zval) (ctx : ExtContext σ) :
    Run (Returned × RedisSock σ) :=
  let s := { redisSockGet s with ctx := freeZval ctx 1, multi := 1 }
  match z_reply with
  | .undef => .fault .uninitialised
  | .bool true =>
      .ok (.self,
        { s with mode := .transaction, multi_head := none, multi_tail := none })
  | _ => .ok (.value .false, s)

/-- A transaction is open, or `multi` has returned `FALSE`; the flag is set in both cases. -/
def MultiEnds (s s' : RedisSock σ) (z_reply : Zval) (ret : Returned) : Prop :=
  s'.multi = 1 ∧ s'.pipeline = s.pipeline ∧
    ((z_reply = .true ∧ ret = .self ∧ s'.mode = .transaction) ∨
      (z_reply ≠ .true ∧ ret = .value .false ∧ s'.mode = s.mode))

theorem multiEnd_of_ne_undef {z_reply : Zval} (hz : z_reply ≠ .undef) (ctx : ExtContext σ) :
    ∃ ret s', multiEnd s z_reply ctx = .ok (ret, s') ∧ MultiEnds s s' z_reply ret := by
  cases z_reply with
  | undef => exact absurd rfl hz
  | bool b =>
      cases b with
      | true => exact ⟨_, _, rfl, rfl, rfl, Or.inl ⟨rfl, rfl, rfl⟩⟩
      | false => exact ⟨_, _, rfl, rfl, rfl, Or.inr ⟨nofun, rfl, rfl⟩⟩
  | _ => exact ⟨_, _, rfl, rfl, rfl, Or.inr ⟨nofun, rfl, rfl⟩⟩

theorem multi_run (peer : Peer σ) (hm : s.mode = .direct) (hp : s.pipeline = 0) :
    Call.multi.run peer s =
      readInto peer (multiContext s) 1 >>= fun t => multiEnd s t.1 t.2 := by
  have hmode : (redisSockGet s).mode = .direct := hm
  have hpipe : (redisSockGet s).pipeline = 0 := hp
  simp only [Call.run, PhpHiredis.multi, hmode, if_true, appendMulti, Outcome.ok_bind]
  exact if_pos hpipe

theorem multiEnd_cases {z_reply : Zval} {ctx : ExtContext σ}
    (h : multiEnd s z_reply ctx = .ok (ret, s')) :
    (z_reply = .true ∧ ret = .self ∧ s' = { redisSockGet s with
      ctx := freeZval ctx 1, multi := 1, mode := .transaction, multi_head := none,
      multi_tail := none }) ∨
    (z_reply ≠ .true ∧ ret = .value .false ∧ s' = { redisSockGet s with
      ctx := freeZval ctx 1, multi := 1 }) := by
  cases z_reply with
  | undef => cases h
  | bool b =>
      cases b with
      | true =>
          cases h
          exact Or.inl ⟨rfl, rfl, rfl⟩
      | false =>
          cases h
          exact Or.inr ⟨nofun, rfl, rfl⟩
  | _ =>
      cases h
      exact Or.inr ⟨nofun, rfl, rfl⟩

/-- A `multi` that returns has read the reply to its request, or queued its validator in
a pipeline, or found its guard closed. -/
theorem multi_cases (h : Call.multi.run peer s = .ok (ret, s')) :
    (s.mode = .direct ∧ s.pipeline = 0 ∧ ∃ z_reply ctx,
      readInto peer (multiContext s) 1 = .ok (z_reply, ctx) ∧
      multiEnd s z_reply ctx = .ok (ret, s')) ∨
    (s.mode = .direct ∧ s.pipeline ≠ 0 ∧ ret = .self ∧ s' = opened s) ∨
    (s.mode ≠ .direct ∧ ret = .value .false ∧ s' = redisSockGet s) := by
  by_cases hm : s.mode = .direct
  · by_cases hp : s.pipeline = 0
    · rw [multi_run peer hm hp] at h
      obtain ⟨⟨z_reply, ctx⟩, hread, hend⟩ := Outcome.bind_eq_ok.mp h
      exact Or.inl ⟨hm, hp, z_reply, ctx, hread, hend⟩
    · cases (multi_pipelined_run peer hm hp).symm.trans h
      exact Or.inr (Or.inl ⟨hm, hp, rfl, rfl⟩)
  · cases (multi_rejected hm).symm.trans h
    exact Or.inr (Or.inr ⟨hm, rfl, rfl⟩)

/-- In direct mode, outside a pipeline, `multi` decides by the value of the reply. -/
theorem multi_unpipelined (hm : s.mode = .direct) (hp : s.pipeline = 0)
    (h : Call.multi.run peer s = .ok (ret, s')) :
    ∃ z ctx, readInto peer (multiContext s) 1 = .ok (z, ctx) ∧ MultiEnds s s' z ret := by
  rw [multi_run peer hm hp] at h
  obtain ⟨⟨z, ctx⟩, hread, hend⟩ := Outcome.bind_eq_ok.mp h
  have hz : z ≠ .undef := by
    rintro rfl
    cases hend
  obtain ⟨ret', s₁, hend', hs₁⟩ := multiEnd_of_ne_undef hz ctx
  cases hend'.symm.trans hend
  exact ⟨z, ctx, hread, hs₁⟩

theorem multi_pipelined_modes (hm : s.mode = .direct) (hp : s.pipeline ≠ 0)
    (h : Call.multi.run peer s = .ok (ret, s')) :
    ret = .self ∧ s'.mode = .transaction ∧ s'.multi = 1 := by
  cases (multi_pipelined_run peer hm hp).symm.trans h
  exact ⟨rfl, rfl, redisEnqueue_multi ..⟩

/-- `exec` closes the transaction, and never returns `FALSE`. -/
theorem exec_modes (h : Call.exec.run peer s = .ok (ret, s')) :
    s'.mode = .direct ∧ s'.multi = 0 ∧ ret ≠ .value .false := by
  obtain ⟨-, ctx₁, z, ctx₂, es, tab, -, -, -, -, rfl, rfl⟩ | ⟨-, -, rfl, rfl⟩ := exec_cases h
  · exact ⟨rfl, rfl, by simp⟩
  · exact ⟨rfl, rfl, by simp⟩

/-- What a call that returns has done to the mode and the flag. Only a `multi`
that is not confirmed sets one without the other. -/
theorem Call.modes_cases {call : Call} (h : call.run peer s = .ok (ret, s')) :
    (s'.mode = s.mode ∧ s'.multi = s.multi) ∨ (s'.mode = .transaction ∧ s'.multi = 1) ∨
      (s'.mode = .direct ∧ s'.multi = 0) ∨
      (call = .multi ∧ s.mode = .direct ∧ s.pipeline = 0 ∧ ret = .value .false) := by
  cases call with
  | command c =>
      obtain ⟨hmode, hmulti, -⟩ := Command.run_modes h
      exact Or.inl ⟨hmode, hmulti⟩
  | pipeline => exact Or.inl (pipeline_modes h)
  | send => exact Or.inl (send_modes h)
  | exec =>
      obtain ⟨hmode, hmulti, -⟩ := exec_modes h
      exact Or.inr (Or.inr (Or.inl ⟨hmode, hmulti⟩))
  | multi =>
      by_cases hm : s.mode = .direct
      · by_cases hp : s.pipeline = 0
        · obtain ⟨z, ctx, -, hmulti, -, ⟨-, -, hmode⟩ | ⟨-, hret, -⟩⟩ := multi_unpipelined hm hp h
          · exact Or.inr (Or.inl ⟨hmode, hmulti⟩)
          · exact Or.inr (Or.inr (Or.inr ⟨rfl, hm, hp, hret⟩))
        · exact Or.inr (Or.inl (multi_pipelined_modes hm hp h).2)
      · cases (multi_rejected hm).symm.trans h
        exact Or.inl ⟨rfl, rfl⟩

end

/-- Mode and flag tell the same. -/
def ModesInStep (s : RedisSock σ) : Prop :=
  (s.mode = .transaction ∧ s.multi = 1) ∨ (s.mode = .direct ∧ s.multi = 0)

theorem ModesInStep.iff {s : RedisSock σ} (h : ModesInStep s) :
    s.mode = .transaction ↔ s.multi = 1 := by
  rcases h with ⟨hmode, hmulti⟩ | ⟨hmode, hmulti⟩ <;> simp [hmode, hmulti]

/-- The request `MULTI` is written to the end, and answered with a status other
than PONG before anything fails. -/
def Confirmed (peer : Peer σ) (s : RedisSock σ) : Prop :=
  ∃ text S tail, findCRLF text = none ∧ text ≠ ascii "PONG" ∧
    Arrives peer (redisAppend s.ctx (encodeRequest multiRequest))
      ((Reply.status text).encode ++ S) tail

/-- Outside a pipeline, and outside a transaction, `multi` is called only where
it will be confirmed. -/
def Confirms (peer : Peer σ) (s : RedisSock σ) (call : Call) : Prop :=
  call = .multi → s.mode = .direct → s.pipeline = 0 → Confirmed peer s

/-- The object apart from its reader. -/
structure Untouched (s s' : RedisSock σ) : Prop where
  mode : s'.mode = s.mode
  pipeline : s'.pipeline = s.pipeline
  multi : s'.multi = s.multi
  queue_head : s'.queue_head = s.queue_head
  queue_tail : s'.queue_tail = s.queue_tail
  multi_head : s'.multi_head = s.multi_head
  multi_tail : s'.multi_tail = s.multi_tail
  heap : s'.heap = s.heap
  obuf : s'.ctx.obuf = s.ctx.obuf
  sock : s'.ctx.sock = s.ctx.sock

theorem untouched_redisSockGet (s : RedisSock σ) : Untouched s (redisSockGet s) :=
  ⟨rfl, rfl, rfl, rfl, rfl, rfl, rfl, rfl, rfl, rfl⟩

/-- The next command reads one reply, and returns its own validator's value for it. -/
def AnswersAtOnce (peer : Peer σ) (s : RedisSock σ) : Prop :=
  ∀ (c : Command) (ws : Request), c.Fits → c.sent = some ws →
    c.run peer s = do
      let s := redisSockGet s
      let s := { s with ctx := redisAppend s.ctx (encodeRequest ws) }
      let (z, ctx) ← readInto peer s.ctx returnValue
      let (_, z) ← c.validator.apply z c.closureArgs
      return (.value z, { redisEnqueue s c.validator none with ctx := ctx })

section
variable {peer : Peer σ} {s s' : RedisSock σ} {ret : Returned}

theorem answersAtOnce (hp : s.pipeline = 0) (hm : s.multi = 0) : AnswersAtOnce peer s := by
  intro c ws hfit hc
  let s₁ : RedisSock σ := { redisSockGet s with
    ctx := redisAppend (redisSockGet s).ctx (encodeRequest ws) }
  have hq : s₁.pipeline = 0 ∧ s₁.multi = 0 := ⟨hp, hm⟩
  rw [Command.run_eq peer s hfit, Command.spec, hc]
  exact redisRunEnd_direct peer hq c.validator c.closureArgs

theorem multi_answered (hm : s.mode = .direct) (hp : s.pipeline = 0) {e : Reply} {S : Bytes}
    {tail : List ReadResult} (he : e.Sound 2)
    (h : Arrives peer (redisAppend s.ctx (encodeRequest multiRequest)) (e.encode ++ S) tail) :
    ∃ ret s', Call.multi.run peer s = .ok (ret, s') ∧ MultiEnds s s' e.value ret := by
  obtain ⟨ctx, hread⟩ := (h.withReader (multiContext s).reader).readInto he rfl
    (Function.update_self ..)
  have hread' : readInto peer (multiContext s) 1 = .ok (e.value, ctx) := hread
  rw [multi_run peer hm hp, hread', Outcome.ok_bind]
  exact multiEnd_of_ne_undef e.value_ne_undef ctx

theorem multi_confirmed (hm : s.mode = .direct) (hp : s.pipeline = 0) (hc : Confirmed peer s)
    (h : Call.multi.run peer s = .ok (ret, s')) : ret = .self := by
  obtain ⟨text, S, tail, htext, hpong, harrives⟩ := hc
  have hstatus : (Reply.status text).value = .true := by rw [Reply.value, if_neg hpong]
  obtain ⟨ret', s₁, hrun, -, -, ⟨-, hret, -⟩ | ⟨hz, -, -⟩⟩ :=
    multi_answered hm hp (show (Reply.status text).Sound 2 from htext) harrives
  · cases hrun.symm.trans h
    exact hret
  · exact absurd hstatus hz

theorem Leads.inStep {call : Call} (h : Leads peer s call s') (hc : Confirms peer s call)
    (hs : ModesInStep s) : ModesInStep s' := by
  obtain ⟨ret, hrun⟩ := h
  rcases Call.modes_cases hrun with ⟨hmode, hmulti⟩ | hopen | hclosed | ⟨rfl, hm, hp, hret⟩
  · rcases hs with ⟨h₁, h₂⟩ | ⟨h₁, h₂⟩
    · exact Or.inl ⟨hmode.trans h₁, hmulti.trans h₂⟩
    · exact Or.inr ⟨hmode.trans h₁, hmulti.trans h₂⟩
  · exact Or.inl hopen
  · exact Or.inr hclosed
  · rw [multi_confirmed hm hp (hc rfl hm hp) hrun] at hret
    cases hret

theorem Reached.inStep (h : Reached Connects (Leads peer) (Confirms peer) s) : ModesInStep s := by
  refine h.invariant ?_ fun s call s' hs hc hlead => hlead.inStep hc hs
  rintro s ⟨fd, sock, rfl⟩
  exact Or.inr ⟨rfl, rfl⟩

/-- In every run in which every `MULTI` outside a pipeline is confirmed, mode and
flag agree after each call, a `multi` that returns `FALSE` leaves the object as it
was, and in direct mode a command outside a pipeline reads its own reply. -/
theorem modes_agree (h : Reached Connects (Leads peer) (Confirms peer) s) :
    (s.mode = .transaction ↔ s.multi = 1) ∧
      (∀ s', Confirms peer s .multi → Call.multi.run peer s = .ok (.value .false, s') →
        Untouched s s') ∧
      (s.mode = .direct → s.pipeline = 0 → AnswersAtOnce peer s) := by
  have hs := Reached.inStep h
  refine ⟨hs.iff, fun s' hc hrun => ?_, fun hm hp => answersAtOnce hp ?_⟩
  · by_cases hm : s.mode = .direct
    · by_cases hp : s.pipeline = 0
      · cases multi_confirmed hm hp (hc rfl hm hp) hrun
      · cases (multi_pipelined_modes hm hp hrun).1
    · cases (multi_rejected hm).symm.trans hrun
      exact untouched_redisSockGet s
  · rcases hs with ⟨h₁, -⟩ | ⟨-, h₂⟩
    · rw [hm] at h₁
      cases h₁
    · exact h₂

end

def replying (e : Reply) : Peer Unit := answering [.data ⟨e.encode, e.encode_ne_nil⟩]

theorem arrives_replying (e : Reply) :
    Arrives (replying e) (redisAppend newConnection.ctx (encodeRequest multiRequest))
      (e.encode ++ []) [] :=
  arrives_answering (quiet_data _) [] (encodeRequest_ne_nil _)

/-- After the first `multi` of a connection. -/
theorem modes_agree_first :
    ∃ s, Call.multi.run (replying (.status (ascii "OK"))) newConnection = .ok (.self, s) ∧
      s.mode = .transaction ∧ (s.mode = .transaction ↔ s.multi = 1) := by
  have harrives := arrives_replying (.status (ascii "OK"))
  have hconfirmed : Confirmed (replying (.status (ascii "OK"))) newConnection :=
    ⟨ascii "OK", [], [], by decide, by decide, harrives⟩
  obtain ⟨ret, s, hrun, -, -, ⟨-, rfl, hmode⟩ | ⟨hz, -⟩⟩ :=
    @multi_answered _ _ newConnection rfl rfl (.status (ascii "OK")) _ _
      (by decide : findCRLF (ascii "OK") = none) harrives
  · have hreached : Reached Connects (Leads (replying (.status (ascii "OK"))))
        (Confirms (replying (.status (ascii "OK")))) s :=
      .step (.init ⟨3, ⟨(), [], []⟩, rfl⟩) (fun _ _ _ => hconfirmed) ⟨_, hrun⟩
    exact ⟨s, hrun, hmode, (modes_agree hreached).1⟩
  · exact absurd (by rw [Reply.value, if_neg (by decide)]) hz

/-- An error in place of the confirmation sets the flag alone, and the next command
is queued. -/
theorem not_modes_agree_refused :
    ∃ s, Call.multi.run (replying (.error (ascii "ERR"))) newConnection = .ok (.value .false, s) ∧
      s.mode = .direct ∧ s.multi = 1 ∧ ¬(s.mode = .transaction ↔ s.multi = 1) ∧
      ∃ s', Call.run (replying (.error (ascii "ERR"))) s (.command .ping) = .ok (.self, s') := by
  obtain ⟨ret, s, hrun, hmulti, hpipe, ⟨hz, -⟩ | ⟨-, rfl, hmode⟩⟩ :=
    @multi_answered _ _ newConnection rfl rfl (.error (ascii "ERR")) _ _
      (by decide : findCRLF (ascii "ERR") = none) (arrives_replying (.error (ascii "ERR")))
  · rw [Reply.value] at hz
    cases hz
  · let s₁ : RedisSock Unit := { redisSockGet s with
      ctx := redisAppend (redisSockGet s).ctx (encodeRequest (tokens [ascii "PING"])) }
    have hq : ¬(s₁.pipeline = 0 ∧ s₁.multi = 0) := fun h0 => by
      have hs₁ : s₁.multi = 1 := hmulti
      rw [hs₁] at h0
      cases h0.2
    have hping : Command.ping.run (replying (.error (ascii "ERR"))) s =
        .ok (.self, redisEnqueue s₁ .string none) := by
      rw [Command.run_eq _ s (show Command.ping.Fits from trivial)]
      exact redisRunEnd_queued _ hq .string none
    refine ⟨s, hrun, hmode, hmulti, ?_, _, hping⟩
    rw [hmode, hmulti]
    simp [newConnection, RedisSock.connected]

def Call.Admitted (s : RedisSock σ) : Call → Prop
  | command _ => True
  | pipeline => s.mode = .direct ∧ s.pipeline = 0
  | send => s.mode = .direct ∧ s.pipeline ≠ 0
  | multi => s.mode = .direct
  | exec => s.mode = .transaction

/-- The call returns `FALSE` and does nothing else. -/
def Rejected (peer : Peer σ) (s : RedisSock σ) (call : Call) : Prop :=
  ∃ s', call.run peer s = .ok (.value .false, s') ∧ Untouched s s'

/-- In every state, reached or not, a call that the state does not admit is rejected
without effect, unless it is `exec`, which never is. -/
theorem rejected_iff {peer : Peer σ} {s : RedisSock σ} {call : Call} (hcall : ¬call.Admitted s) :
    Rejected peer s call ↔ call ≠ .exec := by
  have huntouched := untouched_redisSockGet s
  cases call with
  | command c => exact absurd trivial hcall
  | pipeline => exact iff_of_true ⟨_, pipeline_rejected hcall, huntouched⟩ nofun
  | send =>
      have hguard : s.pipeline = 0 ∨ s.mode ≠ .direct := by
        by_cases hp : s.pipeline = 0
        · exact Or.inl hp
        · exact Or.inr fun hm => hcall ⟨hm, hp⟩
      exact iff_of_true ⟨_, send_rejected hguard, huntouched⟩ nofun
  | multi => exact iff_of_true ⟨_, multi_rejected hcall, huntouched⟩ nofun
  | exec =>
      refine iff_of_false ?_ fun h => h rfl
      rintro ⟨s', hrun, -⟩
      exact (exec_modes hrun).2.2 rfl

/-- `send` without a pipeline. -/
theorem rejected_iff_send : Rejected silent newConnection .send := by
  have hcall : ¬Call.send.Admitted newConnection := fun h => h.2 rfl
  exact (rejected_iff hcall).mpr nofun

/-- `exec` without a transaction, in an empty pipeline. -/
theorem not_rejected_exec :
    ∃ s, Call.pipeline.run silent newConnection = .ok (.self, s) ∧ ¬Call.exec.Admitted s ∧
      Call.exec.run silent s = .fault .nullPointer ∧ ¬Rejected silent s .exec := by
  let s : RedisSock Unit := { redisSockGet newConnection with
    pipeline := 1, queue_head := none, queue_tail := none }
  have hexec : Call.exec.run silent s = .fault .nullPointer := by
    simp only [Call.run, PhpHiredis.exec, appendExec, Outcome.ok_bind]
    rfl
  have hmode : ¬Call.exec.Admitted s := by
    intro h
    cases h
  refine ⟨s, rfl, hmode, hexec, ?_⟩
  rintro ⟨s', hrun, -⟩
  rw [hexec] at hrun
  cases hrun

end PhpHiredis
