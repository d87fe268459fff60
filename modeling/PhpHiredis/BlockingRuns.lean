import PhpHiredis.Blocking

/-!
# Runs of a program

What a program with a blocking connection gets. The replies so far and those still to come
make up the answers to its requests, whatever has been sent, received or read of them; a
call for a reply takes the next one, and a call for a reply that no request asked for never
returns.
-/
namespace PhpHiredis.Blocking

open Library Library.Incremental Library.Trees Objects
open Reader (Status)

variable {σ δ : Type}

/-- The object of the next reply, and what becomes of it. -/
structure Got (es : List Reply) (calls : List (Option Unit × Option ℕ)) (future : Bytes) (obj : ℕ)
    (r : ObjectReader) : Prop where
  next : calls.length < es.length
  kept : ∃ m, Receives es m r (calls ++ [(some (), some obj)]) future
  freed : ∃ m mem, freeReplyObject obj r.mem = .ok mem ∧
    Receives es m { r with mem := mem } (calls ++ [(none, some obj)]) future

section
variable {es : List Reply} {calls : List (Option Unit × Option ℕ)}

theorem redisGetReplyFromReader_spec (hes : ∀ e ∈ es, e.Sound 2) {c : RedisContext σ ObjectReader}
    {m : Progress} {future : Bytes} (h : Receives es m c.reader calls future) :
    (∃ m' r', redisGetReplyFromReader c = .ok (.ok, none, { c with reader := r' }) ∧
      Receives es m' r' calls future ∧ Settled m') ∨
    ∃ obj r', redisGetReplyFromReader c = .ok (.ok, some obj, { c with reader := r' }) ∧
      Got es calls future obj r' := by
  simp only [redisGetReplyFromReader, ReplyReader.getReply]
  rcases h.getReply hes with ⟨m', r', hrun, h', hsettled⟩ |
    ⟨hlt, m', obj, r', hrun, -, -, hkept, mem, hfree, hfreed⟩
  · left
    rw [hrun]
    exact ⟨m', r', rfl, h', hsettled⟩
  · right
    rw [hrun]
    exact ⟨obj, r', rfl, hlt, ⟨m', hkept ()⟩, ⟨_, mem, hfree, hfreed⟩⟩

/-- Reads go on until the next reply is there, by induction on what is in the socket. If all
replies have been read, the last read blocks. -/
theorem readReply_spec (hes : ∀ e ∈ es, e.Sound 2) {rs : List ReadResult} (hq : Quiet rs) {n : ℕ}
    (hn : rs.length < n) {c : RedisContext σ ObjectReader} (hrs : c.sock.inbox = rs) {m : Progress}
    (h : Receives es m c.reader calls (received rs)) (hsettled : Settled m) :
    (calls.length = es.length ∧ readReply n c = .blocked) ∨
    ∃ obj r' rs', readReply n c =
        .ok (.ok, some obj, { c with reader := r', sock := { c.sock with inbox := rs' } }) ∧
      Quiet rs' ∧ Got es calls (received rs') obj r' := by
  induction rs generalizing n c m with
  | nil =>
      refine .inl ⟨h.all hes hsettled, ?_⟩
      cases n with
      | zero => rfl
      | succ n =>
          rw [readReply, redisBufferRead, hrs]
          rfl
  | cons r rs ih =>
      obtain ⟨n, rfl⟩ : ∃ k, n = k + 1 := ⟨n - 1, by rw [List.length_cons] at hn; omega⟩
      have hn' : rs.length < n := by
        rw [List.length_cons] at hn
        omega
      -- the loop after the read, whatever the read has brought
      have hnext : ∀ {r₁ : ObjectReader} {m₁ : Progress},
          redisBufferRead c =
            .ok (.ok, { c with reader := r₁, sock := { c.sock with inbox := rs } }) →
          Receives es m₁ r₁ calls (received rs) →
          (calls.length = es.length ∧ readReply (n + 1) c = .blocked) ∨
          ∃ obj r' rs', readReply (n + 1) c =
              .ok (.ok, some obj, { c with reader := r', sock := { c.sock with inbox := rs' } }) ∧
            Quiet rs' ∧ Got es calls (received rs') obj r' := by
        intro r₁ m₁ hread h₁
        rw [readReply, hread]
        simp only [Outcome.ok_bind]
        rcases redisGetReplyFromReader_spec hes
          (c := { c with reader := r₁, sock := { c.sock with inbox := rs } }) h₁ with
          ⟨m₂, r₂, hrun, h₂, hsettled₂⟩ | ⟨obj, r₂, hrun, hgot⟩
        · rw [hrun]
          exact ih hq.tail hn' rfl h₂ hsettled₂
        · rw [hrun]
          exact .inr ⟨obj, r₂, rs, rfl, hq.tail, hgot⟩
      cases r with
      | eof => exact (hq .eof (by simp)).elim
      | error msg => exact (hq (.error msg) (by simp)).elim
      | again =>
          refine hnext ?_ h
          rw [redisBufferRead, hrs]
          rfl
      | data chunk =>
          refine hnext ?_ h.feed
          rw [redisBufferRead, hrs]
          rfl

end

/-- `es` are the answers to all requests of the program so far, and the server will be in
the session `q`. -/
structure Served (srv : Server δ) (q : Session δ) (es : List Reply) (p : Program (Desk δ)) :
    Prop where
  err : p.ctx.err = none
  flowing : Flowing p.ctx
  settled : p.ctx.settled srv.peer = .at q
  sound : ∀ e ∈ es, e.Sound 2
  receives : ∃ m, Receives es m p.ctx.reader p.calls (p.ctx.inFlight srv.peer)
  answered : ∀ call ∈ p.calls, call.2 ≠ none

theorem served_connected (srv : Server δ) (d : δ) {writes : List WriteResult}
    (hw : WritesFine writes) :
    Served srv ⟨d, none⟩ [] (connected d writes) where
  err := rfl
  flowing := ⟨fun _ hr => (List.not_mem_nil hr).elim, hw⟩
  settled := (srv.steady.nil _).1
  sound := fun _ he => (List.not_mem_nil he).elim
  receives := by
    refine ⟨newProgress, ?_⟩
    have hstream : (connected d writes).ctx.inFlight srv.peer = Reply.encodeAll [] :=
      (srv.steady.nil _).2.trans Reply.encodeAll_nil.symm
    rw [hstream]
    exact receives_new []
  answered := fun _ hcall => (List.not_mem_nil hcall).elim

def Fate.mark : Fate → Option Unit
  | .kept => some ()
  | .freed => none

section
variable {srv : Server δ} {q : Session δ} {es : List Reply} {p : Program (Desk δ)}

theorem Served.append (h : Served srv q es p) (ws : Request) :
    Served srv (srv.answer q ws).1 (es ++ [(srv.answer q ws).2])
      { p with ctx := redisAppend p.ctx (encodeRequest ws) } := by
  obtain ⟨hsettled, hreceived⟩ := srv.steady.append p.ctx.sock.peer p.ctx.obuf (encodeRequest ws)
  have hq : (srv.peer.receive p.ctx.sock.peer p.ctx.obuf).1 = .at q := h.settled
  rw [hq] at hsettled hreceived
  refine ⟨h.err, ⟨h.flowing.quiet, h.flowing.writes⟩, ?_, ?_, ?_, h.answered⟩
  · exact hsettled.trans (srv.desk_request q ws)
  · intro e he
    rcases List.mem_append.mp he with he | he
    · exact h.sound e he
    · rw [List.mem_singleton.mp he]
      exact srv.answer_sound q ws
  · obtain ⟨m, hm⟩ := h.receives
    have hstream : (redisAppend p.ctx (encodeRequest ws)).inFlight srv.peer =
        p.ctx.inFlight srv.peer ++ Reply.encodeAll [(srv.answer q ws).2] := by
      change _ ++ received (srv.peer.receive p.ctx.sock.peer (p.ctx.obuf ++ encodeRequest ws)).2 = _
      rw [RedisContext.inFlight, hreceived, Server.received_peer srv (.at q), srv.consume_request,
        List.append_assoc]
      rfl
    refine ⟨m, ?_⟩
    rw [hstream]
    exact hm.more _

theorem Served.take (h : Served srv q es p) {ctx : RedisContext (Desk δ) ObjectReader} {obj : ℕ}
    (herr : ctx.err = none) (hflowing : Flowing ctx) (hsettled : ctx.settled srv.peer = .at q)
    (hgot : Got es p.calls (ctx.inFlight srv.peer) obj ctx.reader) (fate : Fate) :
    ∃ p', { p with ctx := ctx }.take fate (some obj) = .ok p' ∧ Served srv q es p' ∧
      p'.calls.map Prod.fst = p.calls.map Prod.fst ++ [fate.mark] := by
  have hanswered : ∀ k : Option Unit, ∀ call ∈ p.calls ++ [(k, some obj)], call.2 ≠ none := by
    intro k call hcall
    rcases List.mem_append.mp hcall with hcall | hcall
    · exact h.answered call hcall
    · rw [List.mem_singleton.mp hcall]
      exact Option.some_ne_none obj
  have hmap : ∀ k : Option Unit,
      (p.calls ++ [(k, some obj)]).map Prod.fst = p.calls.map Prod.fst ++ [k] :=
    fun _ => List.map_append
  cases fate with
  | kept =>
      exact ⟨_, rfl, ⟨herr, hflowing, hsettled, h.sound, hgot.kept, hanswered _⟩, hmap _⟩
  | freed =>
      obtain ⟨m, mem, hfree, hm⟩ := hgot.freed
      refine ⟨⟨{ ctx with reader := { ctx.reader with mem := mem } },
        p.calls ++ [(none, some obj)]⟩, ?_,
        ⟨herr, ⟨hflowing.quiet, hflowing.writes⟩, hsettled, h.sound, ⟨m, hm⟩, hanswered _⟩,
        hmap _⟩
      simp only [Program.take, hfree, Outcome.ok_bind]
      rfl

/-- A call for a reply takes the next answer. If there is no request without one it never
returns. -/
theorem redisGetReply_spec (h : Served srv q es p) :
    (p.calls.length = es.length ∧ redisGetReply srv.peer p.ctx = .blocked) ∨
    p.calls.length < es.length ∧ ∃ obj ctx,
      redisGetReply srv.peer p.ctx = .ok (.ok, some obj, ctx) ∧
      ∀ fate, ∃ p', { p with ctx := ctx }.take fate (some obj) = .ok p' ∧ Served srv q es p' ∧
        p'.calls.map Prod.fst = p.calls.map Prod.fst ++ [fate.mark] := by
  obtain ⟨m, hm⟩ := h.receives
  rcases redisGetReplyFromReader_spec h.sound hm with
    ⟨m', r', hrun, h', hrest⟩ | ⟨obj, r', hrun, hgot⟩
  · obtain ⟨h₁, h₂, h₃, h₄, h₅, h₆⟩ := flush_spec srv.steady h.flowing.writes
      (c := { p.ctx with reader := r' }) h.flowing.quiet
    have hflush : flush srv.peer p.ctx.sock.writes { p.ctx with reader := r' } =
        (.ok, (flush srv.peer p.ctx.sock.writes { p.ctx with reader := r' }).2) := Prod.ext h₁ rfl
    generalize (flush srv.peer p.ctx.sock.writes { p.ctx with reader := r' }).2 = c₁ at *
    have hget : redisGetReply srv.peer p.ctx = readReply (c₁.sock.inbox.length + 1) c₁ := by
      rw [redisGetReply, hrun]
      simp only [Outcome.ok_bind, hflush]
    have hinFlight : received c₁.sock.inbox = p.ctx.inFlight srv.peer := h₅
    rw [hget]
    rcases readReply_spec h.sound h₄.quiet (Nat.lt_succ_self _) rfl
      (by rw [h₃, hinFlight]; exact h') hrest with hblocked | ⟨obj, r₂, rs, hread, hquiet, hgot⟩
    · exact .inl hblocked
    · refine .inr ⟨hgot.next, obj, _, hread, h.take (h₆.err.trans h.err) ⟨hquiet, h₄.writes⟩
        (h₆.settled.trans h.settled) ?_⟩
      simp only [RedisContext.inFlight, h₂, (srv.steady.nil _).2, List.append_nil]
      exact hgot
  · refine .inr ⟨hgot.next, obj, { p.ctx with reader := r' }, ?_, h.take h.err
      ⟨h.flowing.quiet, h.flowing.writes⟩ h.settled hgot⟩
    simp only [redisGetReply, hrun, Outcome.ok_bind]
    rfl

theorem Served.le (h : Served srv q es p) : p.calls.length ≤ es.length := by
  obtain ⟨m, hm⟩ := h.receives
  exact hm.le

theorem step_append (h : Served srv q es p) {command : Command} {ws : Request}
    (hws : command.request = some ws) :
    ∃ p', p.step srv.peer (.append command) = .ok p' ∧
      Served srv (srv.answer q ws).1 (es ++ [(srv.answer q ws).2]) p' ∧ p'.calls = p.calls := by
  refine ⟨_, ?_, h.append ws, rfl⟩
  rw [Program.step, Command.append_eq hws]
  rfl

theorem step_getReply (h : Served srv q es p) (fate : Fate) :
    (p.calls.length = es.length ∧ p.step srv.peer (.getReply fate) = .blocked) ∨
    p.calls.length < es.length ∧ ∃ p', p.step srv.peer (.getReply fate) = .ok p' ∧
      Served srv q es p' ∧
      p'.calls.map Prod.fst = p.calls.map Prod.fst ++ [fate.mark] := by
  rcases redisGetReply_spec h with ⟨hlen, hblocked⟩ | ⟨hlt, obj, ctx, hrun, htake⟩
  · refine .inl ⟨hlen, ?_⟩
    rw [Program.step, hblocked]
    rfl
  · obtain ⟨p', htaken, hserved, hcalls⟩ := htake fate
    refine .inr ⟨hlt, p', ?_, hserved, hcalls⟩
    rw [Program.step, hrun]
    exact htaken

theorem step_command (h : Served srv q es p) {command : Command} {ws : Request}
    (hws : command.request = some ws) (fate : Fate) :
    ∃ p', p.step srv.peer (.command command fate) = .ok p' ∧
      Served srv (srv.answer q ws).1 (es ++ [(srv.answer q ws).2]) p' ∧
      p'.calls.map Prod.fst = p.calls.map Prod.fst ++ [fate.mark] := by
  have hle := h.le
  rcases redisGetReply_spec (h.append ws) with ⟨hlen, -⟩ | ⟨-, obj, ctx, hrun, htake⟩
  · rw [List.length_append, List.length_singleton] at hlen
    change p.calls.length = _ at hlen
    omega
  · obtain ⟨p', htaken, hserved, hcalls⟩ := htake fate
    refine ⟨p', ?_, hserved, hcalls⟩
    rw [Program.step, redisCommand, Command.append_eq hws]
    simp only [Outcome.ok_bind, hrun]
    exact htaken

end

def asked : List Step → List Command
  | [] => []
  | .append command :: steps => command :: asked steps
  | .getReply _ :: steps => asked steps
  | .command command _ :: steps => command :: asked steps

/-- What becomes of the replies that some steps ask for. -/
def fates : List Step → List Fate
  | [] => []
  | .append _ :: steps => fates steps
  | .getReply fate :: steps => fate :: fates steps
  | .command _ fate :: steps => fate :: fates steps

/-- With `n` requests whose replies were not asked for, no step asks for more replies than
there are requests. -/
def Balanced : ℕ → List Step → Prop
  | _, [] => True
  | n, .append _ :: steps => Balanced (n + 1) steps
  | n, .getReply _ :: steps => 0 < n ∧ Balanced (n - 1) steps
  | n, .command _ _ :: steps => Balanced n steps

instance decidableBalanced : ∀ (n : ℕ) (steps : List Step), Decidable (Balanced n steps)
  | _, [] => inferInstanceAs (Decidable True)
  | n, .append _ :: steps => decidableBalanced (n + 1) steps
  | n, .getReply _ :: steps =>
      have := decidableBalanced (n - 1) steps
      inferInstanceAs (Decidable (0 < n ∧ Balanced (n - 1) steps))
  | n, .command _ _ :: steps => decidableBalanced n steps

/-- A run of a program, by induction on its steps. -/
theorem Served.run {srv : Server δ} {q : Session δ} {es : List Reply} {p : Program (Desk δ)}
    (h : Served srv q es p) {steps : List Step} {wss : List Request}
    (hwss : (asked steps).map Command.request = wss.map some) :
    (Balanced (es.length - p.calls.length) steps → ∃ p', p.run srv.peer steps = .ok p' ∧
      Served srv (srv.serve q wss).1 (es ++ (srv.serve q wss).2) p' ∧
      p'.calls.map Prod.fst = p.calls.map Prod.fst ++ (fates steps).map Fate.mark) ∧
    (¬Balanced (es.length - p.calls.length) steps → p.run srv.peer steps = .blocked) := by
  have hle := h.le
  have hcount : ∀ {p' : Program (Desk δ)} {mark : Option Unit},
      p'.calls.map Prod.fst = p.calls.map Prod.fst ++ [mark] → p'.calls.length =
        p.calls.length + 1 := by
    intro p' mark hcalls
    have hlen := congrArg List.length hcalls
    simpa using hlen
  induction steps generalizing q es p wss with
  | nil =>
      cases wss with
      | cons ws wss => cases hwss
      | nil =>
          refine ⟨fun _ => ⟨p, rfl, ?_, ?_⟩, fun hnot => absurd trivial hnot⟩
          · rw [Server.serve, List.append_nil]
            exact h
          · simp [fates]
  | cons step steps ih =>
      cases step with
      | append command =>
          cases wss with
          | nil => cases hwss
          | cons ws wss =>
              obtain ⟨hws, hwss⟩ := List.cons.inj hwss
              obtain ⟨p', hstep, h', hcalls⟩ := step_append h hws
              have hn : (es ++ [(srv.answer q ws).2]).length - p'.calls.length =
                  es.length - p.calls.length + 1 := by
                rw [hcalls, List.length_append, List.length_singleton]
                omega
              have hrest := ih h' hwss h'.le (fun hc => by simpa using congrArg List.length hc)
              rw [hn, List.append_assoc, hcalls] at hrest
              rw [Program.run, hstep]
              exact hrest
      | getReply fate =>
          rcases step_getReply h fate with ⟨hlen, hblocked⟩ | ⟨hlt, p', hstep, h', hcalls⟩
          · rw [Program.run, hblocked]
            refine ⟨fun hb => ?_, fun _ => rfl⟩
            have hpos := hb.1
            omega
          · have hrest := ih h' hwss h'.le (fun hc => by simpa using congrArg List.length hc)
            have hn : es.length - p'.calls.length = es.length - p.calls.length - 1 := by
              rw [hcount hcalls]
              omega
            rw [hn, hcalls, List.append_assoc] at hrest
            rw [Program.run, hstep]
            exact ⟨fun hb => hrest.1 hb.2, fun hnot => hrest.2 fun hb => hnot ⟨by omega, hb⟩⟩
      | command command fate =>
          cases wss with
          | nil => cases hwss
          | cons ws wss =>
              obtain ⟨hws, hwss⟩ := List.cons.inj hwss
              obtain ⟨p', hstep, h', hcalls⟩ := step_command h hws fate
              have hn : (es ++ [(srv.answer q ws).2]).length - p'.calls.length =
                  es.length - p.calls.length := by
                rw [hcount hcalls, List.length_append, List.length_singleton]
                omega
              have hrest := ih h' hwss h'.le (fun hc => by simpa using congrArg List.length hc)
              rw [hn, hcalls, List.append_assoc, List.append_assoc] at hrest
              rw [Program.run, hstep]
              exact hrest

theorem length_serve (srv : Server δ) (q : Session δ) (wss : List Request) :
    (srv.serve q wss).2.length = wss.length := by
  induction wss generalizing q with
  | nil => rfl
  | cons ws wss ih => exact congrArg (· + 1) (ih _)

/-- Any steps of a program with a blocking connection: if no step asks for more replies than
there are requests, the program goes on, and the reply with the number `k` that it got is
the answer to the request with the number `k`, whether `redisGetReply` or `redisCommand`
returned it. The objects that it kept have cells of their own, and when it has asked for all
replies no other cell is in use. If a step asks for more, it waits for ever. -/
theorem program_replies (srv : Server δ) (d : δ) {writes : List WriteResult}
    (hw : WritesFine writes)
    {steps : List Step} {wss : List Request}
    (hwss : (asked steps).map Command.request = wss.map some) :
    (Balanced 0 steps → ∃ p F, (connected d writes).run srv.peer steps = .ok p ∧ p.ctx.err = none ∧
      p.calls.map Prod.fst = (fates steps).map Fate.mark ∧ (∀ call ∈ p.calls, call.2 ≠ none) ∧
      Keeps (srv.serve ⟨d, none⟩ wss).2 p.ctx.reader.mem p.calls F ∧
      ((fates steps).length = wss.length → F = ∅)) ∧
    (¬Balanced 0 steps → (connected d writes).run srv.peer steps = .blocked) := by
  obtain ⟨hruns, hblocks⟩ := (served_connected srv d hw).run hwss
  refine ⟨fun hb => ?_, hblocks⟩
  obtain ⟨p, hrun, hserved, hcalls⟩ := hruns hb
  obtain ⟨m, hm⟩ := hserved.receives
  have hlen : p.calls.length = (fates steps).length := by
    have hlen := congrArg List.length hcalls
    simpa [connected] using hlen
  by_cases hall : (fates steps).length = wss.length
  · refine ⟨p, ∅, hrun, hserved.err, hcalls, hserved.answered, hm.keepsOnly ?_, fun _ => rfl⟩
    rw [hlen, hall, List.nil_append, length_serve]
  · obtain ⟨F, hkeeps⟩ := hm.keeps
    exact ⟨p, F, hrun, hserved.err, hcalls, hserved.answered, hkeeps, fun h => absurd h hall⟩

/-- A server that answers 0 and 1 in turn, a byte at a time. -/
def flipping : Server Bool where
  execute d _ := (!d, .integer (if d then 1 else 0))
  exec d _ := (d, .nilArray)
  cut _ bytes := bytes.map fun b => .data ⟨[b], List.cons_ne_nil b []⟩
  execute_sound d _ := by cases d <;> simp [Reply.Sound]
  exec_sound _ _ := trivial
  exec_length _ _ _ h := nomatch h
  cut_quiet _ bytes := by
    intro r hr
    obtain ⟨b, -, rfl⟩ := List.mem_map.mp hr
    trivial
  cut_received _ bytes := by
    induction bytes with
    | nil => rfl
    | cons b bytes ih => exact congrArg (b :: ·) ih

/-- A command is appended, and `redisCommand` gets its reply. -/
def late : List Step :=
  [.append (.format (ascii "GET %s") [.str (ascii "a")]),
    .command (.argv [ascii "GET", ascii "b"]) .kept, .getReply .freed]

theorem program_replies_late :
    ∃ p, (connected false [.wrote 3]).run flipping.peer late = .ok p ∧
      p.calls.map Prod.fst = [some (), none] ∧
      Keeps [.integer 0, .integer 1] p.ctx.reader.mem p.calls ∅ := by
  have hw : WritesFine [.wrote 3] := by simp [WritesFine]
  have hwss : (asked late).map Command.request =
      [[ascii "GET", ascii "a"], [ascii "GET", ascii "b"]].map some := by decide
  obtain ⟨p, F, hrun, -, hcalls, -, hkeeps, hall⟩ :=
    (program_replies flipping false hw hwss).1 (by decide)
  obtain rfl : F = ∅ := hall rfl
  exact ⟨p, hrun, hcalls, hkeeps⟩

end PhpHiredis.Blocking
