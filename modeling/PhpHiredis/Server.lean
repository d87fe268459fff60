import PhpHiredis.Arrival
import PhpHiredis.Request

/-!
# A server at the other end

A server that answers every request, in order, with one well-formed reply. It
keeps the requests of an open transaction until `EXEC`. Its bytes may be cut in
any way, and so may those it receives. `Talking` is what a connection to such a
server looks like from the client: the replies on their way, and the state the
server will be in once it has seen everything.
-/
namespace PhpHiredis

open Library Library.Incremental Reader

/-- The databases `δ` of a server, and how it answers. An array it answers to
`EXEC` has one reply for each command. How the bytes are cut is up to it. -/
structure Server (δ : Type) where
  execute : δ → Request → δ × Reply
  exec : δ → List Request → δ × Reply
  cut : δ → Bytes → List ReadResult
  execute_sound : ∀ d ws, (execute d ws).2.Sound 2
  exec_sound : ∀ d wss, (exec d wss).2.Sound 2
  exec_length : ∀ d wss elems, (exec d wss).2 = .array elems → elems.length = wss.length
  cut_quiet : ∀ d bytes, Quiet (cut d bytes)
  cut_received : ∀ d bytes, received (cut d bytes) = bytes

/-- `queued` are the requests of the open transaction, if there is one. -/
structure Session (δ : Type) where
  db : δ
  queued : Option (List Request)

def multiRequest : Request := [ascii "MULTI"]

def execRequest : Request := [ascii "EXEC"]

variable {δ : Type}

namespace Server
variable (srv : Server δ)

def answer (q : Session δ) (ws : Request) : Session δ × Reply :=
  match q.queued with
  | none =>
      if ws = multiRequest then ({ q with queued := some [] }, .status (ascii "OK"))
      else if ws = execRequest then (q, .error (ascii "ERR EXEC without MULTI"))
      else
        let r := srv.execute q.db ws
        ({ q with db := r.1 }, r.2)
  | some wss =>
      if ws = execRequest then
        let r := srv.exec q.db wss
        (⟨r.1, none⟩, r.2)
      else if ws = multiRequest then (q, .error (ascii "ERR MULTI calls can not be nested"))
      else ({ q with queued := some (wss ++ [ws]) }, .status (ascii "QUEUED"))

/-- The answers to some requests, in order. -/
def serve : Session δ → List Request → Session δ × List Reply
  | q, [] => (q, [])
  | q, ws :: wss =>
      let r := srv.answer q ws
      let rest := serve r.1 wss
      (rest.1, r.2 :: rest.2)

theorem answer_sound (q : Session δ) (ws : Request) : (srv.answer q ws).2.Sound 2 := by
  have hOK : findCRLF (ascii "OK") = none := by decide
  have hQUEUED : findCRLF (ascii "QUEUED") = none := by decide
  have hexec : findCRLF (ascii "ERR EXEC without MULTI") = none := by decide
  have hmulti : findCRLF (ascii "ERR MULTI calls can not be nested") = none := by decide
  unfold answer
  split
  · split_ifs
    · exact hOK
    · exact hexec
    · exact srv.execute_sound q.db ws
  · split_ifs
    · exact srv.exec_sound q.db _
    · exact hmulti
    · exact hQUEUED

end Server

/-- A session, and bytes that are not a whole request yet. -/
@[ext]
structure Desk (δ : Type) where
  session : Session δ
  pending : Bytes
  waits : decodeRequest pending = none

def Desk.at (q : Session δ) : Desk δ := ⟨q, [], rfl⟩

namespace Server
variable (srv : Server δ)

def requestStep : Consumer (Session δ × List Reply) UInt8 := fun st xs =>
  (decodeRequest xs).map fun r =>
    (((srv.answer st.1 r.1).1, st.2 ++ [(srv.answer st.1 r.1).2]), r.2)

theorem requestStep_local : Local srv.requestStep where
  takes h := by
    obtain ⟨r, hr, he⟩ := Option.map_eq_some_iff.mp h
    cases he
    exact (decodeRequest_takes hr).1
  extend h zs := by
    obtain ⟨r, hr, he⟩ := Option.map_eq_some_iff.mp h
    cases he
    rw [requestStep, (decodeRequest_takes hr).2 zs]
    rfl

/-- The answers given so far have no influence on the next. -/
theorem drain_requests (st : Session δ × List Reply) (out : List Reply) (xs : Bytes) :
    drain srv.requestStep (st.1, out ++ st.2) xs =
      (((drain srv.requestStep st xs).1.1, out ++ (drain srv.requestStep st xs).1.2),
        (drain srv.requestStep st xs).2) := by
  induction st, xs using induction_on_steps srv.requestStep_local with
  | stop st xs h =>
      have hnone : decodeRequest xs = none := Option.map_eq_none_iff.mp h
      rw [drain_stop h, drain_stop (by rw [requestStep, hnone]; rfl)]
  | next st xs st' ys h ih =>
      obtain ⟨r, hr, he⟩ := Option.map_eq_some_iff.mp h
      cases he
      have hstep : srv.requestStep (st.1, out ++ st.2) xs = some
          (((srv.answer st.1 r.1).1, out ++ (st.2 ++ [(srv.answer st.1 r.1).2])), r.2) := by
        rw [requestStep, hr, ← List.append_assoc]
        rfl
      rw [drain_step srv.requestStep_local h, drain_step srv.requestStep_local hstep]
      exact ih

/-- The whole requests in some bytes, answered, and the bytes left. -/
def consume (d : Desk δ) (bytes : Bytes) : (Session δ × List Reply) × Bytes :=
  drain srv.requestStep (d.session, []) (d.pending ++ bytes)

theorem consume_waits (d : Desk δ) (bytes : Bytes) :
    decodeRequest (srv.consume d bytes).2 = none :=
  Option.map_eq_none_iff.mp (step_drain srv.requestStep_local _ _)

def desk (d : Desk δ) (bytes : Bytes) : Desk δ :=
  ⟨(srv.consume d bytes).1.1, (srv.consume d bytes).2, srv.consume_waits d bytes⟩

/-- The server as its client sees it. -/
def peer : Peer (Desk δ) where
  receive d bytes :=
    (srv.desk d bytes, srv.cut d.session.db (Reply.encodeAll (srv.consume d bytes).1.2))

theorem received_peer (d : Desk δ) (bytes : Bytes) :
    received (srv.peer.receive d bytes).2 = Reply.encodeAll (srv.consume d bytes).1.2 :=
  srv.cut_received _ _

theorem consume_append (d : Desk δ) (xs ys : Bytes) :
    srv.consume d (xs ++ ys) =
      (((srv.consume (srv.desk d xs) ys).1.1,
        (srv.consume d xs).1.2 ++ (srv.consume (srv.desk d xs) ys).1.2),
        (srv.consume (srv.desk d xs) ys).2) := by
  have h := srv.drain_requests ((srv.consume d xs).1.1, []) (srv.consume d xs).1.2
    ((srv.consume d xs).2 ++ ys)
  rw [List.append_nil] at h
  rw [consume, ← List.append_assoc, drain_append srv.requestStep_local]
  exact h

theorem consume_nil (d : Desk δ) : srv.consume d [] = ((d.session, []), d.pending) := by
  rw [consume, List.append_nil]
  exact drain_stop (by rw [requestStep, d.waits]; rfl)

/-- The cuts cannot be observed. -/
theorem steady : srv.peer.Steady where
  quiet d bytes := srv.cut_quiet _ _
  nil d := by
    have h := srv.consume_nil d
    refine ⟨?_, by rw [received_peer, h, Reply.encodeAll_nil]⟩
    exact Desk.ext (congrArg (·.1.1) h) (congrArg Prod.snd h)
  append d xs ys := by
    have h := srv.consume_append d xs ys
    have hdesk : srv.desk d (xs ++ ys) = srv.desk (srv.desk d xs) ys :=
      Desk.ext (congrArg (·.1.1) h) (congrArg (fun r => r.2) h)
    refine ⟨hdesk, ?_⟩
    simp only [received_peer, h, Reply.encodeAll_append]
    rfl

theorem consume_request (q : Session δ) (ws : Request) :
    srv.consume (.at q) (encodeRequest ws) =
      (((srv.answer q ws).1, [(srv.answer q ws).2]), []) := by
  have hstep : srv.requestStep (q, []) (encodeRequest ws) =
      some (((srv.answer q ws).1, [(srv.answer q ws).2]), []) := by
    rw [requestStep, ← List.append_nil (encodeRequest ws), decodeRequest_encode]
    rfl
  exact (drain_step srv.requestStep_local hstep).trans (drain_stop rfl)

theorem desk_request (q : Session δ) (ws : Request) :
    srv.desk (.at q) (encodeRequest ws) = .at (srv.answer q ws).1 :=
  Desk.ext (congrArg (·.1.1) (srv.consume_request q ws))
    (congrArg Prod.snd (srv.consume_request q ws))

theorem consume_silent {d : Desk δ} {bytes : Bytes}
    (h : Reply.encodeAll (srv.consume d bytes).1.2 = []) :
    (srv.consume d bytes).2 = d.pending ++ bytes := by
  unfold consume at h ⊢
  cases hstep : srv.requestStep (d.session, []) (d.pending ++ bytes) with
  | none => rw [drain_stop hstep]
  | some r =>
      obtain ⟨a, -, ha⟩ := Option.map_eq_some_iff.mp hstep
      have hout := srv.drain_requests (r.1.1, []) r.1.2 r.2
      rw [List.append_nil] at hout
      rw [drain_step srv.requestStep_local hstep, hout, Reply.encodeAll_append, ← ha,
        List.nil_append, Reply.encodeAll_cons, List.append_eq_nil_iff,
        List.append_eq_nil_iff] at h
      exact absurd h.1.1 (Reply.encode_ne_nil _)

end Server

/-- The replies `R` are on their way to the client, and the server will be in
the session `q`. -/
structure Talking (srv : Server δ) (c : ExtContext (Desk δ)) (q : Session δ)
    (R : List Reply) : Prop where
  flowing : Flowing c
  settled : c.settled srv.peer = .at q
  stream : c.stream srv.peer = Reply.encodeAll R
  sound : ∀ r ∈ R, r.Sound 2
  ready : Ready c.reader

namespace Talking
variable {srv : Server δ} {c : ExtContext (Desk δ)} {q : Session δ} {R : List Reply}

theorem withMem (h : Talking srv c q R) (mem : Mem) :
    Talking srv { c with reader := { c.reader with mem := mem } } q R :=
  ⟨⟨h.flowing.quiet, h.flowing.writes⟩, h.settled, h.stream, h.sound,
    ⟨congrArg (fun r => { r with mem := mem }) h.ready.buf, h.ready.error, h.ready.ridx,
      h.ready.reply⟩⟩

theorem newReader (h : Talking srv c q R) (hu : c.reader.unread = []) (mem : Mem) :
    Talking srv { c with reader := redisReplyReaderCreate mem } q R := by
  refine ⟨⟨h.flowing.quiet, h.flowing.writes⟩, h.settled, ?_, h.sound, ready_create mem⟩
  rw [← h.stream]
  simp only [RedisContext.stream, hu]
  rfl

theorem drained (h : Talking srv c q []) :
    c.reader.unread = [] ∧ received c.sock.inbox = [] ∧ c.obuf = [] := by
  have hs := h.stream
  rw [Reply.encodeAll_nil, RedisContext.stream, List.append_eq_nil_iff,
    List.append_eq_nil_iff, Server.received_peer] at hs
  refine ⟨hs.1.1, hs.1.2, ?_⟩
  have hrest := srv.consume_silent hs.2
  have hpending : (srv.consume c.sock.peer c.obuf).2 = [] := congrArg Desk.pending h.settled
  rw [hpending] at hrest
  exact (List.append_eq_nil_iff.mp hrest.symm).2

theorem append (h : Talking srv c q R) (ws : Request) :
    Talking srv (redisAppend c (encodeRequest ws)) (srv.answer q ws).1
      (R ++ [(srv.answer q ws).2]) := by
  obtain ⟨h₁, h₂⟩ := srv.steady.append c.sock.peer c.obuf (encodeRequest ws)
  have hset : (srv.peer.receive c.sock.peer c.obuf).1 = .at q := h.settled
  rw [hset] at h₁ h₂
  refine ⟨⟨h.flowing.quiet, h.flowing.writes⟩, ?_, ?_, ?_, h.ready⟩
  · exact h₁.trans (srv.desk_request q ws)
  · have hs : (redisAppend c (encodeRequest ws)).stream srv.peer =
        c.stream srv.peer ++ received (srv.peer.receive (.at q) (encodeRequest ws)).2 := by
      simp only [RedisContext.stream, redisAppend, h₂, List.append_assoc]
    rw [hs, h.stream, Server.received_peer, srv.consume_request, Reply.encodeAll_append]
  · intro r hr
    rcases List.mem_append.mp hr with hr | hr
    · exact h.sound r hr
    · rw [List.mem_singleton.mp hr]
      exact srv.answer_sound q ws

theorem readInto {r : Reply} (h : Talking srv c q (r :: R)) {x : ℕ} {z : Zval}
    (hz : c.reader.mem x = some z) :
    ∃ c', readInto srv.peer c x = .ok (r.value, c') ∧ Talking srv c' q R := by
  let s : RedisReader := { c.reader with privdata := some x }
  let c₀ : ExtContext (Desk δ) :=
    { c with reader := redisReplyReaderSetPrivdata c.reader x }
  have hc : c₀.reader = s.holding c.reader.unread := by
    have hset := setPrivdata_holding h.ready.reply c.reader.unread x
    rw [← h.ready.buf] at hset
    exact hset
  have hstream : c₀.stream srv.peer = r.encode ++ Reply.encodeAll R := by
    rw [← Reply.encodeAll_cons, ← h.stream, RedisContext.stream, hc, unread_holding]
    rfl
  have hidle : Idle s x := ⟨h.ready.error, h.ready.ridx, h.ready.reply, rfl⟩
  have hflow : Flowing c₀ := ⟨h.flowing.quiet, h.flowing.writes⟩
  obtain ⟨c', s', u', hget, hreader, hidle, hmem, hflow, hrest, hlink⟩ :=
    redisGetReply_spec srv.steady hidle hz hc hflow (h.sound r (by simp)) hstream
  have hmem' : c'.reader.mem = c.reader.mem.set x r.value := by
    rw [hreader]
    exact hmem
  refine ⟨c', ?_, ⟨hflow, hlink.settled.trans h.settled, hrest,
    fun r' hr' => h.sound r' (by simp [hr']), ?_⟩⟩
  · simp only [PhpHiredis.readInto]
    rw [hget]
    simp only [Outcome.ok_bind, hmem', Mem.set, Function.update_self, Outcome.pure_eq]
  · rw [hreader]
    exact ⟨rfl, hidle.error, hidle.ridx, hidle.reply⟩

end Talking

/-- A new connection to a server with the database `d`. -/
def connection (d : δ) (fd : ℕ) (writes : List WriteResult) : ExtContext (Desk δ) :=
  redisConnect fd ⟨.at ⟨d, none⟩, [], writes⟩

theorem talking_connection (srv : Server δ) (d : δ) (fd : ℕ) {writes : List WriteResult}
    (hw : WritesFine writes) : Talking srv (connection d fd writes) ⟨d, none⟩ [] where
  flowing := ⟨fun _ hr => (List.not_mem_nil hr).elim, hw⟩
  settled := (srv.steady.nil _).1
  stream := (srv.steady.nil _).2.trans Reply.encodeAll_nil.symm
  sound := fun _ hr => (List.not_mem_nil hr).elim
  ready := ready_create _

def Server.constant (r : Reply) (hr : r.Sound 1) : Server Unit where
  execute _ _ := ((), r)
  exec _ wss := ((), if wss.length < 2 ^ 31 then .array (wss.map fun _ => r) else .nilArray)
  cut _ bytes := if h : bytes = [] then [] else [.data ⟨bytes, h⟩]
  execute_sound _ _ := hr.mono
  exec_sound _ wss := by
    split_ifs with h
    · refine ⟨by rwa [List.length_map], fun e he => ?_⟩
      obtain ⟨_, -, rfl⟩ := List.mem_map.mp he
      exact hr
    · trivial
  exec_length _ wss elems h := by
    split_ifs at h
    · cases h
      exact List.length_map _
  cut_quiet _ bytes := by
    split_ifs
    · exact fun _ hr => (List.not_mem_nil hr).elim
    · intro r hr
      rw [List.mem_singleton.mp hr]
      trivial
  cut_received _ bytes := by
    split_ifs with h
    · exact h.symm
    · exact List.append_nil bytes

theorem readReply_blocked {σ : Type} {rs : List ReadResult} (hq : Quiet rs) (hr : received rs = [])
    (n : ℕ) (c : ExtContext σ) {s : RedisReader} (hc : c.reader = s.holding [])
    (hrs : c.sock.inbox = rs) : readReply n c = .blocked := by
  induction rs generalizing n c with
  | nil => cases n <;> simp [readReply, redisBufferRead, hrs]
  | cons r rs ih =>
      cases n with
      | zero => rfl
      | succ n =>
          cases r with
          | eof => exact (hq .eof (by simp)).elim
          | error msg => exact (hq (.error msg) (by simp)).elim
          | data chunk => exact absurd (List.append_eq_nil_iff.mp hr).1 chunk.2
          | again =>
              have hstep : readReply (n + 1) c =
                  readReply n { c with sock := { c.sock with inbox := rs } } := by
                rw [readReply, redisBufferRead, hrs]
                simp only [Outcome.pure_eq, Outcome.ok_bind, redisGetReplyFromReader, getReply_eq,
                  hc, redisReplyReaderGetReply_nil]
              rw [hstep]
              exact ih hq.tail hr n { c with sock := { c.sock with inbox := rs } } hc rfl

/-- A reply that the server does not owe is waited for, for ever. -/
theorem Talking.blocked {srv : Server δ} {c : ExtContext (Desk δ)} {q : Session δ}
    (h : Talking srv c q []) (x : ℕ) : PhpHiredis.readInto srv.peer c x = .blocked := by
  let s : RedisReader := { c.reader with privdata := some x }
  let c₀ : ExtContext (Desk δ) :=
    { c with reader := redisReplyReaderSetPrivdata c.reader x }
  have hc : c₀.reader = s.holding [] := by
    have hset := setPrivdata_holding h.ready.reply c.reader.unread x
    rw [← h.ready.buf] at hset
    exact hset.trans (congrArg s.holding h.drained.1)
  have hflow : Flowing c₀ := ⟨h.flowing.quiet, h.flowing.writes⟩
  obtain ⟨h₁, h₂, h₃, h₄, h₅, -⟩ := flush_spec srv.steady hflow.writes hflow.quiet
  have hflush : flush srv.peer c₀.sock.writes c₀ = (.ok, (flush srv.peer c₀.sock.writes c₀).2) :=
    Prod.ext h₁ rfl
  generalize (flush srv.peer c₀.sock.writes c₀).2 = c₁ at h₂ h₃ h₄ h₅ hflush
  have hrcv : received c₁.sock.inbox = [] := by
    have hstream := h.stream
    rw [Reply.encodeAll_nil, RedisContext.stream, List.append_assoc] at hstream
    exact h₅.trans (List.append_eq_nil_iff.mp hstream).2
  have hblocked := readReply_blocked h₄.quiet hrcv (c₁.sock.inbox.length + 1) c₁ (h₃.trans hc) rfl
  have hget : redisGetReply srv.peer c₀ = .blocked := by
    simp only [redisGetReply, redisGetReplyFromReader, getReply_eq, hc,
      redisReplyReaderGetReply_nil, Outcome.ok_bind, Outcome.pure_eq]
    rw [← hc]
    simp only [hflush, hblocked]
  simp only [PhpHiredis.readInto]
  rw [hget]
  rfl

end PhpHiredis
