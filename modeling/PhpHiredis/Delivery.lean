import PhpHiredis.Context

/-!
# Replies over the connection

What `redisGetReply` delivers does not depend on how the bytes of the peer are
cut. The bytes still to come (those the reader could not use yet, those the
socket holds, and the answer to what is still in the output buffer) form one
stream; every call takes one reply from its front, and leaves the rest.
-/
namespace PhpHiredis

open Library Library.Incremental Reader

variable {σ : Type}

def received : List ReadResult → Bytes
  | [] => []
  | .data chunk :: rs => chunk.1 ++ received rs
  | _ :: rs => received rs

def Quiet (rs : List ReadResult) : Prop :=
  ∀ r ∈ rs, match r with
    | .data _ | .again => True
    | .error _ | .eof => False

theorem received_append (rs rs' : List ReadResult) :
    received (rs ++ rs') = received rs ++ received rs' := by
  induction rs with
  | nil => rfl
  | cons r rs ih => cases r <;> simp [received, ih]

theorem quiet_data (chunk : Chunk) : Quiet [.data chunk] := by
  intro r hr
  rw [List.mem_singleton.mp hr]
  trivial

theorem Quiet.tail {r : ReadResult} {rs : List ReadResult} (h : Quiet (r :: rs)) : Quiet rs :=
  fun r' hr' => h r' (by simp [hr'])

theorem Quiet.append {rs rs' : List ReadResult} (h : Quiet rs) (h' : Quiet rs') :
    Quiet (rs ++ rs') := by
  intro r hr
  rcases List.mem_append.mp hr with hr | hr
  · exact h r hr
  · exact h' r hr

theorem drain_dead {x : Run RedisReader} (h : ∀ s, x = .ok s → s.ridx < 0) (xs : Bytes) :
    drain parseStep x xs = (x, xs) := by
  refine drain_stop ?_
  cases x with
  | ok s => exact parseStep_stopped (h s rfl) xs
  | fault e => rfl
  | blocked => rfl

theorem drain_resting {x : Run RedisReader} (xs : Bytes) (hx : ∀ s, x = .ok s → Resting s) :
    ∀ s', (drain parseStep x xs).1 = .ok s' → Resting s' := by
  induction x, xs using induction_on_steps parseStep_local with
  | stop x xs h => rwa [drain_stop h]
  | next x xs x' ys h ih =>
      rw [drain_step parseStep_local h]
      apply ih
      rintro s' rfl
      cases x with
      | ok s => exact parseStep_resting (hx s rfl) h
      | fault e => cases h
      | blocked => cases h

theorem drain_cases (x : Run RedisReader) (w : Bytes) :
    (∃ s ys, drain parseStep x w = (.ok s, ys) ∧ 0 ≤ s.ridx) ∨
      (∀ s, (drain parseStep x w).1 = .ok s → s.ridx < 0) ∧
        ∀ more, drain parseStep x (w ++ more) =
          ((drain parseStep x w).1, (drain parseStep x w).2 ++ more) := by
  by_cases hdead : ∀ s, (drain parseStep x w).1 = .ok s → s.ridx < 0
  · exact Or.inr ⟨hdead, fun more => by rw [drain_append parseStep_local, drain_dead hdead]⟩
  · simp only [not_forall] at hdead
    obtain ⟨s, hs, hi⟩ := hdead
    exact Or.inl ⟨s, _, Prod.ext hs rfl, by omega⟩

theorem drain_prefix {s s' : RedisReader} {w more : Bytes} (hmore : more ≠ [])
    (h : drain parseStep (.ok s) (w ++ more) = (.ok s', [])) :
    ∃ s₁ ys, drain parseStep (.ok s) w = (.ok s₁, ys) ∧ 0 ≤ s₁.ridx := by
  rcases drain_cases (.ok s) w with hwaits | ⟨-, hdead⟩
  · exact hwaits
  · rw [hdead] at h
    exact absurd (List.append_eq_nil_iff.mp (congrArg Prod.snd h)).2 hmore

theorem emitReply_stopped {s : RedisReader} (he : s.error = none) (hi : s.ridx = -1) :
    emitReply s = (.ok, s.reply, s.emitted) := by
  rw [emitReply, if_pos hi]
  split
  · rename_i h
    rw [he] at h
    cases h
  · rfl

/-- A call of the reader that sees the end of a reply emits it. -/
theorem getReply_emits {s s' : RedisReader} {xs rest : Bytes} {o : Loc} (hr : Resting s)
    (he : s.error = none) (h : -1 ≤ s.ridx) (hx : xs ≠ [])
    (hd : drain parseStep (.ok (startReply s)) xs = (.ok s', rest)) (hs' : s'.error = none)
    (hi : s'.ridx = -1) (ho : s'.reply = some o) :
    redisReplyReaderGetReply (s.holding xs) =
      .ok (.ok, some o, s'.emitted.holding rest) := by
  rw [redisReplyReaderGetReply_eq he hr h hx, hd]
  simp only [Outcome.ok_bind, afterReply, hs', if_true]
  rw [emitReply_stopped (show (s'.holding rest).error = none from hs') hi]
  exact congrArg (fun r => Outcome.ok (Status.ok, r, s'.emitted.holding rest)) ho

/-- A call of the reader that does not see it keeps what it could not use. -/
theorem getReply_waits {s s' : RedisReader} {xs rest : Bytes} (hr : Resting s)
    (he : s.error = none) (h : -1 ≤ s.ridx) (hx : xs ≠ [])
    (hd : drain parseStep (.ok (startReply s)) xs = (.ok s', rest)) (hs' : s'.error = none)
    (hi : 0 ≤ s'.ridx) :
    redisReplyReaderGetReply (s.holding xs) = .ok (.ok, none, s'.holding rest) := by
  rw [redisReplyReaderGetReply_eq he hr h hx, hd]
  simp only [Outcome.ok_bind, afterReply, hs', if_true, emitReply]
  rw [if_neg]
  change ¬s'.ridx = -1
  omega

theorem feed_holding (s : RedisReader) (xs : Bytes) (chunk : Chunk) :
    redisReplyReaderFeed (s.holding xs) chunk.1 = s.holding (xs ++ chunk.1) := by
  have hpos : 1 ≤ chunk.1.length := List.length_pos_of_ne_nil chunk.2
  rw [redisReplyReaderFeed, if_pos hpos]
  rfl

/-- The reader has seen the bytes `w`, which are less than a reply, and could
not use `ys` yet. -/
structure Midway (s₀ s : RedisReader) (w ys : Bytes) : Prop where
  drained : drain parseStep (.ok s₀) w = (.ok (startReply s), ys)
  resting : Resting s
  ridx : -1 ≤ s.ridx
  error : s.error = none
  idle : s.ridx = -1 → ys = []

theorem Midway.drain {s₀ s : RedisReader} {w ys : Bytes} (h : Midway s₀ s w ys) (zs : Bytes) :
    drain parseStep (.ok (startReply s)) (ys ++ zs) = drain parseStep (.ok s₀) (w ++ zs) := by
  rw [drain_append parseStep_local (.ok s₀) w, h.drained]

theorem Midway.again {s₀ s : RedisReader} {w ys : Bytes} (h : Midway s₀ s w ys) :
    redisReplyReaderGetReply (s.holding ys) = .ok (.ok, none, s.holding ys) := by
  by_cases hy : ys = []
  · rw [hy]
    exact redisReplyReaderGetReply_nil s
  · have hi := h.ridx
    have hidx : s.ridx ≠ -1 := fun hc => hy (h.idle hc)
    have hstart : startReply s = s := if_neg hidx
    have hd := h.drain []
    rw [List.append_nil, List.append_nil, h.drained, hstart] at hd
    exact getReply_waits h.resting h.error h.ridx hy (by rw [hstart, hd]) h.error (by omega)

theorem midway_of_drain {s₀ s : RedisReader} (hr : Resting s₀) {w ys : Bytes}
    (h : Incremental.drain parseStep (.ok s₀) w = (.ok s, ys)) (h0 : 0 ≤ s.ridx) :
    Midway s₀ s w ys := by
  have hrest : Resting s := drain_resting w (fun t (ht : Outcome.ok s₀ = .ok t) => by
    cases ht
    exact hr) s (by rw [h])
  have hstart : startReply s = s := if_neg (by omega)
  exact ⟨by rw [hstart, h], hrest, by omega, (hrest h0).1, fun hi => by omega⟩

theorem Reader.Finishes.next {s₀ s' : RedisReader} {o : Loc} {e : Reply} (hf : Finishes s₀ s' o e)
    {w rcv S : Bytes} (h : w ++ rcv = e.encode ++ S) :
    (∃ rest, drain parseStep (.ok s₀) w = (.ok s', rest) ∧ rest ++ rcv = S) ∨
      ∃ s ys, Midway s₀ s w ys ∧ 0 ≤ s.ridx := by
  rcases List.append_eq_append_iff.mp h with ⟨more, hw, hr⟩ | ⟨rest, hw, hS⟩
  · by_cases hmore : more = []
    · subst hmore
      refine Or.inl ⟨[], ?_, by simpa using hr⟩
      have hd := hf.drained []
      rwa [hw, List.append_nil, List.append_nil] at hd
    · have hd := hf.drained []
      rw [hw, List.append_nil] at hd
      obtain ⟨s, ys, h₁, h₂⟩ := drain_prefix hmore hd
      exact Or.inr ⟨s, ys, midway_of_drain hf.resting h₁ h₂, h₂⟩
  · refine Or.inl ⟨rest, ?_, hS.symm⟩
    rw [hw, hf.drained]

theorem Midway.readReply_again {s₀ s : RedisReader} {w ys : Bytes} (hm : Midway s₀ s w ys) (n : ℕ)
    {c : ExtContext σ} (hc : c.reader = s.holding ys) {rs : List ReadResult}
    (hrs : c.sock.inbox = .again :: rs) :
    readReply (n + 1) c = readReply n { c with sock := { c.sock with inbox := rs } } := by
  rw [readReply, redisBufferRead, hrs]
  simp only [Outcome.pure_eq, Outcome.ok_bind, redisGetReplyFromReader, getReply_eq, hc, hm.again]

theorem readReply_data (n : ℕ) {c : ExtContext σ} {s : RedisReader} {ys : Bytes}
    (hc : c.reader = s.holding ys) {chunk : Chunk} {rs : List ReadResult}
    (hrs : c.sock.inbox = .data chunk :: rs) :
    readReply (n + 1) c = (do
      let (st, reply, c) ← redisGetReplyFromReader { c with
        sock := { c.sock with inbox := rs }
        reader := s.holding (ys ++ chunk.1) }
      match st, reply with
      | .err, _ => return (.err, none, c)
      | .ok, none => readReply n c
      | .ok, some obj => return (.ok, some obj, c)) := by
  have hread : redisBufferRead c = .ok (.ok, { c with
      sock := { c.sock with inbox := rs }
      reader := s.holding (ys ++ chunk.1) }) := by
    rw [← feed_holding, redisBufferRead, hrs, hc]
    rfl
  rw [readReply, hread]
  simp only [Outcome.ok_bind]
  refine congrArg _ (funext fun t => ?_)
  obtain ⟨st, reply, c'⟩ := t
  cases st <;> cases reply <;> rfl

theorem Midway.readReply_waits {s₀ s s₁ : RedisReader} {w ys ys₁ : Bytes} (hm : Midway s₀ s w ys)
    (n : ℕ) {c : ExtContext σ} (hc : c.reader = s.holding ys) {chunk : Chunk}
    {rs : List ReadResult} (hrs : c.sock.inbox = .data chunk :: rs)
    (hm₁ : Midway s₀ s₁ (w ++ chunk.1) ys₁) (h0 : 0 ≤ s₁.ridx) :
    readReply (n + 1) c = readReply n { c with
      sock := { c.sock with inbox := rs }
      reader := s₁.holding ys₁ } := by
  have hxs : ys ++ chunk.1 ≠ [] := fun h => chunk.2 (List.append_eq_nil_iff.mp h).2
  have hstart : startReply s₁ = s₁ := if_neg (by omega)
  have hget := getReply_waits hm.resting hm.error hm.ridx hxs
    ((hm.drain chunk.1).trans (hstart ▸ hm₁.drained)) hm₁.error h0
  rw [readReply_data n hc hrs]
  simp only [redisGetReplyFromReader, getReply_eq, hget, Outcome.ok_bind, Outcome.pure_eq]

/-- The inner loop of `redisGetReply`: it ends with the chunk that holds the end
of the reply, by induction on the results of the reads. What they would be after
that does not matter. -/
theorem readReply_eq {s₀ s' : RedisReader} {o : Loc} {e : Reply} (hf : Finishes s₀ s' o e)
    {S : Bytes} {rs : List ReadResult} (hq : Quiet rs) {n : ℕ} (hn : rs.length < n)
    {s : RedisReader} {w ys : Bytes} (hm : Midway s₀ s w ys)
    (hS : w ++ received rs = e.encode ++ S) (c : ExtContext σ)
    (hc : c.reader = s.holding ys) {tail : List ReadResult} (hrs : c.sock.inbox = rs ++ tail) :
    ∃ rest rs', readReply n c = .ok (.ok, some o, { c with
        reader := s'.emitted.holding rest
        sock := { c.sock with inbox := rs' ++ tail } }) ∧ Quiet rs' ∧ rest ++ received rs' = S := by
  induction rs generalizing n s w ys c with
  | nil =>
      rw [received, List.append_nil] at hS
      have hd := hm.drained
      rw [hS, hf.drained] at hd
      have hs' := Outcome.ok.inj (congrArg Prod.fst hd)
      have h0 := (startReply_resting hm.error hm.resting hm.ridx).2.2
      have hi := hf.ridx
      rw [hs'] at hi
      omega
  | cons r rs ih =>
      obtain ⟨n, rfl⟩ := Nat.exists_eq_succ_of_ne_zero (show n ≠ 0 by omega)
      simp only [List.length_cons] at hn
      cases r with
      | eof => exact (hq .eof (by simp)).elim
      | error msg => exact (hq (.error msg) (by simp)).elim
      | again =>
          rw [hm.readReply_again n hc hrs]
          exact ih hq.tail (by omega) hm hS { c with sock := { c.sock with inbox := rs ++ tail } }
            hc
            rfl
      | data chunk =>
          have hS' : (w ++ chunk.1) ++ received rs = e.encode ++ S := by
            rw [List.append_assoc]
            exact hS
          rcases hf.next hS' with ⟨rest, hd, hrest⟩ | ⟨s₁, ys₁, hm₁, h0⟩
          · have hxs : ys ++ chunk.1 ≠ [] := fun h => chunk.2 (List.append_eq_nil_iff.mp h).2
            have hget := getReply_emits hm.resting hm.error hm.ridx hxs
              ((hm.drain chunk.1).trans hd) hf.error hf.ridx hf.reply
            refine ⟨rest, rs, ?_, hq.tail, hrest⟩
            rw [readReply_data n hc hrs]
            simp only [redisGetReplyFromReader, getReply_eq, hget, Outcome.ok_bind, Outcome.pure_eq]
            rfl
          · rw [hm.readReply_waits n hc hrs hm₁ h0]
            exact ih hq.tail (by omega) hm₁ hS' _ rfl rfl

/-- A peer whose answers depend on what it receives, not on how that is cut, and
that neither fails nor closes the connection. -/
structure Peer.Steady (peer : Peer σ) : Prop where
  quiet : ∀ s bytes, Quiet (peer.receive s bytes).2
  nil : ∀ s, (peer.receive s []).1 = s ∧ received (peer.receive s []).2 = []
  append : ∀ s xs ys,
    (peer.receive s (xs ++ ys)).1 = (peer.receive (peer.receive s xs).1 ys).1 ∧
      received (peer.receive s (xs ++ ys)).2 =
        received (peer.receive s xs).2 ++ received (peer.receive (peer.receive s xs).1 ys).2

def WritesFine (ws : List WriteResult) : Prop :=
  ∀ w ∈ ws, match w with
    | .error _ => False
    | _ => True

section
variable {ρ : Type}

/-- Nothing stands between the two ends: neither reads nor writes fail. -/
structure Flowing (c : RedisContext σ ρ) : Prop where
  quiet : Quiet c.sock.inbox
  writes : WritesFine c.sock.writes

/-- What the socket holds, and the answer to what is still to be written. -/
def RedisContext.inFlight (peer : Peer σ) (c : RedisContext σ ρ) : Bytes :=
  received c.sock.inbox ++ received (peer.receive c.sock.peer c.obuf).2

/-- The state of the peer once it has received the output buffer. -/
def RedisContext.settled (peer : Peer σ) (c : RedisContext σ ρ) : σ :=
  (peer.receive c.sock.peer c.obuf).1

/-- What `redisGetReply` leaves alone in any case. -/
structure SameLink (peer : Peer σ) (c c' : RedisContext σ ρ) : Prop where
  fd : c'.fd = c.fd
  connected : c'.connected = c.connected
  err : c'.err = c.err
  settled : c'.settled peer = c.settled peer

theorem SameLink.trans {peer : Peer σ} {c₁ c₂ c₃ : RedisContext σ ρ} (h : SameLink peer c₁ c₂)
    (h' : SameLink peer c₂ c₃) : SameLink peer c₁ c₃ :=
  ⟨h'.fd.trans h.fd, h'.connected.trans h.connected, h'.err.trans h.err,
    h'.settled.trans h.settled⟩

theorem flush_empty (peer : Peer σ) (ws : List WriteResult) {c : RedisContext σ ρ}
    (h : c.obuf = []) :
    flush peer ws c = (.ok, { c with sock := { c.sock with writes := ws } }) := by
  cases ws with
  | nil => simp [flush, redisBufferWrite, h]
  | cons w ws => simp [flush, h]

section
variable {peer : Peer σ} (hp : peer.Steady)
include hp

theorem send_inFlight (c : RedisContext σ ρ) (n : ℕ) :
    let c' : RedisContext σ ρ :=
      { c with obuf := c.obuf.drop n, sock := c.sock.send peer (c.obuf.take n) }
    c'.inFlight peer = c.inFlight peer ∧ c'.settled peer = c.settled peer := by
  have h := hp.append c.sock.peer (c.obuf.take n) (c.obuf.drop n)
  rw [List.take_append_drop] at h
  refine ⟨?_, h.1.symm⟩
  simp only [RedisContext.inFlight, Socket.send, received_append, h.2, List.append_assoc]

def Flushed (peer : Peer σ) (c : RedisContext σ ρ) (r : Status × RedisContext σ ρ) : Prop :=
  r.1 = .ok ∧ r.2.obuf = [] ∧ r.2.reader = c.reader ∧ Flowing r.2 ∧
    received r.2.sock.inbox = c.inFlight peer ∧ SameLink peer c r.2

theorem flushed_empty {ws : List WriteResult} (hw : WritesFine ws) {c : RedisContext σ ρ}
    (hq : Quiet c.sock.inbox) (h0 : c.obuf = []) : Flushed peer c (flush peer ws c) := by
  rw [flush_empty peer ws h0]
  refine ⟨rfl, h0, rfl, ⟨hq, hw⟩, ?_, ⟨rfl, rfl, rfl, rfl⟩⟩
  rw [RedisContext.inFlight, h0, (hp.nil _).2, List.append_nil]

/-- Writing ends, with short writes and retries as they come, by induction on the
results of the writes. -/
theorem flush_spec {ws : List WriteResult} (hw : WritesFine ws) {c : RedisContext σ ρ}
    (hq : Quiet c.sock.inbox) : Flushed peer c (flush peer ws c) := by
  induction ws generalizing c with
  | nil =>
      by_cases h0 : c.obuf = []
      · exact flushed_empty hp hw hq h0
      · have hlen : c.obuf.length ≠ 0 := fun h => h0 (List.eq_nil_of_length_eq_zero h)
        obtain ⟨hflight, hsettled⟩ := send_inFlight hp
          { c with sock := { c.sock with writes := [] } } c.obuf.length
        simp only [flush, redisBufferWrite, h0, if_false, Nat.min_self, hlen]
        refine ⟨rfl, List.drop_length, rfl, ⟨?_, hw⟩, ?_, ⟨rfl, rfl, rfl, hsettled⟩⟩
        · exact hq.append (hp.quiet _ _)
        · rw [RedisContext.inFlight] at hflight
          simp only [List.drop_length, (hp.nil _).2, List.append_nil] at hflight
          exact hflight
  | cons w ws ih =>
      have hws : WritesFine ws := fun w' hw' => hw w' (by simp [hw'])
      by_cases h0 : c.obuf = []
      · exact flushed_empty hp hw hq h0
      let c₀ : RedisContext σ ρ := { c with sock := { c.sock with writes := ws } }
      have hretry : Flushed peer c (flush peer ws c₀) := by
        obtain ⟨h₁, h₂, h₃, h₄, h₅, h₆⟩ := @ih hws c₀ hq
        exact ⟨h₁, h₂, h₃, h₄, h₅, (show SameLink peer c c₀ from ⟨rfl, rfl, rfl, rfl⟩).trans h₆⟩
      cases w with
      | error msg => exact (hw (.error msg) (by simp)).elim
      | again =>
          simp only [flush, redisBufferWrite, h0, if_false, Bool.false_eq_true]
          exact hretry
      | wrote n =>
          by_cases hn : min n c.obuf.length = 0
          · simp only [flush, redisBufferWrite, h0, if_false, hn, if_true, Bool.false_eq_true]
            exact hretry
          · obtain ⟨hflight, hsettled⟩ := send_inFlight hp c₀ (min n c.obuf.length)
            have hq' := hq.append (hp.quiet c.sock.peer (c.obuf.take (min n c.obuf.length)))
            simp only [flush, redisBufferWrite, h0, if_false, hn]
            by_cases hdone : c.obuf.drop (min n c.obuf.length) = []
            · simp only [hdone, decide_true, if_true]
              refine ⟨rfl, rfl, rfl, ⟨hq', hws⟩, ?_, ⟨rfl, rfl, rfl, ?_⟩⟩
              · rw [RedisContext.inFlight] at hflight
                simp only [show c₀.obuf = c.obuf from rfl, hdone, (hp.nil _).2,
                  List.append_nil] at hflight
                exact hflight
              · rw [← hdone]
                exact hsettled
            · simp only [hdone, decide_false, Bool.false_eq_true, if_false]
              let c₁ : RedisContext σ ρ := { c₀ with
                obuf := c.obuf.drop (min n c.obuf.length)
                sock := c₀.sock.send peer (c.obuf.take (min n c.obuf.length)) }
              have hlink : SameLink peer c c₁ := ⟨rfl, rfl, rfl, hsettled⟩
              obtain ⟨h₁, h₂, h₃, h₄, h₅, h₆⟩ := @ih hws c₁ hq'
              exact ⟨h₁, h₂, h₃, h₄, h₅.trans hflight, hlink.trans h₆⟩

end
end

/-- The bytes on their way to the caller: those the reader holds, those in the
socket, and the answer to what is still to be written. -/
def RedisContext.stream (peer : Peer σ) (c : ExtContext σ) : Bytes :=
  c.reader.unread ++ received c.sock.inbox ++ received (peer.receive c.sock.peer c.obuf).2

theorem Reader.Idle.midway {s : RedisReader} {x : ℕ} (hs : Idle s x) :
    Midway (startReply s) s [] [] where
  drained := drain_stop (by
    have h := startReply_resting hs.error (resting_of_stopped (by rw [hs.ridx]; decide))
      (by rw [hs.ridx])
    have ht : (startReply s).cur.type = none := by simp [startReply, hs.ridx, RedisReader.cur]
    rw [parseStep_ok h.2.2, parseItem_nil ht])
  resting := resting_of_stopped (by rw [hs.ridx]; decide)
  ridx := by rw [hs.ridx]
  error := hs.error
  idle _ := rfl

/-- Either the reply is there already, or the output buffer is written and reads
follow until it is. -/
theorem redisGetReply_eq (peer : Peer σ) {s s' : RedisReader} {x : ℕ} {o : Loc} {e : Reply}
    (hs : Idle s x) (hf : Finishes (startReply s) s' o e) {c : ExtContext σ} {u rcv S : Bytes}
    (hc : c.reader = s.holding u) (hS : u ++ rcv = e.encode ++ S) :
    (∃ rest, redisGetReply peer c =
        .ok (.ok, some o, { c with reader := s'.emitted.holding rest }) ∧
        rest ++ rcv = S) ∨
      ∃ s₁ ys, Midway (startReply s) s₁ u ys ∧
        ∀ c₁, flush peer c.sock.writes { c with reader := s₁.holding ys } = (.ok, c₁) →
          redisGetReply peer c = readReply (c₁.sock.inbox.length + 1) c₁ := by
  have hread : ∀ r, redisReplyReaderGetReply (s.holding u) = .ok (.ok, none, r) →
      ∀ c₁, flush peer c.sock.writes { c with reader := r } = (.ok, c₁) →
        redisGetReply peer c = readReply (c₁.sock.inbox.length + 1) c₁ := by
    intro r hr c₁ h₁
    simp only [redisGetReply, redisGetReplyFromReader, getReply_eq, hc, hr, Outcome.ok_bind,
      Outcome.pure_eq, h₁]
  by_cases hu : u = []
  · subst hu
    exact Or.inr ⟨s, [], hs.midway, hread _ (redisReplyReaderGetReply_nil s)⟩
  · have hm := hs.midway
    rcases hf.next hS with ⟨rest, hd, hrest⟩ | ⟨s₁, ys, hm₁, h0⟩
    · have hget := getReply_emits hm.resting hm.error hm.ridx hu hd hf.error hf.ridx hf.reply
      refine Or.inl ⟨rest, ?_, hrest⟩
      simp only [redisGetReply, redisGetReplyFromReader, getReply_eq, hc, hget, Outcome.ok_bind,
        Outcome.pure_eq]
    · have hstart : startReply s₁ = s₁ := if_neg (by omega)
      have hget := getReply_waits hm.resting hm.error hm.ridx hu (hstart ▸ hm₁.drained)
        hm₁.error h0
      exact Or.inr ⟨s₁, ys, hm₁, hread _ hget⟩

theorem unread_holding (s : RedisReader) (xs : Bytes) : (s.holding xs).unread = xs := rfl

theorem redisGetReply_spec {peer : Peer σ} (hp : peer.Steady) {c : ExtContext σ}
    {s : RedisReader} {x : ℕ} {z : Zval} {u S : Bytes} {e : Reply} (hs : Idle s x)
    (hz : s.mem x = some z) (hc : c.reader = s.holding u) (hflow : Flowing c) (he : e.Sound 2)
    (hS : c.stream peer = e.encode ++ S) :
    ∃ c' s' u', redisGetReply peer c = .ok (.ok, some ⟨x, []⟩, c') ∧ c'.reader = s'.holding u' ∧
      Idle s' x ∧ s'.mem = s.mem.set x e.value ∧ Flowing c' ∧ c'.stream peer = S ∧
      SameLink peer c c' := by
  obtain ⟨s', hf, hidle, hmem⟩ := hs.finishes hz he
  have hu : c.reader.unread = u := by rw [hc, unread_holding]
  rw [RedisContext.stream, hu, List.append_assoc] at hS
  rcases redisGetReply_eq peer hs hf hc hS with ⟨rest, hget, hrest⟩ | ⟨s₁, ys, hm, hget⟩
  · refine ⟨_, s'.emitted, rest, hget, rfl, hidle, hmem, ⟨hflow.quiet, hflow.writes⟩, ?_,
      ⟨rfl, rfl, rfl, rfl⟩⟩
    rw [RedisContext.stream, unread_holding, List.append_assoc]
    exact hrest
  · let c₀ : ExtContext σ := { c with reader := s₁.holding ys }
    obtain ⟨h₁, h₂, h₃, h₄, h₅, h₆⟩ := flush_spec hp hflow.writes
      (show Quiet c₀.sock.inbox from hflow.quiet)
    have hflush : flush peer c.sock.writes c₀ = (.ok, (flush peer c.sock.writes c₀).2) :=
      Prod.ext h₁ rfl
    generalize (flush peer c.sock.writes c₀).2 = c₁ at h₂ h₃ h₄ h₅ h₆ hflush
    have hrcv : received c₁.sock.inbox =
        received c.sock.inbox ++ received (peer.receive c.sock.peer c.obuf).2 := h₅
    rw [hget c₁ hflush]
    obtain ⟨rest, rs, hread, hq, hrest⟩ := readReply_eq hf h₄.quiet (Nat.lt_succ_self _) hm
      (by rw [hrcv, hS]) c₁ h₃ (List.append_nil _).symm
    rw [List.append_nil] at hread
    refine ⟨_, s'.emitted, rest, hread, rfl, hidle, hmem, ⟨hq, h₄.writes⟩, ?_,
      ⟨h₆.fd, h₆.connected, h₆.err, h₆.settled⟩⟩
    simp only [RedisContext.stream, unread_holding, h₂, (hp.nil _).2, List.append_nil]
    exact hrest

/-- Successive calls, each with its own variable; the results of the calls are
collected. -/
def readReplies (peer : Peer σ) :
    List ℕ → ExtContext σ → Run (List (Status × Option Loc) × ExtContext σ)
  | [], c => .ok ([], c)
  | z :: zs, c => do
      let (st, reply, c) ← redisGetReply peer
        { c with reader := redisReplyReaderSetPrivdata c.reader z }
      let (results, c) ← readReplies peer zs c
      return ((st, reply) :: results, c)

/-- Nothing to write, nothing that fails, and the bytes `S` still to be read. -/
structure Reading (c : ExtContext σ) (s : RedisReader) (S : Bytes) : Prop where
  obuf : c.obuf = []
  quiet : Quiet c.sock.inbox
  stream : c.reader.unread ++ received c.sock.inbox = S
  reader : c.reader = s.holding c.reader.unread
  error : s.error = none
  ridx : s.ridx = -1
  reply : s.reply = none

theorem setPrivdata_holding {s : RedisReader} (h : s.reply = none) (xs : Bytes) (x : ℕ) :
    redisReplyReaderSetPrivdata (s.holding xs) x =
      RedisReader.holding { s with privdata := some x } xs := by
  unfold redisReplyReaderSetPrivdata
  split
  · rfl
  · rename_i o ho
    have hr : (s.holding xs).reply = none := h
    rw [hr] at ho
    cases ho

theorem Reading.next (peer : Peer σ) {c : ExtContext σ} {s : RedisReader} {e : Reply} {S : Bytes}
    (h : Reading c s (e.encode ++ S)) {x : ℕ} {z : Zval} (hz : s.mem x = some z)
    (he : e.Sound 2) :
    ∃ c' s', redisGetReply peer { c with reader := redisReplyReaderSetPrivdata c.reader x } =
        .ok (.ok, some ⟨x, []⟩, c') ∧ Reading c' s' S ∧ s'.mem = s.mem.set x e.value := by
  let t : RedisReader := { s with privdata := some x }
  have ht : Idle t x := ⟨h.error, h.ridx, h.reply, rfl⟩
  obtain ⟨s', hf, hidle, hmem⟩ := ht.finishes (show t.mem x = some z from hz) he
  have hc : redisReplyReaderSetPrivdata c.reader x = t.holding c.reader.unread := by
    rw [← setPrivdata_holding h.reply, ← h.reader]
  let c₀ : ExtContext σ := { c with reader := redisReplyReaderSetPrivdata c.reader x }
  rcases @redisGetReply_eq σ peer t s' x ⟨x, []⟩ e ht hf c₀ _ _ S hc h.stream with
    ⟨rest, hget, hrest⟩ | ⟨s₁, ys, hm, hget⟩
  · exact ⟨_, s'.emitted, hget, ⟨h.obuf, h.quiet, hrest, rfl, hidle.error, hidle.ridx,
      hidle.reply⟩, hmem⟩
  · have hflush := hget _ (flush_empty peer _ h.obuf)
    obtain ⟨rest, rs, hread, hq, hrest⟩ := readReply_eq hf
      (show Quiet c₀.sock.inbox from h.quiet) (Nat.lt_succ_self _) hm h.stream
      { c₀ with reader := s₁.holding ys } rfl (List.append_nil _).symm
    rw [List.append_nil] at hread
    exact ⟨_, s'.emitted, hflush.trans hread, ⟨h.obuf, hq, hrest, rfl, hidle.error, hidle.ridx,
      hidle.reply⟩, hmem⟩

/-- What the variables hold after the replies `ts` went to the variables `zs`. -/
def stored (mem : Mem) : List ℕ → List Reply → Mem
  | z :: zs, t :: ts => stored (mem.set z t.value) zs ts
  | _, _ => mem

theorem stored_of_notMem {zs : List ℕ} {y : ℕ} (h : y ∉ zs) (mem : Mem) (ts : List Reply) :
    stored mem zs ts y = mem y := by
  induction zs generalizing mem ts with
  | nil => simp [stored]
  | cons z zs ih =>
      rw [List.mem_cons, not_or] at h
      cases ts with
      | nil => rfl
      | cons t ts =>
          rw [stored, ih h.2]
          exact Function.update_of_ne h.1 _ _

theorem stored_getElem {zs : List ℕ} (hnd : zs.Nodup) (mem : Mem) {ts : List Reply} {i : ℕ}
    (hz : i < zs.length) (ht : i < ts.length) : stored mem zs ts zs[i] = some ts[i].value := by
  induction zs generalizing mem ts i with
  | nil => cases hz
  | cons z zs ih =>
      rw [List.nodup_cons] at hnd
      cases ts with
      | nil => cases ht
      | cons t ts =>
          cases i with
          | zero =>
              simp only [List.getElem_cons_zero, stored]
              rw [stored_of_notMem hnd.1]
              exact set_self mem z t.value
          | succ i =>
              simp only [List.getElem_cons_succ, stored]
              exact ih hnd.2 _ _ _

/-- A run of calls, by induction on the replies. -/
theorem readReplies_spec (peer : Peer σ) {ts : List Reply} (hts : ∀ t ∈ ts, t.Sound 2)
    {zs : List ℕ} (hlen : zs.length = ts.length) {c : ExtContext σ} {s : RedisReader} {S : Bytes}
    (hmem : ∀ z ∈ zs, ∃ v, s.mem z = some v) (h : Reading c s (Reply.encodeAll ts ++ S)) :
    ∃ c' s', readReplies peer zs c = .ok (zs.map fun z => (.ok, some ⟨z, []⟩), c') ∧
      Reading c' s' S ∧ s'.mem = stored s.mem zs ts := by
  induction ts generalizing zs c s with
  | nil =>
      obtain rfl := List.eq_nil_of_length_eq_zero hlen
      exact ⟨c, s, rfl, by simpa using h, rfl⟩
  | cons t ts ih =>
      cases zs with
      | nil => cases hlen
      | cons z zs =>
          rw [Reply.encodeAll_cons, List.append_assoc] at h
          obtain ⟨v, hv⟩ := hmem z (by simp)
          obtain ⟨c₁, s₁, hget, h₁, hmem₁⟩ := h.next peer hv (hts t (by simp))
          have halloc : ∀ y ∈ zs, ∃ w, s₁.mem y = some w := by
            intro y hy
            rw [hmem₁]
            by_cases hyz : y = z
            · exact ⟨t.value, by rw [hyz]; exact set_self s.mem z t.value⟩
            · obtain ⟨w, hw⟩ := hmem y (by simp [hy])
              exact ⟨w, by rw [Mem.set, Function.update_of_ne hyz, hw]⟩
          obtain ⟨c₂, s₂, hrun, h₂, hmem₂⟩ := ih (fun u hu => hts u (by simp [hu]))
            (Nat.succ.inj hlen) halloc h₁
          refine ⟨c₂, s₂, ?_, h₂, by rw [hmem₂, hmem₁]; rfl⟩
          simp only [readReplies, hget, hrun, Outcome.ok_bind, Outcome.pure_eq, List.map_cons]

/-- Reply decoding is exact and independent of how the bytes arrive: after any
number `n` of calls the first `n` variables hold the values of the first `n`
replies, the other variables are untouched, and exactly the bytes of the other
replies are left. -/
theorem readReplies_exact (peer : Peer σ) {ts : List Reply} (hts : ∀ t ∈ ts, t.Sound 2)
    {chunks : List Chunk} (hcut : (chunks.map Subtype.val).flatten = Reply.encodeAll ts)
    {zs : List ℕ} (hlen : zs.length = ts.length) (hnodup : zs.Nodup) {mem : Mem}
    (halloc : ∀ z ∈ zs, ∃ v, mem z = some v) {c : ExtContext σ}
    (hreader : c.reader = redisReplyReaderCreate mem) (hobuf : c.obuf = [])
    (hinbox : c.sock.inbox = chunks.map .data) {n : ℕ} (hn : n ≤ ts.length) :
    ∃ c', readReplies peer (zs.take n) c =
        .ok ((zs.take n).map fun z => (.ok, some ⟨z, []⟩), c') ∧
      (∀ i (hi : i < n), c'.reader.mem zs[i] = some ts[i].value) ∧
      (∀ y ∉ zs.take n, c'.reader.mem y = mem y) ∧
      c'.reader.unread ++ received c'.sock.inbox = Reply.encodeAll (ts.drop n) := by
  have hrcv : ∀ cs : List Chunk, received (cs.map .data) = (cs.map Subtype.val).flatten := by
    intro cs
    induction cs with
    | nil => rfl
    | cons c cs ih => simp [received, ih]
  have hquiet : Quiet c.sock.inbox := by
    intro r hr
    rw [hinbox] at hr
    obtain ⟨chunk, -, rfl⟩ := List.mem_map.mp hr
    trivial
  have hstart : Reading c (redisReplyReaderCreate mem)
      (Reply.encodeAll (ts.take n) ++ Reply.encodeAll (ts.drop n)) := {
    obuf := hobuf
    quiet := hquiet
    stream := by
      rw [← Reply.encodeAll_append, List.take_append_drop, hinbox, hrcv, hcut, hreader]
      rfl
    reader := by rw [hreader]; rfl
    error := rfl
    ridx := rfl
    reply := rfl }
  obtain ⟨c', s', hrun, hread, hmem⟩ := readReplies_spec peer
    (fun t ht => hts t (List.mem_of_mem_take ht))
    (show (zs.take n).length = (ts.take n).length by rw [List.length_take, List.length_take, hlen])
    (fun z hz => halloc z (List.mem_of_mem_take hz)) hstart
  have hmem' : c'.reader.mem = stored mem (zs.take n) (ts.take n) := by
    rw [hread.reader]
    exact hmem
  refine ⟨c', hrun, fun i hi => ?_, fun y hy => ?_, hread.stream⟩
  · have := @stored_getElem (zs.take n) (hnodup.sublist (List.take_sublist n zs)) mem (ts.take n) i
      (by rw [List.length_take]; omega) (by rw [List.length_take]; omega)
    rw [hmem']
    simpa only [List.getElem_take] using this
  · rw [hmem', stored_of_notMem hy]

/-- PONG and an array with a nested array, one byte at a time. -/
theorem readReplies_exact_bytewise :
    let ts : List Reply := [.status (ascii "PONG"),
      .array [.integer (-5), .array [.nil], .bulk [13, 10], .error (ascii "ERR")]]
    let chunks : List Chunk := (Reply.encodeAll ts).map fun b => ⟨[b], by simp⟩
    let c : ExtContext Unit := { (redisConnect 3 ⟨(), chunks.map .data, []⟩ : ExtContext Unit) with
      reader := redisReplyReaderCreate fun _ => some .null }
    ∃ c', readReplies silent [7, 5] c =
        .ok ([(.ok, some ⟨7, []⟩), (.ok, some ⟨5, []⟩)], c') ∧
      c'.reader.mem 5 = some (.array [(.index 0, .long (-5)),
        (.index 1, .array [(.index 0, .bool false)]), (.index 2, .string [13, 10]),
        (.index 3, .bool false)]) ∧
      c'.reader.mem 7 = some (.string (ascii "+PONG")) := by
  intro ts chunks c
  have hts : ∀ t ∈ ts, t.Sound 2 := by
    intro t ht
    simp only [ts, List.mem_cons, List.not_mem_nil, or_false] at ht
    rcases ht with rfl | rfl
    · exact (by decide : findCRLF (ascii "PONG") = none)
    · simp [Reply.Sound]
      decide
  obtain ⟨c', hrun, hval, -, -⟩ := @readReplies_exact Unit silent ts hts chunks
    (by decide) [7, 5] rfl (by decide) (fun _ => some .null) (fun _ _ => ⟨_, rfl⟩) c rfl rfl rfl 2
    le_rfl
  refine ⟨c', hrun, ?_, ?_⟩
  · refine (hval 1 (by decide)).trans ?_
    simp [ts, Reply.value, listTable, List.zipIdx]
  · exact hval 0 (by decide)

end PhpHiredis
