import PhpHiredis.Delivery
import PhpHiredis.Sock

/-!
# What arrives for a call

A call writes its request and reads with a new reader. `Arrives` says what it
finds: the output buffer is written to the end, and then the socket delivers
some bytes, cut in any way, before anything else happens. Who the peer is, and
what happens after, does not matter to a call that finds a whole reply.
-/
namespace PhpHiredis

open Library Library.Incremental Reader

variable {σ : Type}

/-- Everything is written, and then `bytes` come before `tail`. -/
def Arrives (peer : Peer σ) (c : ExtContext σ) (bytes : Bytes) (tail : List ReadResult) : Prop :=
  ∃ c₁ rs, flush peer c.sock.writes c = (.ok, c₁) ∧ c₁.sock.inbox = rs ++ tail ∧ Quiet rs ∧
    received rs = bytes

theorem redisBufferWrite_reader (peer : Peer σ) (r : RedisReader) (c : ExtContext σ)
    (w : WriteResult) :
    redisBufferWrite peer { c with reader := r } w =
      let (st, done, c') := redisBufferWrite peer c w
      (st, done, { c' with reader := r }) := by
  unfold redisBufferWrite
  cases w <;> simp only [] <;> split_ifs <;> rfl

theorem flush_reader (peer : Peer σ) (r : RedisReader) (ws : List WriteResult)
    (c : ExtContext σ) :
    flush peer ws { c with reader := r } =
      ((flush peer ws c).1, { (flush peer ws c).2 with reader := r }) := by
  induction ws generalizing c with
  | nil =>
      have hwrite := redisBufferWrite_reader peer r
        { c with sock := { c.sock with writes := [] } } (.wrote c.obuf.length)
      simp only [flush, hwrite]
  | cons w ws ih =>
      by_cases h0 : c.obuf = []
      · simp only [flush, h0, if_true]
      · have hwrite := redisBufferWrite_reader peer r
          { c with sock := { c.sock with writes := ws } } w
        simp only [flush, h0, if_false, hwrite]
        generalize redisBufferWrite peer { c with sock := { c.sock with writes := ws } } w = p
        obtain ⟨st, done, c'⟩ := p
        cases st with
        | err => rfl
        | ok =>
            cases done with
            | true => rfl
            | false => exact ih c'

theorem Arrives.withReader {peer : Peer σ} {c : ExtContext σ} {bytes : Bytes}
    {tail : List ReadResult} (h : Arrives peer c bytes tail) (r : RedisReader) :
    Arrives peer { c with reader := r } bytes tail := by
  obtain ⟨c₁, rs, hflush, hinbox, hq, hrcv⟩ := h
  refine ⟨{ c₁ with reader := r }, rs, ?_, hinbox, hq, hrcv⟩
  rw [flush_reader, hflush]

/-- The new reader of a call, with the variable `x`. -/
def readerOf (mem : Mem) (x : ℕ) : RedisReader :=
  { redisReplyReaderCreate mem with privdata := some x }

theorem idle_readerOf (mem : Mem) (x : ℕ) : Idle (readerOf mem x) x := ⟨rfl, rfl, rfl, rfl⟩

theorem Arrives.getReply {peer : Peer σ} {c : ExtContext σ} {bytes : Bytes}
    {tail : List ReadResult} (h : Arrives peer c bytes tail) {mem : Mem}
    (hc : c.reader = redisReplyReaderCreate mem) (x : ℕ) :
    ∃ c₁ rs, redisGetReply peer { c with reader := redisReplyReaderSetPrivdata c.reader x } =
        readReply ((rs ++ tail).length + 1) c₁ ∧
      c₁.reader = (readerOf mem x).holding [] ∧ c₁.sock.inbox = rs ++ tail ∧ Quiet rs ∧
        received rs = bytes := by
  obtain ⟨c₁, rs, hflush, hinbox, hq, hrcv⟩ := h
  have hset : redisReplyReaderSetPrivdata c.reader x = (readerOf mem x).holding [] := by
    rw [hc]
    rfl
  refine ⟨{ c₁ with reader := (readerOf mem x).holding [] }, rs, ?_, rfl, hinbox, hq, hrcv⟩
  rw [hset]
  simp only [redisGetReply, redisGetReplyFromReader, getReply_eq, redisReplyReaderGetReply_nil,
    Outcome.ok_bind, Outcome.pure_eq, flush_reader, hflush, hinbox]

/-- The reader is between two replies. -/
structure Ready (r : RedisReader) : Prop where
  buf : r = r.holding r.unread
  error : r.error = none
  ridx : r.ridx = -1
  reply : r.reply = none

theorem ready_create (mem : Mem) : Ready (redisReplyReaderCreate mem) := ⟨rfl, rfl, rfl, rfl⟩

/-- The bytes `S` come before `tail`: the reader holds the first of them, and the
others arrive. -/
structure Coming (peer : Peer σ) (tail : List ReadResult) (c : ExtContext σ) (S : Bytes) :
    Prop where
  ready : Ready c.reader
  arrives : ∃ rest, c.reader.unread ++ rest = S ∧ Arrives peer c rest tail

theorem Arrives.coming {peer : Peer σ} {c : ExtContext σ} {bytes : Bytes}
    {tail : List ReadResult} (h : Arrives peer c bytes tail) {mem : Mem}
    (hc : c.reader = redisReplyReaderCreate mem) : Coming peer tail c bytes where
  ready := by
    rw [hc]
    exact ready_create mem
  arrives := by
    rw [hc]
    exact ⟨bytes, rfl, h⟩

theorem flush_done {peer : Peer σ} {ws : List WriteResult} {c c₁ : ExtContext σ}
    (h : flush peer ws c = (.ok, c₁)) : c₁.obuf = [] := by
  induction ws generalizing c with
  | nil =>
      by_cases h0 : c.obuf = []
      · rw [flush_empty peer [] h0] at h
        cases h
        exact h0
      · have hlen : c.obuf.length ≠ 0 := fun hl => h0 (List.eq_nil_of_length_eq_zero hl)
        simp only [flush, redisBufferWrite, h0, if_false, Nat.min_self, hlen] at h
        cases h
        exact List.drop_length
  | cons w ws ih =>
      by_cases h0 : c.obuf = []
      · rw [flush_empty peer (w :: ws) h0] at h
        cases h
        exact h0
      · simp only [flush, h0, if_false] at h
        cases w with
        | error msg =>
            simp only [redisBufferWrite, h0, if_false] at h
            cases h
        | again =>
            simp only [redisBufferWrite, h0, if_false, Bool.false_eq_true] at h
            exact ih h
        | wrote n =>
            by_cases hn : min n c.obuf.length = 0
            · simp only [redisBufferWrite, h0, if_false, hn, if_true, Bool.false_eq_true] at h
              exact ih h
            · simp only [redisBufferWrite, h0, if_false, hn] at h
              by_cases hdone : c.obuf.drop (min n c.obuf.length) = []
              · simp only [hdone, decide_true, if_true] at h
                cases h
                rfl
              · simp only [hdone, decide_false, Bool.false_eq_true, if_false] at h
                exact ih h

namespace Coming

variable {peer : Peer σ} {tail : List ReadResult} {c : ExtContext σ} {e : Reply} {S : Bytes}

theorem withMem (h : Coming peer tail c S) (mem : Mem) :
    Coming peer tail { c with reader := { c.reader with mem := mem } } S where
  ready := ⟨congrArg (fun r => { r with mem := mem }) h.ready.buf, h.ready.error, h.ready.ridx,
    h.ready.reply⟩
  arrives := by
    obtain ⟨rest, hrest, harr⟩ := h.arrives
    exact ⟨rest, hrest, harr.withReader _⟩

/-- One reply is read, whoever the peer is: it is there already, or the output
buffer is written and reads follow. -/
theorem readInto (h : Coming peer tail c (e.encode ++ S)) (he : e.Sound 2) {x : ℕ} {z : Zval}
    (hz : c.reader.mem x = some z) :
    ∃ c', PhpHiredis.readInto peer c x = .ok (e.value, c') ∧ Coming peer tail c' S := by
  let t : RedisReader := { c.reader with privdata := some x }
  let c₀ : ExtContext σ := { c with reader := redisReplyReaderSetPrivdata c.reader x }
  have ht : Idle t x := ⟨h.ready.error, h.ready.ridx, h.ready.reply, rfl⟩
  obtain ⟨s', hf, hidle, hmem⟩ := ht.finishes (show t.mem x = some z from hz) he
  have hc : c₀.reader = t.holding c.reader.unread := by
    have hset := setPrivdata_holding h.ready.reply c.reader.unread x
    rw [← h.ready.buf] at hset
    exact hset
  have hval : ∀ bytes, (s'.emitted.holding bytes).mem x = some e.value := by
    intro bytes
    change s'.mem x = some e.value
    rw [hmem]
    exact set_self _ x e.value
  have hready : ∀ bytes, Ready (s'.emitted.holding bytes) := fun _ =>
    ⟨rfl, hidle.error, hidle.ridx, hidle.reply⟩
  obtain ⟨rest, hrest, harr⟩ := h.arrives
  rcases redisGetReply_eq peer ht hf hc hrest with ⟨rest', hget, hS⟩ | ⟨s₁, ys, hm, hget⟩
  · refine ⟨{ c₀ with reader := s'.emitted.holding rest' }, ?_, hready rest', rest, hS,
      harr.withReader _⟩
    rw [PhpHiredis.readInto, hget]
    simp only [Outcome.ok_bind, hval, Outcome.pure_eq]
  · obtain ⟨c₁, rs, hflush, hinbox, hq, hrcv⟩ := harr
    have hflush₁ : flush peer c₀.sock.writes { c₀ with reader := s₁.holding ys } =
        (.ok, { c₁ with reader := s₁.holding ys }) := by
      change flush peer c.sock.writes { c with reader := s₁.holding ys } = _
      rw [flush_reader, hflush]
    rw [← hrcv] at hrest
    obtain ⟨rest', rs', hread, hq', hS⟩ := readReply_eq hf hq
      (show rs.length < (rs ++ tail).length + 1 by rw [List.length_append]; omega) hm hrest
      { c₁ with reader := s₁.holding ys } rfl hinbox
    let c₂ : ExtContext σ := { c₁ with
      reader := s'.emitted.holding rest'
      sock := { c₁.sock with inbox := rs' ++ tail } }
    have hobuf : c₁.obuf = [] := flush_done hflush
    refine ⟨c₂, ?_, hready rest', received rs', hS, _, rs', flush_empty peer _ hobuf, rfl, hq', rfl⟩
    rw [PhpHiredis.readInto, hget _ hflush₁]
    simp only [hinbox, hread, Outcome.ok_bind, hval, Outcome.pure_eq]
    rfl

end Coming

theorem Arrives.readInto {peer : Peer σ} {c : ExtContext σ} {e : Reply} {S : Bytes}
    {tail : List ReadResult} (h : Arrives peer c (e.encode ++ S) tail) (he : e.Sound 2) {mem : Mem}
    (hc : c.reader = redisReplyReaderCreate mem) {x : ℕ} {z : Zval} (hz : mem x = some z) :
    ∃ c', PhpHiredis.readInto peer c x = .ok (e.value, c') := by
  have hmem : c.reader.mem x = some z := by
    rw [hc]
    exact hz
  obtain ⟨c', hread, -⟩ := (h.coming hc).readInto he hmem
  exact ⟨c', hread⟩

/-- The peer answers every write with the same reads. -/
def answering (rs : List ReadResult) : Peer Unit := ⟨fun s _ => (s, rs)⟩

/-- Nothing has been sent or read yet, and a write takes everything. -/
def newConnection : RedisSock Unit := .connected (redisConnect 3 ⟨(), [], []⟩)

theorem arrives_answering {rs : List ReadResult} (hq : Quiet rs) (tail : List ReadResult)
    {request : Bytes} (hne : request ≠ []) :
    Arrives (answering (rs ++ tail)) (redisAppend newConnection.ctx request) (received rs)
      tail := by
  let c := redisAppend newConnection.ctx request
  have hobuf : c.obuf = request := rfl
  have hlen : request.length ≠ 0 := fun h => hne (List.eq_nil_of_length_eq_zero h)
  have hflush : flush (answering (rs ++ tail)) [] c =
      (.ok, { c with obuf := [], sock := ⟨(), rs ++ tail, []⟩ }) := by
    simp only [flush, redisBufferWrite, hobuf, hne, if_false, Nat.min_self, hlen,
      List.drop_length, List.take_length]
    rfl
  exact ⟨_, rs, hflush, rfl, hq, rfl⟩

/-- A peer with one answer to every write, as long as they last. -/
def scripted : Peer (List (List ReadResult)) where
  receive answers _ :=
    match answers with
    | [] => ([], [])
    | answer :: rest => (rest, answer)

def arriving (bytes : Bytes) : List ReadResult :=
  if h : bytes = [] then [] else [.data ⟨bytes, h⟩]

theorem quiet_arriving (bytes : Bytes) : Quiet (arriving bytes) := by
  unfold arriving
  split_ifs with h
  · exact fun _ hr => (List.not_mem_nil hr).elim
  · exact quiet_data ⟨bytes, h⟩

theorem received_arriving (bytes : Bytes) : received (arriving bytes) = bytes := by
  unfold arriving
  split_ifs with h
  · exact h.symm
  · exact List.append_nil bytes

theorem arrives_scripted {c : ExtContext (List (List ReadResult))} {bytes : Bytes}
    {rest : List (List ReadResult)} (hsock : c.sock = ⟨arriving bytes :: rest, [], []⟩)
    (hobuf : c.obuf ≠ []) : Arrives scripted c bytes [] := by
  have hlen : c.obuf.length ≠ 0 := fun h => hobuf (List.eq_nil_of_length_eq_zero h)
  refine ⟨{ c with obuf := [], sock := ⟨rest, arriving bytes, []⟩ }, arriving bytes, ?_,
    (List.append_nil _).symm, quiet_arriving bytes, received_arriving bytes⟩
  simp only [hsock, flush, redisBufferWrite, hobuf, if_false, Nat.min_self, hlen, List.drop_length,
    List.take_length]
  rfl

end PhpHiredis
