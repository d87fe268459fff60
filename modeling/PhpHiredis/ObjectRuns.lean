import PhpHiredis.DefaultReader
import PhpHiredis.Library.Reached
import PhpHiredis.Parsing

/-!
# Clients of the library's reader

`redisReplyReaderGetReply` returns what the machine has read, and a whole run of a
client can be followed on the machine alone: the bytes arrive in any pieces, replies
are asked for at any time, and the client frees those it holds in any order. In every
state of a run the cells in use are those of the replies that the client holds and
those of the reply under way.
-/
namespace PhpHiredis.Objects

open Library Library.Incremental Library.Trees Reader

/-- The reader between two replies. -/
structure Idle (r : ObjectReader) : Prop where
  error : r.error = none
  ridx : r.ridx = -1
  reply : r.reply = none

/-- The reader between two calls. -/
def Rests (r : ObjectReader) (st : State) (F : Finset ℕ) : Prop :=
  (Idle r ∧ st = .item [] none ∧ F = ∅) ∨
    (Represents r st F ∧ ∃ stack type, st = .item stack type)

/-- What a call returns where the machine has come to `p`. -/
inductive Answers (h₀ : ReplyHeap) (out : Finset ℕ) (p : State × Bytes) :
    Status × Option ℕ × ObjectReader → Prop
  | reply {o : Obj} {a : ℕ} {G : Finset ℕ} {r : ObjectReader} (hp : p.1 = .done o)
      (holds : Holds r.mem (some a) o G) (idle : Idle r) (buffered : Buffered r p.2)
      (ledger : CellLedger h₀ r.mem G out) : Answers h₀ out p (.ok, some a, r)
  | more {stack : List OpenArray} {type : Option ReplyType} {G : Finset ℕ} {r : ObjectReader}
      (hp : p.1 = .item stack type) (rests : Rests r (.item stack type) G)
      (buffered : Buffered r p.2) (ledger : CellLedger h₀ r.mem G out) :
      Answers h₀ out p (.ok, none, r)
  | error {err : Bytes} {r : ObjectReader} (hp : p.1 = .failed err) (error : r.error = some err)
      (reply : r.reply = none) (ledger : CellLedger h₀ r.mem ∅ out) :
      Answers h₀ out p (.err, none, r)

section
variable {r : ObjectReader} {F out : Finset ℕ} {h₀ : ReplyHeap} {xs : Bytes} {st : State}

theorem discardConsumed_eq (r : ObjectReader) :
    ∃ b p l, discardConsumed r = { r with buf := b, pos := p, len := l } := by
  unfold discardConsumed
  by_cases hpos : 0 < r.pos
  · rw [if_pos hpos]
    exact ⟨_, _, _, rfl⟩
  · rw [if_neg hpos]
    exact ⟨_, _, _, rfl⟩

theorem Buffered.discardConsumed (hb : Buffered r xs) : Buffered (discardConsumed r) xs := by
  unfold Objects.discardConsumed
  split_ifs with hpos hall
  · refine ⟨rfl, Nat.zero_le _, ?_⟩
    have hunread := hb.unread
    rw [RedisReader.unread, hall, hb.len, List.drop_length] at hunread
    exact hunread
  · have hlt : r.pos < r.buf.length := by
      have h₁ := hb.pos
      have h₂ := hb.len
      omega
    refine ⟨rfl, Nat.zero_le _, ?_⟩
    rw [← hb.unread]
    simp only [RedisReader.unread, hb.len, sdsrange_tail hlt, List.drop_zero]
  · exact hb

theorem Rests.withBuf (h : Rests r st F) (b : Bytes) (p l : ℕ) :
    Rests { r with buf := b, pos := p, len := l } st F := by
  rcases h with ⟨hidle, hst, hF⟩ | ⟨hrep, stack, type, rfl⟩
  · exact .inl ⟨⟨hidle.error, hidle.ridx, hidle.reply⟩, hst, hF⟩
  · obtain ⟨arrays, hstack, hwork, htype⟩ := hrep
    exact .inr ⟨⟨arrays, hstack, ⟨hwork.error, hwork.ridx, hwork.tasks, hwork.tree⟩, htype⟩, _, _,
      rfl⟩

theorem Rests.withMem (h : Rests r st F) {mem : ReplyHeap}
    (hmem : ∀ a ∈ F, mem.cells a = r.mem.cells a) : Rests { r with mem := mem } st F := by
  rcases h with ⟨hidle, hst, hF⟩ | ⟨hrep, stack, type, rfl⟩
  · exact .inl ⟨⟨hidle.error, hidle.ridx, hidle.reply⟩, hst, hF⟩
  · obtain ⟨arrays, hstack, hwork, htype⟩ := hrep
    exact .inr ⟨⟨arrays, hstack,
      ⟨hwork.error, hwork.ridx, hwork.tasks, hwork.tree.congr hmem⟩, htype⟩, _, _, rfl⟩

theorem drain_nil {stack : List OpenArray} {type : Option ReplyType} :
    drain step (.item stack type) [] = (.item stack type, []) := by
  refine drain_stop ?_
  cases type <;> rfl

theorem Rests.started (h : Rests r st F) (hl : CellLedger h₀ r.mem F out) (hb : Buffered r xs) :
    ∃ arrays, st = .item (arrays.map Prod.snd) (startReply r).cur.type ∧
      Working (startReply r) arrays F ∧ CellLedger h₀ (startReply r).mem F out ∧
      Buffered (startReply r) xs := by
  unfold startReply
  rcases h with ⟨hidle, rfl, rfl⟩ | ⟨hrep, stack, type, rfl⟩
  · rw [if_pos hidle.ridx]
    refine ⟨[], ?_, ⟨hidle.error, rfl, ?_, hidle.reply, rfl⟩, hl, ⟨hb.len, hb.pos, hb.unread⟩⟩
    · simp [RedisReader.cur]
    · simp [Tasks]
  · obtain ⟨arrays, rfl, hwork, rfl⟩ := hrep
    have hridx : r.ridx ≠ -1 := by rw [hwork.ridx]; omega
    rw [if_neg hridx]
    exact ⟨arrays, rfl, hwork, hl, hb⟩

theorem Represents.emitted {p : State × Bytes} {G : Finset ℕ} (hrep : Represents r p.1 G)
    (hb : (∀ err, p.1 ≠ .failed err) → Buffered r p.2) (hl : CellLedger h₀ r.mem G out)
    (hvalid : Valid p.1) : Answers h₀ out p (emitReply (discardConsumed r)) := by
  obtain ⟨b, q, l, heq⟩ := discardConsumed_eq r
  have hbuf : (∀ err, p.1 ≠ .failed err) →
      Buffered { r with buf := b, pos := q, len := l } p.2 := by
    intro hne
    rw [← heq]
    exact (hb hne).discardConsumed
  rw [heq]
  unfold emitReply
  cases hp : p.1 with
  | item stack type =>
      rw [hp] at hrep hbuf
      obtain ⟨arrays, rfl, hwork, rfl⟩ := hrep
      have hridx : r.ridx ≠ -1 := by rw [hwork.ridx]; omega
      rw [if_neg hridx]
      refine .more hp (.inr ⟨⟨arrays, rfl, ?_, rfl⟩, _, _, rfl⟩) (hbuf nofun) hl
      exact ⟨hwork.error, hwork.ridx, hwork.tasks, hwork.tree⟩
  | done o =>
      rw [hp] at hrep hbuf hvalid
      obtain ⟨herror, hridx, holds⟩ := hrep
      obtain ⟨a, ha⟩ : ∃ a, r.reply = some a := by
        cases o with
        | null => exact absurd rfl hvalid.2
        | node v ts =>
            obtain ⟨a, _, _, ha, -⟩ := holds_node.mp holds
            exact ⟨a, ha⟩
      have hbuf' := hbuf nofun
      rw [if_pos hridx]
      simp only [herror, ha]
      refine .reply hp (by rw [← ha]; exact holds) ⟨rfl, hridx, rfl⟩ ?_ hl
      exact ⟨hbuf'.len, hbuf'.pos, hbuf'.unread⟩
  | failed err =>
      rw [hp] at hrep
      obtain ⟨herror, hridx, rfl⟩ := hrep
      rw [if_pos hridx]
      simp only [herror]
      exact .error hp rfl rfl hl
  | overflow =>
      rw [hp] at hrep
      exact hrep.elim

end

theorem valid_drain {st : State} (h : Valid st) (xs : Bytes) : Valid (drain step st xs).1 := by
  induction st, xs using induction_on_steps step_local with
  | stop st xs hstop => rwa [drain_stop hstop]
  | next st xs st' ys hstep ih =>
      rw [drain_step step_local hstep]
      refine ih ?_
      cases st with
      | item stack type =>
          cases type with
          | none =>
              cases xs with
              | nil => cases hstep
              | cons b xs =>
                  cases hstep
                  exact h.typeStep b
          | some t => exact valid_typedStep h hstep
      | done | failed | overflow => cases hstep

theorem redisReplyReaderGetReply_answers {r : ObjectReader} {st : State} {F out : Finset ℕ}
    {h₀ : ReplyHeap} {xs : Bytes} (h : Rests r st F) (hl : CellLedger h₀ r.mem F out)
    (hb : Buffered r xs) (hvalid : Valid st) (hover : (drain step st xs).1 ≠ .overflow) :
    ∃ x, redisReplyReaderGetReply defaultFunctions r = .ok x ∧
      Answers h₀ out (drain step st xs) x := by
  have hlen := hb.length
  unfold redisReplyReaderGetReply
  by_cases hempty : r.len = 0
  · have hxs : xs = [] := List.eq_nil_of_length_eq_zero (by omega)
    subst hxs
    obtain ⟨stack, type, rfl⟩ : ∃ stack type, st = .item stack type := by
      rcases h with ⟨-, rfl, -⟩ | ⟨-, hst⟩
      · exact ⟨_, _, rfl⟩
      · exact hst
    rw [if_pos hempty, drain_nil]
    exact ⟨_, rfl, .more rfl h hb hl⟩
  · obtain ⟨arrays, rfl, hwork, hl', hb'⟩ := h.started hl hb
    rw [if_neg hempty]
    obtain ⟨r', G, hrun, hrep, hbuf, hledger⟩ :=
      loop_settles (r.len - r.pos + 1) hwork hl' hb' hvalid (by omega) hover
    rw [hrun]
    exact ⟨_, rfl, hrep.emitted hbuf hledger (valid_drain hvalid xs)⟩

inductive ClientOp where
  | feed (bytes : Bytes)
  | getReply
  | free (i : ℕ)

/-- The replies that the client holds, oldest first, and what its calls returned. -/
structure Client where
  reader : ObjectReader
  held : List ℕ
  statuses : List Status

def newClient : Client := ⟨redisReplyReaderCreate Heap.empty, [], []⟩

def Client.step (c : Client) : ClientOp → Run Client
  | .feed bytes => return { c with reader := redisReplyReaderFeed c.reader bytes }
  | .getReply => do
      let (status, reply, reader) ← redisReplyReaderGetReply defaultFunctions c.reader
      return ⟨reader, c.held ++ reply.toList, c.statuses ++ [status]⟩
  | .free i =>
      match c.held[i]? with
      | some obj => do
          let mem ← freeReplyObject obj c.reader.mem
          return { c with reader := { c.reader with mem := mem }, held := c.held.eraseIdx i }
      | none => return c

def Client.run (c : Client) : List ClientOp → Run Client
  | [] => return c
  | op :: ops => do
      let c ← c.step op
      c.run ops

/-- The same on the machine. -/
structure Progress where
  state : State
  unread : Bytes
  held : List Obj
  statuses : List Status

def newProgress : Progress := ⟨.item [] none, [], [], []⟩

namespace Progress

def fetch (m : Progress) : Progress :=
  match drain step m.state m.unread with
  | (.done o, xs) => ⟨.item [] none, xs, m.held ++ [o], m.statuses ++ [.ok]⟩
  | (.failed err, xs) => ⟨.failed err, xs, m.held, m.statuses ++ [.err]⟩
  | (st, xs) => ⟨st, xs, m.held, m.statuses ++ [.ok]⟩

def step (m : Progress) : ClientOp → Progress
  | .feed bytes => { m with unread := m.unread ++ bytes }
  | .getReply => m.fetch
  | .free i => { m with held := m.held.eraseIdx i }

def run (m : Progress) (ops : List ClientOp) : Progress := ops.foldl step m

/-- The reader is not used after an error, and arrays have counts that memory is
made for. -/
def Allowed (m : Progress) : ClientOp → Prop
  | .feed _ => ∃ stack type, m.state = .item stack type
  | .getReply => (∃ stack type, m.state = .item stack type) ∧
      (Incremental.drain Objects.step m.state m.unread).1 ≠ .overflow
  | .free _ => True

def AllAllowed (m : Progress) : List ClientOp → Prop
  | [] => True
  | op :: ops => m.Allowed op ∧ (m.step op).AllAllowed ops

end Progress

/-- The client is where the machine is: the cells in `out` are those of the replies
that it holds, the cells in `F` those of the reply under way. -/
structure Follows (c : Client) (m : Progress) (F out : Finset ℕ) : Prop where
  statuses : c.statuses = m.statuses
  held : HoldsAll c.reader.mem (c.held.map some) m.held out
  shaped : ∀ o ∈ m.held, Shaped o
  ledger : CellLedger c.reader.mem c.reader.mem F out
  valid : Valid m.state
  reading : ∀ stack type, m.state = .item stack type →
    Rests c.reader m.state F ∧ Buffered c.reader m.unread
  failed : ∀ err, m.state = .failed err →
    c.reader.error = some err ∧ c.reader.reply = none ∧ F = ∅
  running : m.state ≠ .overflow ∧ ∀ o, m.state ≠ .done o

theorem follows_new : Follows newClient newProgress ∅ ∅ where
  statuses := rfl
  held := holdsAll_nil.mpr ⟨rfl, rfl⟩
  shaped := nofun
  ledger := ⟨fun _ _ => rfl,
    Finset.disjoint_empty_left _, by simp [newClient, redisReplyReaderCreate,
    Heap.empty], fun _ _ => rfl⟩
  valid := ⟨by decide, nofun, nofun, nofun⟩
  reading := fun _ _ _ => ⟨.inl ⟨⟨rfl, rfl, rfl⟩, rfl, rfl⟩, rfl, Nat.zero_le _, rfl⟩
  failed := nofun
  running := ⟨nofun, nofun⟩

theorem CellLedger.rebase {h₀ h : ReplyHeap} {F out : Finset ℕ} (hl : CellLedger h₀ h F out) :
    CellLedger h h F out := ⟨hl.fresh, hl.apart, hl.used, fun _ _ => rfl⟩

section
variable {c : Client} {m : Progress} {F out : Finset ℕ}

theorem Buffered.feed {r : ObjectReader} {xs : Bytes} (hb : Buffered r xs) (bytes : Bytes) :
    Buffered (redisReplyReaderFeed r bytes) (xs ++ bytes) := by
  unfold redisReplyReaderFeed
  have hpos := hb.pos
  have hlen := hb.len
  split_ifs with hne
  · refine ⟨rfl, ?_, ?_⟩
    · change r.pos ≤ (r.buf ++ bytes).length
      rw [List.length_append]
      omega
    · rw [← hb.unread]
      change (r.buf ++ bytes).drop r.pos = r.buf.drop r.pos ++ bytes
      exact List.drop_append_of_le_length (by omega)
  · have hempty : bytes = [] := List.eq_nil_of_length_eq_zero (by omega)
    rw [hempty, List.append_nil]
    exact hb

theorem redisReplyReaderFeed_eq (r : ObjectReader) (bytes : Bytes) :
    ∃ b l, redisReplyReaderFeed r bytes = { r with buf := b, len := l } := by
  unfold redisReplyReaderFeed
  by_cases hne : 1 ≤ bytes.length
  · rw [if_pos hne]
    exact ⟨_, _, rfl⟩
  · rw [if_neg hne]
    exact ⟨_, _, rfl⟩

theorem Follows.feed (h : Follows c m F out) (bytes : Bytes) (hm : m.Allowed (.feed bytes)) :
    ∃ c', c.step (.feed bytes) = .ok c' ∧ Follows c' (m.step (.feed bytes)) F out := by
  obtain ⟨stack, type, hstate⟩ := hm
  obtain ⟨hrests, hbuf⟩ := h.reading stack type hstate
  have hbuf' := hbuf.feed bytes
  obtain ⟨b, l, heq⟩ := redisReplyReaderFeed_eq c.reader bytes
  rw [heq] at hbuf'
  refine ⟨⟨{ c.reader with buf := b, len := l }, c.held, c.statuses⟩, ?_, ?_⟩
  · rw [Client.step, heq]
    rfl
  · exact {
      statuses := h.statuses
      held := h.held
      shaped := h.shaped
      ledger := h.ledger
      valid := h.valid
      reading := fun _ _ _ => ⟨hrests.withBuf b c.reader.pos l, hbuf'⟩
      failed := fun err herr => absurd (hstate.symm.trans herr) nofun
      running := h.running }

theorem Follows.getReply (h : Follows c m F out) (hm : m.Allowed .getReply) :
    ∃ c' F' out', c.step .getReply = .ok c' ∧ Follows c' (m.step .getReply) F' out' := by
  obtain ⟨⟨stack, type, hstate⟩, hover⟩ := hm
  obtain ⟨hrests, hbuf⟩ := h.reading stack type hstate
  obtain ⟨x, hrun, hanswers⟩ := redisReplyReaderGetReply_answers hrests h.ledger hbuf h.valid hover
  have hvalid := valid_drain h.valid m.unread
  have hheld : ∀ {r : ObjectReader} {G : Finset ℕ}, CellLedger c.reader.mem r.mem G out →
      HoldsAll r.mem (c.held.map some) m.held out := fun hl => h.held.congr hl.kept
  generalize hp : drain Objects.step m.state m.unread = p at hanswers hvalid
  obtain ⟨st, xs⟩ := p
  cases hanswers with
  | @reply o a G r hst holds idle buffered ledger =>
      obtain rfl : st = .done o := hst
      refine ⟨⟨r, c.held ++ [a], c.statuses ++ [.ok]⟩, ∅, out ∪ G, ?_, ?_⟩
      · rw [Client.step, hrun]
        rfl
      · have hm : m.step .getReply = ⟨.item [] none, xs, m.held ++ [o], m.statuses ++ [.ok]⟩ := by
          simp only [Progress.step, Progress.fetch, hp]
        rw [hm]
        exact {
          statuses := by rw [h.statuses]
          held := by
            rw [List.map_append]
            exact (hheld ledger).snoc holds ledger.apart.symm
          shaped := by
            intro o' ho'
            rcases List.mem_append.mp ho' with ho' | ho'
            · exact h.shaped o' ho'
            · exact List.mem_singleton.mp ho' ▸ hvalid.1
          ledger := ⟨ledger.fresh, Finset.disjoint_empty_left _, fun a => by
            rw [ledger.used, Finset.empty_union, Finset.union_comm], fun _ _ => rfl⟩
          valid := ⟨by decide, nofun, nofun, nofun⟩
          reading := fun _ _ _ => ⟨.inl ⟨idle, rfl, rfl⟩, buffered⟩
          failed := nofun
          running := ⟨nofun, nofun⟩ }
  | @more stack' type' G r hst rests buffered ledger =>
      obtain rfl : st = .item stack' type' := hst
      refine ⟨⟨r, c.held ++ [], c.statuses ++ [.ok]⟩, G, out, ?_, ?_⟩
      · rw [Client.step, hrun]
        rfl
      · have hm : m.step .getReply = ⟨.item stack' type', xs, m.held, m.statuses ++ [.ok]⟩ := by
          simp only [Progress.step, Progress.fetch, hp]
        rw [hm, List.append_nil]
        exact {
          statuses := by rw [h.statuses]
          held := hheld ledger
          shaped := h.shaped
          ledger := ledger.rebase
          valid := hvalid
          reading := fun _ _ _ => ⟨rests, buffered⟩
          failed := nofun
          running := ⟨nofun, nofun⟩ }
  | @error err r hst herror hreply ledger =>
      obtain rfl : st = .failed err := hst
      refine ⟨⟨r, c.held ++ [], c.statuses ++ [.err]⟩, ∅, out, ?_, ?_⟩
      · rw [Client.step, hrun]
        rfl
      · have hm : m.step .getReply = ⟨.failed err, xs, m.held, m.statuses ++ [.err]⟩ := by
          simp only [Progress.step, Progress.fetch, hp]
        rw [hm, List.append_nil]
        exact {
          statuses := by rw [h.statuses]
          held := hheld ledger
          shaped := h.shaped
          ledger := ledger.rebase
          valid := trivial
          reading := nofun
          failed := by
            rintro err' herr'
            cases herr'
            exact ⟨herror, hreply, rfl⟩
          running := ⟨nofun, nofun⟩ }

theorem Follows.free (h : Follows c m F out) (i : ℕ) :
    ∃ c' out', c.step (.free i) = .ok c' ∧ Follows c' (m.step (.free i)) F out' := by
  cases hi : c.held[i]? with
  | none =>
      have hlen := h.held.length
      have hle : m.held.length ≤ i := by
        rw [List.length_map] at hlen
        rw [← hlen]
        exact List.getElem?_eq_none_iff.mp hi
      refine ⟨c, out, by rw [Client.step, hi]; rfl, ?_⟩
      have hm : m.step (.free i) = m := by
        rw [Progress.step, List.eraseIdx_of_length_le hle]
      rw [hm]
      exact h
  | some a =>
      obtain ⟨t, A, B, ht, hold, hothers, hAB, rfl⟩ := h.held.eraseIdx (i := i) (p := some a)
        (by rw [List.getElem?_map, hi]; rfl)
      have hshape := h.shaped t (List.mem_of_getElem? ht)
      obtain ⟨mem, hfree, hfreed⟩ := freeReplyObject_holds h.ledger.fresh hshape hold
      obtain ⟨hFA, hFB⟩ := Finset.disjoint_union_right.mp h.ledger.apart
      refine ⟨⟨{ c.reader with mem := mem }, c.held.eraseIdx i, c.statuses⟩, B, ?_, ?_⟩
      · rw [Client.step, hi]
        simp only [hfree, Outcome.ok_bind, Outcome.pure_eq]
      · exact {
          statuses := h.statuses
          held := by
            rw [← List.eraseIdx_map]
            exact hothers.congr (hfreed.kept hAB)
          shaped := fun o ho => h.shaped o (List.mem_of_mem_eraseIdx ho)
          ledger := ⟨hfreed.fresh h.ledger.fresh, hFB, fun b => by
            have hused := h.ledger.used b
            rw [hfreed.cells]
            by_cases hb : b ∈ A
            · have hnF := Finset.disjoint_right.mp hFA hb
              have hnB := Finset.disjoint_left.mp hAB hb
              simp [hb, hnF, hnB]
            · simpa [hb] using hused, fun _ _ => rfl⟩
          valid := h.valid
          reading := fun stack type hst =>
            ⟨(h.reading stack type hst).1.withMem (hfreed.kept hFA.symm),
              ⟨(h.reading stack type hst).2.len, (h.reading stack type hst).2.pos,
                (h.reading stack type hst).2.unread⟩⟩
          failed := h.failed
          running := h.running }

/-- A step of the client is one of the machine. -/
theorem Follows.step (h : Follows c m F out) {op : ClientOp} (hm : m.Allowed op) :
    ∃ c' F' out', c.step op = .ok c' ∧ Follows c' (m.step op) F' out' := by
  cases op with
  | feed bytes =>
      obtain ⟨c', hstep, h'⟩ := h.feed bytes hm
      exact ⟨c', F, out, hstep, h'⟩
  | getReply => exact h.getReply hm
  | free i =>
      obtain ⟨c', out', hstep, h'⟩ := h.free i
      exact ⟨c', F, out', hstep, h'⟩

/-- Runs, by induction on the operations. -/
theorem Follows.run (h : Follows c m F out) {ops : List ClientOp} (hops : m.AllAllowed ops) :
    ∃ c' F' out', c.run ops = .ok c' ∧ Follows c' (m.run ops) F' out' := by
  induction ops generalizing c m F out with
  | nil => exact ⟨c, F, out, rfl, h⟩
  | cons op ops ih =>
      obtain ⟨c₁, F₁, out₁, hstep, h₁⟩ := h.step hops.1
      obtain ⟨c₂, F₂, out₂, hrun, h₂⟩ := ih h₁ hops.2
      exact ⟨c₂, F₂, out₂, by rw [Client.run, hstep, Outcome.ok_bind, hrun], h₂⟩

/-- What is left when the reader is freed are the replies that the client holds. -/
theorem Follows.readerFree (h : Follows c m F out) :
    ∃ mem, redisReplyReaderFree defaultFunctions c.reader = .ok mem ∧
      HoldsAll mem (c.held.map some) m.held out ∧ ∀ a, mem.cells a ≠ none ↔ a ∈ out := by
  have hdone : ∀ {mem : ReplyHeap}, CellLedger c.reader.mem mem ∅ out →
      HoldsAll mem (c.held.map some) m.held out ∧ ∀ a, mem.cells a ≠ none ↔ a ∈ out := by
    intro mem hl
    refine ⟨h.held.congr hl.kept, fun a => ?_⟩
    rw [hl.used, Finset.empty_union]
  have hnothing : c.reader.reply = none → F = ∅ →
      redisReplyReaderFree defaultFunctions c.reader = .ok c.reader.mem ∧
        CellLedger c.reader.mem c.reader.mem ∅ out := by
    intro hreply hF
    rw [redisReplyReaderFree, hreply]
    exact ⟨rfl, hF ▸ h.ledger⟩
  have hvalid := h.valid
  cases hstate : m.state with
  | item stack type =>
      rw [hstate] at hvalid
      obtain ⟨hrests, -⟩ := h.reading stack type hstate
      rcases hrests with ⟨hidle, -, hF⟩ | ⟨hrep, -⟩
      · obtain ⟨hfree, hl⟩ := hnothing hidle.reply hF
        exact ⟨_, hfree, hdone hl⟩
      · rw [hstate] at hrep
        obtain ⟨arrays, rfl, hwork, -⟩ := hrep
        obtain ⟨mem, hfree, hl⟩ := hwork.readerFree h.ledger hvalid.2.2.2
        exact ⟨mem, hfree, hdone hl⟩
  | failed err =>
      obtain ⟨-, hreply, hF⟩ := h.failed err hstate
      obtain ⟨hfree, hl⟩ := hnothing hreply hF
      exact ⟨_, hfree, hdone hl⟩
  | done o => exact absurd hstate (h.running.2 o)
  | overflow => exact absurd hstate h.running.1

end

/-- Whatever arrives, no function is called in a state it is not made for; the client
gets what the machine reads; the cells in use are those of its replies and of the reply
under way; and when the reader is freed those of its replies are left. -/
theorem client_run {ops : List ClientOp} (hops : newProgress.AllAllowed ops) :
    ∃ c F out mem, newClient.run ops = .ok c ∧ c.statuses = (newProgress.run ops).statuses ∧
      HoldsAll c.reader.mem (c.held.map some) (newProgress.run ops).held out ∧
      Disjoint F out ∧ (∀ a, c.reader.mem.cells a ≠ none ↔ a ∈ F ∪ out) ∧
      redisReplyReaderFree defaultFunctions c.reader = .ok mem ∧
      HoldsAll mem (c.held.map some) (newProgress.run ops).held out ∧
      ∀ a, mem.cells a ≠ none ↔ a ∈ out := by
  obtain ⟨c, F, out, hrun, h⟩ := follows_new.run hops
  obtain ⟨mem, hfree, hheld, hused⟩ := h.readerFree
  exact ⟨c, F, out, mem, hrun, h.statuses, h.held, h.ledger.apart, h.ledger.used, hfree, hheld,
    hused⟩

/-- An array comes in two pieces and a broken reply follows; the array is freed last. -/
def broken : List ClientOp :=
  [.feed (ascii "*2\r\n:1\r\n$1\r"), .getReply, .feed (ascii "\na\r\n!"), .getReply, .getReply,
    .free 0]

theorem broken_allowed : newProgress.AllAllowed broken :=
  ⟨⟨_, _, rfl⟩, ⟨⟨_, _, rfl⟩, nofun⟩, ⟨_, _, rfl⟩, ⟨⟨_, _, rfl⟩, nofun⟩, ⟨⟨_, _, rfl⟩, nofun⟩,
    trivial, trivial⟩

theorem client_run_broken :
    ∃ c mem, newClient.run broken = .ok c ∧ c.statuses = [.ok, .ok, .err] ∧
      redisReplyReaderFree defaultFunctions c.reader = .ok mem ∧ ∀ a, mem.cells a = none := by
  obtain ⟨c, F, out, mem, hrun, hstatuses, -, -, -, hfree, hheld, hused⟩ :=
    client_run broken_allowed
  have hempty : (newProgress.run broken).held = [] := rfl
  rw [hempty] at hheld
  obtain rfl : out = ∅ := (holdsAll_nil.mp hheld).2
  refine ⟨c, mem, hrun, hstatuses, hfree, fun a => ?_⟩
  by_contra hne
  exact Finset.notMem_empty a ((hused a).mp hne)

def fed : List ClientOp → Bytes
  | [] => []
  | .feed bytes :: ops => bytes ++ fed ops
  | .getReply :: ops | .free _ :: ops => fed ops

/-- The first `k` replies were read, and with the bytes to come the others will be. -/
structure Along (es : List Reply) (m : Progress) (future : Bytes) (k : ℕ) : Prop where
  item : ∃ stack type, m.state = .item stack type
  le : k ≤ es.length
  held : m.held = (es.take k).map objectOf
  rest : drain step m.state (m.unread ++ future) =
    drain step (.item [] none) (Reply.encodeAll (es.drop k))
  statuses : ∀ st ∈ m.statuses, st = .ok

theorem drain_encodeAll {e : Reply} (he : e.Sound 2) (es : List Reply) :
    drain step (.item [] none) (Reply.encodeAll (e :: es)) =
      (.done (objectOf e), Reply.encodeAll es) := by
  rw [Reply.encodeAll_cons, drain_encode he rfl, complete, drain_done]

/-- Where the machine comes to on the bytes of sound replies is not an error. -/
theorem drain_among {es : List Reply} (hes : ∀ e ∈ es, e.Sound 2) {st : State} {xs future : Bytes}
    {k : ℕ} (hrest : drain step st (xs ++ future) =
      drain step (.item [] none) (Reply.encodeAll (es.drop k))) :
    (∃ stack type ys, drain step st xs = (.item stack type, ys)) ∨
      ∃ e ys, es[k]? = some e ∧ drain step st xs = (.done (objectOf e), ys) ∧
        ys ++ future = Reply.encodeAll (es.drop (k + 1)) := by
  rw [drain_append step_local] at hrest
  have hnext : (es.drop k = [] ∧ drain step (.item [] none) (Reply.encodeAll (es.drop k)) =
      (.item [] none, [])) ∨ ∃ e, es[k]? = some e ∧
        drain step (.item [] none) (Reply.encodeAll (es.drop k)) =
          (.done (objectOf e), Reply.encodeAll (es.drop (k + 1))) := by
    cases hk : es[k]? with
    | none =>
        have hdrop := List.drop_eq_nil_of_le (List.getElem?_eq_none_iff.mp hk)
        exact .inl ⟨hdrop, by rw [hdrop, Reply.encodeAll_nil, drain_nil]⟩
    | some e =>
        obtain ⟨hlt, rfl⟩ := List.getElem?_eq_some_iff.mp hk
        refine .inr ⟨es[k], rfl, ?_⟩
        rw [List.drop_eq_getElem_cons hlt, drain_encodeAll (hes _ (List.getElem_mem hlt))]
  generalize drain step st xs = p at hrest ⊢
  obtain ⟨st, xs⟩ := p
  cases st with
  | item stack type => exact .inl ⟨stack, type, xs, rfl⟩
  | done o =>
      rw [drain_done] at hrest
      rcases hnext with ⟨-, hnext⟩ | ⟨e, he, hnext⟩
      · rw [hnext] at hrest
        cases hrest
      · rw [hnext] at hrest
        simp only [Prod.mk.injEq, State.done.injEq] at hrest
        obtain ⟨rfl, hxs⟩ := hrest
        exact .inr ⟨e, xs, he, rfl, hxs⟩
  | failed err =>
      rw [drain_failed] at hrest
      rcases hnext with ⟨-, hnext⟩ | ⟨e, -, hnext⟩ <;> rw [hnext] at hrest <;> cases hrest
  | overflow =>
      rw [drain_overflow] at hrest
      rcases hnext with ⟨-, hnext⟩ | ⟨e, -, hnext⟩ <;> rw [hnext] at hrest <;> cases hrest

section
variable {es : List Reply} {m : Progress} {future : Bytes} {k : ℕ}

theorem along_new (es : List Reply) : Along es newProgress (Reply.encodeAll es) 0 where
  item := ⟨[], none, rfl⟩
  le := Nat.zero_le _
  held := rfl
  rest := rfl
  statuses := nofun

theorem Along.feed {bytes : Bytes} (h : Along es m (bytes ++ future) k) :
    Along es (m.step (.feed bytes)) future k :=
  ⟨h.item, h.le, h.held, by rw [← h.rest, Progress.step, List.append_assoc], h.statuses⟩

/-- A call returns nothing, or the next reply. -/
theorem Along.getReply (hes : ∀ e ∈ es, e.Sound 2) (h : Along es m future k) :
    m.Allowed .getReply ∧ ∃ k', Along es (m.step .getReply) future k' ∧
      (future = [] → k' = min (k + 1) es.length) := by
  have hstatuses : ∀ st ∈ m.statuses ++ [Status.ok], st = .ok := by
    intro st hst
    rcases List.mem_append.mp hst with hst | hst
    · exact h.statuses st hst
    · exact List.mem_singleton.mp hst
  have hle := h.le
  rcases drain_among hes h.rest with ⟨stack, type, xs, hp⟩ | ⟨e, xs, hk, hp, hxs⟩
  · have hm : m.step .getReply = ⟨.item stack type, xs, m.held, m.statuses ++ [.ok]⟩ := by
      simp only [Progress.step, Progress.fetch, hp]
    have hrest := h.rest
    rw [drain_append step_local, hp] at hrest
    refine ⟨⟨h.item, by rw [hp]; nofun⟩, k, ?_, fun hfuture => ?_⟩
    · rw [hm]
      exact ⟨⟨stack, type, rfl⟩, hle, h.held, hrest, hstatuses⟩
    · -- all bytes are there, so nothing is left to be read
      have hend : es.length ≤ k := by
        by_contra hlt
        have hdone := h.rest
        rw [hfuture, List.append_nil, hp, List.drop_eq_getElem_cons (by omega),
          drain_encodeAll (hes _ (List.getElem_mem _))] at hdone
        cases hdone
      omega
  · obtain ⟨hlt, rfl⟩ := List.getElem?_eq_some_iff.mp hk
    have hm : m.step .getReply =
        ⟨.item [] none, xs, m.held ++ [objectOf es[k]], m.statuses ++ [.ok]⟩ := by
      simp only [Progress.step, Progress.fetch, hp]
    refine ⟨⟨h.item, by rw [hp]; nofun⟩, k + 1, ?_, fun _ => by omega⟩
    rw [hm]
    refine ⟨⟨[], none, rfl⟩, hlt, ?_, ?_, hstatuses⟩
    · rw [h.held, List.take_add_one, hk, Option.toList_some, List.map_append, List.map_singleton]
    · rw [hxs]

/-- A client that frees nothing gets the replies in their order, by induction on what
it does. -/
theorem Along.run (hes : ∀ e ∈ es, e.Sound 2) {ops : List ClientOp}
    (hfree : ∀ i, ClientOp.free i ∉ ops) (h : Along es m (fed ops ++ future) k) :
    m.AllAllowed ops ∧ ∃ k', Along es (m.run ops) future k' := by
  induction ops generalizing m k with
  | nil => exact ⟨trivial, k, h⟩
  | cons op ops ih =>
      have hfree' : ∀ i, ClientOp.free i ∉ ops := fun i hi => hfree i (List.mem_cons_of_mem _ hi)
      cases op with
      | feed bytes =>
          rw [fed, List.append_assoc] at h
          obtain ⟨hall, k', h'⟩ := ih hfree' h.feed
          exact ⟨⟨h.item, hall⟩, k', h'⟩
      | getReply =>
          obtain ⟨hm, k₁, h₁, -⟩ := h.getReply hes
          obtain ⟨hall, k', h'⟩ := ih hfree' h₁
          exact ⟨⟨hm, hall⟩, k', h'⟩
      | free i => exact absurd (List.mem_cons_self) (hfree i)

/-- With all bytes there, every call returns the next reply while there is one. -/
theorem Along.fetchAll (hes : ∀ e ∈ es, e.Sound 2) (n : ℕ) (h : Along es m [] k) :
    m.AllAllowed (List.replicate n .getReply) ∧
      Along es (m.run (List.replicate n .getReply)) [] (min (k + n) es.length) := by
  induction n generalizing m k with
  | zero =>
      have hle := h.le
      rw [Nat.add_zero, Nat.min_eq_left hle]
      exact ⟨trivial, h⟩
  | succ n ih =>
      obtain ⟨hm, k₁, h₁, hk⟩ := h.getReply hes
      obtain ⟨hall, h₂⟩ := ih h₁
      rw [List.replicate_succ]
      refine ⟨⟨hm, hall⟩, ?_⟩
      have hk₁ := hk rfl
      have : min (k₁ + n) es.length = min (k + (n + 1)) es.length := by omega
      rw [← this]
      exact h₂

end

theorem allAllowed_append {m : Progress} {ops ops' : List ClientOp} :
    m.AllAllowed (ops ++ ops') ↔ m.AllAllowed ops ∧ (m.run ops).AllAllowed ops' := by
  induction ops generalizing m with
  | nil => exact ⟨fun h => ⟨trivial, h⟩, fun h => h.2⟩
  | cons op ops ih =>
      rw [List.cons_append, Progress.AllAllowed, Progress.AllAllowed, ih, and_assoc]
      rfl

theorem Progress.run_append (m : Progress) (ops ops' : List ClientOp) :
    m.run (ops ++ ops') = (m.run ops).run ops' := List.foldl_append

theorem Rests.empty {r : ObjectReader} {F : Finset ℕ} (h : Rests r (.item [] none) F) : F = ∅ := by
  rcases h with ⟨-, -, hF⟩ | ⟨⟨arrays, harrays, hwork, -⟩, -⟩
  · exact hF
  · obtain rfl : arrays = [] := List.map_eq_nil_iff.mp harrays
    exact hwork.tree.2

/-- Replies that arrive in any pieces, between any calls, are read in their order; in
the end the client holds them all, each in cells of its own, and nothing else is in use. -/
theorem client_reads {es : List Reply} (hes : ∀ e ∈ es, e.Sound 2) {ops : List ClientOp}
    (hfree : ∀ i, ClientOp.free i ∉ ops) (hfed : fed ops = Reply.encodeAll es) :
    ∃ c out, newClient.run (ops ++ List.replicate (es.length + 1) .getReply) = .ok c ∧
      HoldsAll c.reader.mem (c.held.map some) (es.map objectOf) out ∧
      (∀ a, c.reader.mem.cells a ≠ none ↔ a ∈ out) ∧ ∀ st ∈ c.statuses, st = .ok := by
  have hnew : Along es newProgress (fed ops ++ []) 0 := by
    rw [hfed, List.append_nil]
    exact along_new es
  obtain ⟨hall, k, h⟩ := hnew.run hes hfree
  obtain ⟨hall', h'⟩ := h.fetchAll hes es.length
  rw [Nat.min_eq_right (Nat.le_add_left _ _)] at h'
  obtain ⟨hlast, k', hend, hk'⟩ := h'.getReply hes
  -- the last call finds the reader between two replies
  have hdrain := h'.rest
  rw [List.append_nil, List.drop_length, Reply.encodeAll_nil, drain_nil] at hdrain
  have hstate : (((newProgress.run ops).run (List.replicate es.length .getReply)).step
      .getReply).state = .item [] none := by
    simp only [Progress.step, Progress.fetch, hdrain]
  have hops : newProgress.AllAllowed (ops ++ List.replicate (es.length + 1) .getReply) := by
    rw [List.replicate_succ', ← List.append_assoc, allAllowed_append, allAllowed_append,
      Progress.run_append]
    exact ⟨⟨hall, hall'⟩, hlast, trivial⟩
  have hrun : newProgress.run (ops ++ List.replicate (es.length + 1) .getReply) =
      ((newProgress.run ops).run (List.replicate es.length .getReply)).step .getReply := by
    rw [List.replicate_succ', ← List.append_assoc, Progress.run_append, Progress.run_append]
    rfl
  obtain ⟨c, F, out, hclient, hfollows⟩ := follows_new.run hops
  rw [hrun] at hfollows
  obtain ⟨hrests, -⟩ := hfollows.reading _ _ hstate
  rw [hstate] at hrests
  have hheld := hfollows.held
  have hused := hfollows.ledger.used
  rw [hend.held, hk' rfl, Nat.min_eq_right (Nat.le_succ _), List.take_length] at hheld
  refine ⟨c, out, hclient, hheld, fun a => ?_, fun st hst => ?_⟩
  · rw [hused, hrests.empty, Finset.empty_union]
  · rw [hfollows.statuses] at hst
    exact hend.statuses st hst

theorem client_reads_one :
    ∃ c out, newClient.run ([.feed (ascii "*1\r\n"), .getReply, .feed (ascii ":7\r\n")] ++
        List.replicate 2 .getReply) = .ok c ∧
      HoldsAll c.reader.mem (c.held.map some) [Obj.array [Obj.integer 7]] out ∧
      (∀ a, c.reader.mem.cells a ≠ none ↔ a ∈ out) ∧ ∀ st ∈ c.statuses, st = .ok :=
  client_reads (by simp [Reply.Sound] : ∀ e ∈ [Reply.array [.integer 7]], e.Sound 2) (by simp)
    (by decide)

end PhpHiredis.Objects
