import PhpHiredis.Blocks
import PhpHiredis.Lifecycle
import PhpHiredis.Library.Walk
import PhpHiredis.Refusals

/-!
# The queues as their loops find them

Whatever an object was called for, its two queues are chains that end, and that
do not meet. A call leaves the nodes of a queue alone, empties it, or hangs one
new node on its end; so the loops of `send` and `exec` over the main queue take
every node once. The loops over the nodes of a transaction stop at the end of the
reply as well, and take as many nodes as the reply has elements.
-/
namespace PhpHiredis

open Library Reader

variable {σ : Type}

/-- A chain with its two ends: it comes to an end, and meets no node twice. -/
structure WellFormed (h : Heap) (head tail : Option ℕ) (l : List ℕ) : Prop where
  chain : Chain h.next head l
  nodup : l.Nodup
  null : head = none ↔ tail = none
  tail : tail = l.getLast?

/-- The main queue has the nodes `mq`, the side queue the nodes `sq`. -/
structure TwoQueues (s : RedisSock σ) (mq sq : List ℕ) : Prop where
  main : WellFormed s.heap s.queue_head s.queue_tail mq
  side : WellFormed s.heap s.multi_head s.multi_tail sq
  disjoint : mq.Disjoint sq

theorem QueueRep.wellFormed {h : Heap} {head tail : Option ℕ} {l : List ℕ}
    (hq : QueueRep h head tail l) : WellFormed h head tail l :=
  ⟨hq.chain, hq.chain.nodup, hq.head_eq_none, hq.tail⟩

theorem QueuesRep.twoQueues {s : RedisSock σ} {mq sq : List ℕ} (h : QueuesRep s mq sq) :
    TwoQueues s mq sq :=
  ⟨h.main.wellFormed, h.side.wellFormed, fun a ha hb => h.disjoint a ha hb⟩

/-- The nodes stay, or they go, or one that was not there before comes after them. -/
inductive Edited (h : Heap) (l : List ℕ) : List ℕ → Prop
  | kept : Edited h l l
  | cleared : Edited h l []
  | extended {c : ℕ} : h.size ≤ c → Edited h l (l ++ [c])

namespace Ledger

def mainNodes (l : Ledger) : List ℕ := l.entries.map Prod.fst

def sideNodes (l : Ledger) : List ℕ := l.waiting.map Prod.fst

theorem Records.queuesRep {l : Ledger} {s : RedisSock σ} (h : l.Records s) :
    QueuesRep s l.mainNodes l.sideNodes := HoldsAt.queues h

theorem edited_entries (l : Ledger) {h : Heap} {c : ℕ} (hc : h.size ≤ c) (e : Entry) :
    Edited h l.mainNodes ((l.entries ++ [(c, e)]).map Prod.fst) := by
  rw [List.map_append]
  exact .extended hc

theorem edited_enqueue (s : RedisSock σ) (fn : Validator) (l : Ledger) :
    Edited s.heap l.mainNodes (l.enqueue s fn).mainNodes ∧
      Edited s.heap l.sideNodes (l.enqueue s fn).sideNodes := by
  unfold enqueue
  split_ifs with hm
  · exact ⟨l.edited_entries le_rfl _, .kept⟩
  · refine ⟨l.edited_entries (Nat.le_succ _) _, ?_⟩
    unfold sideNodes
    rw [List.map_append]
    exact .extended le_rfl

theorem edited_after (s : RedisSock σ) (ret : Returned) (l : Ledger) (call : Call) :
    Edited s.heap l.mainNodes (l.after s ret call).mainNodes ∧
      Edited s.heap l.sideNodes (l.after s ret call).sideNodes := by
  cases call with
  | command c =>
      rw [after]
      split_ifs
      · exact ⟨.kept, .kept⟩
      · exact edited_enqueue s c.validator l
  | pipeline =>
      rw [after]
      split_ifs
      · exact ⟨.cleared, .kept⟩
      · exact ⟨.kept, .kept⟩
  | send =>
      rw [after]
      split_ifs
      · exact ⟨.kept, .kept⟩
      · exact ⟨.cleared, .kept⟩
  | multi =>
      rw [after]
      split_ifs
      · exact ⟨.kept, .kept⟩
      · cases ret with
        | self => exact ⟨.kept, .cleared⟩
        | value z => exact ⟨.kept, .kept⟩
      · exact ⟨l.edited_entries (Nat.le_succ _) _, .cleared⟩
  | exec =>
      rw [after]
      split_ifs
      · exact ⟨.kept, .cleared⟩
      · exact ⟨l.edited_entries le_rfl _, .kept⟩

end Ledger

def sendWalk (peer : Peer σ) (heap : Heap) : Walk ℕ (HashTable × ExtContext σ) Fault where
  next := heap.next
  more _ := true
  body c r := do
    let (z_current, ctx) ← readInto peer (makeZval r.2 (c + 1)) (c + 1)
    let vals ← nodeValues heap c z_current
    return (vals.foldl (fun tab z => addNextIndex z tab) r.1,
      if (heap.cells c).multi.isSome then freeZval ctx (c + 1) else ctx)

def skipWalk (peer : Peer σ) (heap : Heap) : Walk ℕ (ExtContext σ) Fault where
  next := heap.next
  more _ := true
  body c ctx := do
    let (_, ctx) ← readInto peer (makeZval ctx (c + 1)) (c + 1)
    return freeZval ctx (c + 1)

/-- The loop of both over the nodes of a transaction, with the elements that are left. -/
def blockWalk (heap : Heap) : Walk ℕ (List Zval × HashTable) Fault where
  next := heap.next
  more r := !r.1.isEmpty
  body cm r :=
    match r.1 with
    | [] => .ok r
    | z :: zs => do
        let (k, z) ← callFun (heap.cells cm) z
        return (zs, if k = 0 then addNextIndex z r.2 else r.2)

section
variable {peer : Peer σ} {heap : Heap} {p : Option ℕ} {m : List ℕ}

theorem sendWalk_eq {r : HashTable × ExtContext σ} {o : Run (HashTable × ExtContext σ)}
    (h : (sendWalk peer heap).Exec p r m o) {n : ℕ} (hn : m.length ≤ n) :
    sendLoop peer heap n p r.2 r.1 = o := by
  have hloop := Walk.Exec.eq_loop id (fun n p r => sendLoop peer heap n p r.2 r.1) ?_ ?_ ?_ h hn
  · exact hloop.trans (bind_pure o)
  · intro n s
    cases n <;> rfl
  · intro n a s hm
    cases hm
  · intro n a s _
    simp only [sendLoop_node, sendWalk, bind_assoc, Outcome.pure_eq, Outcome.ok_bind]
    rfl

theorem skipWalk_eq {ctx : ExtContext σ} {o : Run (ExtContext σ)}
    (h : (skipWalk peer heap).Exec p ctx m o) {n : ℕ} (hn : m.length ≤ n) :
    skipLoop peer heap n p ctx = o := by
  have hloop := Walk.Exec.eq_loop id (skipLoop peer heap) ?_ ?_ ?_ h hn
  · exact hloop.trans (bind_pure o)
  · intro n s
    cases n <;> rfl
  · intro n a s hm
    cases hm
  · intro n a s _
    simp only [skipLoop, skipWalk, bind_assoc, Outcome.pure_eq, Outcome.ok_bind]
    rfl

/-- The loop over a block needs no bound, for it takes an element in every pass. -/
theorem blockWalk_eq {r : List Zval × HashTable} {o : Run (List Zval × HashTable)}
    (h : (blockWalk heap).Exec p r m o) :
    replayBlock heap p r.1 r.2 = o >>= fun r => .ok r.2 := by
  refine Walk.Exec.eq_loop Prod.snd (fun _ p r => replayBlock heap p r.1 r.2) ?_ ?_ ?_ h le_rfl
  · intro n r
    simp only [replayBlock]
  · rintro n a ⟨zs, tab⟩ hm
    cases zs with
    | nil => simp only [replayBlock]
    | cons z zs => cases hm
  · rintro n a ⟨zs, tab⟩ hm
    cases zs with
    | nil => cases hm
    | cons z zs =>
        simp only [replayBlock, blockWalk, bind_assoc, Outcome.pure_eq, Outcome.ok_bind]
        rfl

/-- The loop of `send` over the nodes `l`: it ends, and takes them all if it returns. -/
def SendCovers (peer : Peer σ) (heap : Heap) (p : Option ℕ) (l : List ℕ) : Prop :=
  ∀ ctx ret, ∃ o, (sendWalk peer heap).Covers p (ret, ctx) l o ∧
    ∀ n, l.length ≤ n → sendLoop peer heap n p ctx ret = o

def SkipCovers (peer : Peer σ) (heap : Heap) (p : Option ℕ) (l : List ℕ) : Prop :=
  ∀ ctx, ∃ o, (skipWalk peer heap).Covers p ctx l o ∧
    ∀ n, l.length ≤ n → skipLoop peer heap n p ctx = o

/-- The loop over the nodes `l` of a transaction: it takes as many as there are elements. -/
def BlockCovers (heap : Heap) (p : Option ℕ) (l : List ℕ) : Prop :=
  ∀ zs tab, ∃ o, (blockWalk heap).Covers p (zs, tab) (l.take zs.length) o ∧
    replayBlock heap p zs tab = o >>= fun r => .ok r.2

variable {l : List ℕ}

theorem sendCovers (peer : Peer σ) (hl : Chain heap.next p l) : SendCovers peer heap p l := by
  intro ctx ret
  obtain ⟨o, m, hexec, hpre, hall⟩ := Walk.exists_covers (w := sendWalk peer heap) (fun _ => rfl) hl
    (ret, ctx)
  exact ⟨o, ⟨m, hexec, hpre, hall⟩, fun n hn => sendWalk_eq hexec (hpre.length_le.trans hn)⟩

theorem skipCovers (peer : Peer σ) (hl : Chain heap.next p l) : SkipCovers peer heap p l := by
  intro ctx
  obtain ⟨o, m, hexec, hpre, hall⟩ := Walk.exists_covers (w := skipWalk peer heap) (fun _ => rfl) hl
    ctx
  exact ⟨o, ⟨m, hexec, hpre, hall⟩, fun n hn => skipWalk_eq hexec (hpre.length_le.trans hn)⟩

theorem blockWalk_more (r : List Zval × HashTable) :
    (blockWalk heap).more r = true ↔ r.1.length ≠ 0 := by
  simp [blockWalk]

theorem blockWalk_body (a : ℕ) (r r' : List Zval × HashTable) (hm : (blockWalk heap).more r = true)
    (h : (blockWalk heap).body a r = .ok r') : r.1.length = r'.1.length + 1 := by
  obtain ⟨zs, tab⟩ := r
  cases zs with
  | nil => cases hm
  | cons z zs =>
      obtain ⟨t, -, h⟩ := Outcome.bind_eq_ok.mp h
      cases h
      exact List.length_cons

theorem blockCovers (hl : Chain heap.next p l) : BlockCovers heap p l := by
  intro zs tab
  obtain ⟨o, m, hexec, hcover⟩ := Walk.exists_covers_take (w := blockWalk heap)
    blockWalk_more blockWalk_body hl (zs, tab)
  exact ⟨o, ⟨m, hexec, hcover⟩, blockWalk_eq hexec⟩

end

/-- The loops of `send` and `exec` over the main queue, that of `exec` over the side
queue, and those of `send` over the blocks. -/
structure LoopsCover (peer : Peer σ) (s : RedisSock σ) (mq sq : List ℕ) : Prop where
  passes : mq.length ≤ s.heap.size
  send : SendCovers peer s.heap s.queue_head mq
  skip : SkipCovers peer s.heap s.queue_head mq
  side : BlockCovers s.heap s.multi_head sq
  blocks : ∀ c ∈ mq, ∃ l, Chain s.heap.next (s.heap.cells c).multi l ∧ l.Nodup ∧
    BlockCovers s.heap (s.heap.cells c).multi l

/-- What hangs from a node of the main queue is a chain as well. -/
theorem Heap.Stands.chain {h : Heap} {c : ℕ} {e : Entry} (hs : h.Stands c e) :
    ∃ l, Chain h.next (h.cells c).multi l := by
  cases e with
  | reply fn => exact ⟨[], hs.2⟩
  | block fns =>
      obtain ⟨-, -, l, extra, hl, -⟩ := hs
      exact ⟨l ++ extra, hl⟩

theorem HoldsAt.loopsCover {s : RedisSock σ} {es : List Entry} {fns : List Validator}
    {mq sq : List ℕ} (peer : Peer σ) (h : HoldsAt s es fns mq sq) : LoopsCover peer s mq sq where
  passes := h.main.chain.length_le h.main.bound
  send := sendCovers peer h.main.chain
  skip := skipCovers peer h.main.chain
  side := blockCovers h.side.chain
  blocks c hc := by
    have hchains := (List.forall₂_and_left _ _).mp (h.entries.imp fun a e hs => ⟨hs.chain, hs⟩)
    obtain ⟨l, hl⟩ := hchains.1 c hc
    exact ⟨l, hl, hl.nodup, blockCovers hl⟩

/-- The queues of every connection are those of some ledger. -/
def KeepsLedgers (w : World σ) : Prop :=
  ∀ id r, w.list id = some r → ∃ l : Ledger, l.Records r.redis_sock

namespace KeepsLedgers
variable {w w' : World σ}

theorem start : KeepsLedgers (World.start : World σ) := by
  intro id r hlist
  cases hlist

theorem store (h : KeepsLedgers w) (id : ℕ) {o : Option (Resource σ)}
    (ho : ∀ r, o = some r → ∃ l : Ledger, l.Records r.redis_sock) :
    KeepsLedgers (w.store id o) := by
  intro id' r hlist
  by_cases hid : id' = id
  · subst hid
    have hnew : (w.store id' o).list id' = o := Function.update_self ..
    exact ho r (hnew.symm.trans hlist)
  · have hold : (w.store id o).list id' = w.list id' := Function.update_of_ne hid ..
    exact h id' r (hold.symm.trans hlist)

theorem put (h : KeepsLedgers w) (id : ℕ) {s : RedisSock σ} (hs : ∃ l : Ledger, l.Records s)
    (freed : Bool) : KeepsLedgers (w.store id (some ⟨s, freed⟩)) := by
  refine h.store id fun r hr => ?_
  cases hr
  exact hs

theorem drop (h : KeepsLedgers w) (id : ℕ) : KeepsLedgers (w.store id none) :=
  h.store id fun r hr => by cases hr

theorem connect (h : KeepsLedgers w) (fd : ℕ) (sock : Socket σ) :
    KeepsLedgers (w.connect fd sock) := by
  have hnew : ∃ l : Ledger, l.Records (.connected (redisConnect fd sock)) :=
    ⟨.empty, Ledger.records_connected _⟩
  unfold World.connect
  cases w.socket with
  | none => exact h.put w.next hnew false
  | some id => exact (h.drop id).put w.next hnew false

theorem redisSockGet (h : KeepsLedgers w) {id : ℕ} {s : RedisSock σ}
    (hget : w.redisSockGet = .ok (some (id, s))) : ∃ l : Ledger, l.Records s := by
  cases hs : w.socket with
  | none =>
      rw [redisSockGet_none hs] at hget
      cases hget
  | some found =>
      cases hl : w.list found with
      | none =>
          simp only [World.redisSockGet, hs, hl] at hget
          cases hget
      | some r =>
          rw [redisSockGet_resource hs hl] at hget
          split_ifs at hget
          cases hget
          obtain ⟨l, hrec⟩ := h id r hl
          exact ⟨l, hrec.congr ⟨rfl, rfl, rfl, rfl, rfl⟩⟩

theorem step (h : KeepsLedgers w) {peer : Peer σ} {op : Op σ} {ret : Returned}
    (hrun : op.run peer w = .ok (ret, w')) : KeepsLedgers w' := by
  cases op with
  | connect link =>
      cases link with
      | none =>
          cases hrun
          exact h
      | some link =>
          cases hrun
          exact h.connect link.1 link.2
  | close =>
      obtain ⟨found, hget, hrun⟩ := Outcome.bind_eq_ok.mp hrun
      cases found with
      | none =>
          cases hrun
          exact h
      | some f =>
          cases hrun
          exact h.put f.1 (h.redisSockGet hget) true
  | call c =>
      obtain ⟨go, -, hrun⟩ := Outcome.bind_eq_ok.mp hrun
      cases go with
      | false =>
          cases hrun
          exact h
      | true =>
          obtain ⟨found, hget, hrun⟩ := Outcome.bind_eq_ok.mp hrun
          cases found with
          | none =>
              cases hrun
              exact h
          | some f =>
              obtain ⟨⟨ret', s'⟩, hcall, hrun⟩ := Outcome.bind_eq_ok.mp hrun
              cases hrun
              obtain ⟨l, hrec⟩ := h.redisSockGet hget
              exact h.put f.1 ⟨_, (Ledger.records_after hrec hcall).1⟩ false

theorem run {peer : Peer σ} {ops : List (Op σ)} (h : KeepsLedgers w)
    (hrun : runOps peer ops w = .ok w') : KeepsLedgers w' := by
  induction ops generalizing w with
  | nil =>
      cases hrun
      exact h
  | cons op ops ih =>
      obtain ⟨⟨ret, w₁⟩, hop, hrun⟩ := Outcome.bind_eq_ok.mp hrun
      exact ih (h.step hop) hrun

end KeepsLedgers

/-- In every connection of an object, after any calls and with any replies: the two
queues are chains that end and do not meet. From there on, whatever the flags are,
a command adds one node to the end of the main queue, and in a transaction one to
that of the side queue; a call edits each of the queues at most once; and the loops
of `send` and `exec` end, and take the nodes in their order, each of them once. The
nodes of a transaction are taken as far as the reply has elements. -/
theorem runOps_twoQueues {peer : Peer σ} {ops : List (Op σ)} {w : World σ}
    (h : runOps peer ops .start = .ok w) {id : ℕ} {r : Resource σ} (hr : w.list id = some r) :
    ∃ mq sq, TwoQueues r.redis_sock mq sq ∧ ∀ s, SameQueues r.redis_sock s →
      (∀ fn z_args, s.multi = 0 →
        TwoQueues (redisEnqueue s fn z_args) (mq ++ [s.heap.size]) sq) ∧
      (∀ fn z_args, s.multi ≠ 0 →
        TwoQueues (redisEnqueue s fn z_args) (mq ++ [s.heap.size + 1]) (sq ++ [s.heap.size])) ∧
      (∀ (call : Call) ret s', call.run peer s = .ok (ret, s') → ∃ mq' sq',
        TwoQueues s' mq' sq' ∧ Edited s.heap mq mq' ∧ Edited s.heap sq sq') ∧
      LoopsCover peer s mq sq := by
  obtain ⟨l, hl⟩ := KeepsLedgers.start.run h id r hr
  refine ⟨l.mainNodes, l.sideNodes, hl.queuesRep.twoQueues, fun s hs => ?_⟩
  have hrec : l.Records s := hl.congr hs
  refine ⟨fun fn z_args hm => ?_, fun fn z_args hm => ?_, fun call ret s' hrun => ?_,
    HoldsAt.loopsCover peer hrec⟩
  · exact (hrec.queuesRep.redisEnqueue_plain hm fn z_args).1.twoQueues
  · exact (hrec.queuesRep.redisEnqueue_multi hm fn z_args).1.twoQueues
  · have hafter := (Ledger.records_after hrec hrun).1
    exact ⟨_, _, hafter.queuesRep.twoQueues, Ledger.edited_after s ret l call⟩

def worldAfter (peer : Peer σ) (ops : List (Op σ)) : World σ :=
  match runOps peer ops .start with
  | .ok w => w
  | _ => .start

/-- A pipeline with an open transaction. -/
theorem twoQueues_ping :
    let s := stateAfter silent [.pipeline, .multi, .command .ping] newConnection
    TwoQueues s [1, 3] [2] ∧ LoopsCover silent s [1, 3] [2] := by
  intro s
  let ops : List (Op Unit) := [.connect (some (3, ⟨(), [], []⟩)), .call .pipeline, .call .multi,
    .call (.command .ping)]
  have hrun : runOps silent ops .start = .ok (worldAfter silent ops) := rfl
  have hr : (worldAfter silent ops).list 0 = some ⟨s, false⟩ := rfl
  obtain ⟨mq, sq, hqueues, hall⟩ := runOps_twoQueues hrun hr
  obtain rfl : mq = [1, 3] := hqueues.main.chain.unique ⟨rfl, rfl, rfl⟩
  obtain rfl : sq = [2] := hqueues.side.chain.unique ⟨rfl, rfl⟩
  exact ⟨hqueues, (hall s (sameQueues_refl s)).2.2.2⟩

/-- The server refuses the first of two commands. The reply to `EXEC` has one element
for the two nodes of the side queue, and the loop of `exec` takes only the first of
them. And `send` waits for ever when there is no reply at all. -/
theorem not_all_covered :
    let s := afterGetAndExists getRefused
    let x := s.heap.size + 1
    runCalls scripted (.multi :: getAndExists.map .command)
        (scriptedConnection [ascii "+OK\r\n", Reply.encodeAll (transactionReplies getRefused)]) =
      .ok ([.self, .self, .self], s) ∧
    TwoQueues s [1, 3] [0, 2] ∧
    (∃ ctx ctx', skipLoop scripted s.heap s.heap.size s.queue_head
        (redisAppend (redisSockGet s).ctx (encodeRequest execRequest)) = .ok ctx ∧
      readInto scripted (makeZval ctx x) x = .ok (.array (listTable [.long 1]), ctx')) ∧
    (∃ s', Call.exec.run scripted s = .ok (.value (.array (listTable [.false])), s')) ∧
    (∀ m o, (blockWalk s.heap).Exec s.multi_head ((listTable [.long 1]).map Prod.snd, []) m o ↔
      m = [0] ∧ o = .ok ([], listTable [.false])) ∧
    Call.send.run silent (stateAfter silent [.pipeline, .command .ping] newConnection) =
      .blocked := by
  intro s x
  have hside : QueueRep s.heap s.multi_head s.multi_tail [0, 2] :=
    ⟨⟨rfl, rfl, rfl⟩, rfl, show ∀ a ∈ [0, 2], a < 4 by decide⟩
  have hmain : QueueRep s.heap s.queue_head s.queue_tail [1, 3] :=
    ⟨⟨rfl, rfl, rfl⟩, rfl, show ∀ a ∈ [1, 3], a < 4 by decide⟩
  have hqueues : QueuesRep s [1, 3] [0, 2] := ⟨hmain, hside, by decide⟩
  have hexec : (blockWalk s.heap).Exec s.multi_head ((listTable [.long 1]).map Prod.snd, []) [0]
      (.ok ([], listTable [.false])) := .pass rfl rfl (.stop rfl)
  refine ⟨run_getAndExists getRefused, hqueues.twoQueues, ?_, exec_getRefused,
    fun m o => ⟨fun h => h.unique hexec, ?_⟩, rfl⟩
  · obtain ⟨ctx, hskip, hctx⟩ := (Coming.source scripted []).skipLoop hmain.chain
      (hmain.chain.length_le hmain.bound)
      ⟨(arrives_getAndExists getRefused).coming rfl, sound_getRefused⟩ rfl
    obtain ⟨ctx', hread, -⟩ := (Coming.source scripted []).readNew hctx x
    rw [values_getRefused] at hread
    exact ⟨ctx, ctx', hskip, hread⟩
  · rintro ⟨rfl, rfl⟩
    exact hexec

end PhpHiredis
