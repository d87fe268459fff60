import PhpHiredis.History
import PhpHiredis.Rounds

/-!
# Closed blocks

The join of a block shares its list with the side queue that the block was built
in. Two questions about that list. Is every node of the main queue one that
`send` can replay? The nodes of the lists all have validators, so it is exactly
the join of an empty block that cannot be told from a command. And does the list
of a closed block stay as it is? The next `multi` of the pipeline enqueues before
it clears the side queue, and so writes to the block that was closed last.
-/
namespace PhpHiredis

open Library Reader

variable {σ : Type}

/-- `T` holds every node that a side queue had so far, and no tail of the main
queue. All of them have validators, and their pointers do not leave `T`. -/
structure SideNodes (s : RedisSock σ) (T : Set ℕ) : Prop where
  bound : ∀ a ∈ T, a < s.heap.size
  validates : ∀ a ∈ T, ∃ fn, s.heap.Validates a fn
  next : ∀ a ∈ T, ∀ b, s.heap.next a = some b → b ∈ T
  blocks : ∀ a < s.heap.size, ∀ b, (s.heap.cells a).multi = some b → b ∈ T
  head : ∀ a, s.multi_head = some a → a ∈ T
  tail : ∀ a, s.multi_tail = some a → a ∈ T
  main : ∀ a, s.queue_tail = some a → a ∉ T ∧ a < s.heap.size

namespace SideNodes
variable {s s' : RedisSock σ} {T : Set ℕ}

theorem notMem_size (h : SideNodes s T) {n : ℕ} (hn : s.heap.size ≤ n) : n ∉ T :=
  fun hmem => absurd (h.bound n hmem) (by omega)

theorem congr (h : SideNodes s T) (hq : SameQueues s s') : SideNodes s' T := by
  obtain ⟨hheap, -, htail, hmhead, hmtail⟩ := hq
  refine ⟨?_, ?_, ?_, ?_, ?_, ?_, ?_⟩
  · rw [hheap]; exact h.bound
  · rw [hheap]; exact h.validates
  · rw [hheap]; exact h.next
  · rw [hheap]; exact h.blocks
  · rw [hmhead]; exact h.head
  · rw [hmtail]; exact h.tail
  · rw [htail, hheap]; exact h.main

theorem alloc (h : SideNodes s T) {c : RedisCommand} (hc : ∀ b, c.multi = some b → b ∈ T) :
    SideNodes { s with heap := s.heap.alloc c } T where
  bound a ha := Nat.lt_succ_of_lt (h.bound a ha)
  validates a ha := by
    obtain ⟨fn, hfn⟩ := h.validates a ha
    exact ⟨fn, hfn.mono (Heap.extends_alloc _ _) (h.bound a ha)⟩
  next a ha b hb := by
    rw [Heap.next, Heap.alloc_cells _ _ (h.bound a ha)] at hb
    exact h.next a ha b hb
  blocks a ha b hb := by
    rcases Nat.lt_succ_iff_lt_or_eq.mp ha with hlt | rfl
    · rw [Heap.alloc_cells _ _ hlt] at hb
      exact h.blocks a hlt b hb
    · rw [Heap.alloc_new] at hb
      exact hc b hb
  head := h.head
  tail := h.tail
  main a ha := ⟨(h.main a ha).1, Nat.lt_succ_of_lt (h.main a ha).2⟩

/-- A pointer outside `T` is written, or one of `T` is directed to `T`. -/
theorem setNext (h : SideNodes s T) {t c : ℕ} (htc : t ∈ T → c ∈ T) :
    SideNodes { s with heap := s.heap.setNext t c } T where
  bound := h.bound
  validates a ha := by
    obtain ⟨fn, hfn⟩ := h.validates a ha
    obtain ⟨hfun, hargs, -⟩ := Heap.setNext_node s.heap t c a
    exact ⟨fn, hfun.trans hfn.1, hargs.trans hfn.2⟩
  next a ha b hb := by
    rw [Heap.next_setNext] at hb
    by_cases hat : a = t
    · subst hat
      rw [Function.update_self] at hb
      cases hb
      exact htc ha
    · rw [Function.update_of_ne hat] at hb
      exact h.next a ha b hb
  blocks a ha b hb := by
    rw [(Heap.setNext_node s.heap t c a).2.2] at hb
    exact h.blocks a ha b hb
  head := h.head
  tail := h.tail
  main := h.main

theorem enqueueMain (h : SideNodes s T) {c : ℕ} (hlt : c < s.heap.size) (hc : c ∉ T) :
    SideNodes (enqueueMain s c) T := by
  have hmain : ∀ a, some c = some a → a ∉ T ∧ a < s.heap.size := by
    intro a ha
    cases ha
    exact ⟨hc, hlt⟩
  cases ht : s.queue_tail with
  | none =>
      simp only [PhpHiredis.enqueueMain, redisEnqueue_, ht]
      exact ⟨h.bound, h.validates, h.next, h.blocks, h.head, h.tail, hmain⟩
  | some t =>
      have h₁ := h.setNext (c := c) fun hmem => absurd hmem (h.main t ht).1
      simp only [PhpHiredis.enqueueMain, redisEnqueue_, ht]
      exact ⟨h₁.bound, h₁.validates, h₁.next, h₁.blocks, h₁.head, h₁.tail, hmain⟩

theorem insert (h : SideNodes s T) {c : ℕ} (hlt : c < s.heap.size) {fn : Validator}
    (hfn : s.heap.Validates c fn) (hnext : s.heap.next c = none) (hmain : s.queue_tail ≠ some c) :
    SideNodes s (Set.insert c T) where
  bound a ha := by
    rcases ha with rfl | ha
    · exact hlt
    · exact h.bound a ha
  validates a ha := by
    rcases ha with rfl | ha
    · exact ⟨fn, hfn⟩
    · exact h.validates a ha
  next a ha b hb := by
    rcases ha with rfl | ha
    · rw [hnext] at hb
      cases hb
    · exact Or.inr (h.next a ha b hb)
  blocks a ha b hb := Or.inr (h.blocks a ha b hb)
  head a ha := Or.inr (h.head a ha)
  tail a ha := Or.inr (h.tail a ha)
  main a ha := by
    obtain ⟨hnot, hlt⟩ := h.main a ha
    refine ⟨?_, hlt⟩
    rintro (rfl | hmem)
    · exact hmain ha
    · exact hnot hmem

theorem enqueueMulti (h : SideNodes s T) {c : ℕ} (hc : c ∈ T) : SideNodes (enqueueMulti s c) T := by
  have hnew : ∀ a, some c = some a → a ∈ T := by
    intro a ha
    cases ha
    exact hc
  cases ht : s.multi_tail with
  | none =>
      simp only [PhpHiredis.enqueueMulti, redisEnqueue_, ht]
      exact ⟨h.bound, h.validates, h.next, h.blocks, hnew, hnew, h.main⟩
  | some t =>
      have h₁ := h.setNext (t := t) fun _ => hc
      simp only [PhpHiredis.enqueueMulti, redisEnqueue_, ht]
      exact ⟨h₁.bound, h₁.validates, h₁.next, h₁.blocks, h₁.head, hnew, h₁.main⟩

theorem clearMain (h : SideNodes s T) : SideNodes s.clearMain T :=
  ⟨h.bound, h.validates, h.next, h.blocks, h.head, h.tail, by simp [RedisSock.clearMain]⟩

theorem clearSide (h : SideNodes s T) : SideNodes s.clearSide T :=
  ⟨h.bound, h.validates, h.next, h.blocks, by simp [RedisSock.clearSide],
    by simp [RedisSock.clearSide], h.main⟩

theorem redisEnqueue (h : SideNodes s T) (fn : Validator) :
    ∃ T', SideNodes (redisEnqueue s fn none) T' := by
  let c : RedisCommand := ⟨some fn, none, none, none⟩
  let skip : RedisCommand := ⟨some .skip, none, none, none⟩
  by_cases hm : s.multi = 0
  · have hs : PhpHiredis.redisEnqueue s fn none =
        PhpHiredis.enqueueMain { s with heap := s.heap.alloc c } s.heap.size :=
      if_neg (not_not.mpr hm)
    rw [hs]
    have h₁ : SideNodes { s with heap := s.heap.alloc c } T := h.alloc (by simp [c])
    exact ⟨T, h₁.enqueueMain (Nat.lt_succ_self _) (h.notMem_size le_rfl)⟩
  · let s₂ : RedisSock σ := { s with heap := (s.heap.alloc c).alloc skip }
    have hs : PhpHiredis.redisEnqueue s fn none =
        { PhpHiredis.enqueueMulti (PhpHiredis.enqueueMain s₂ (s.heap.size + 1)) s.heap.size with
          multi_commands := s.multi_commands + 1 } := if_pos hm
    have h₂ : SideNodes s₂ T := (h.alloc (by simp [c])).alloc (by simp [skip])
    have hcell : s₂.heap.cells s.heap.size = c := by
      change ((s.heap.alloc c).alloc skip).cells s.heap.size = c
      rw [Heap.alloc_cells _ _ (Nat.lt_succ_self _), Heap.alloc_new]
    -- the node is counted before any queue takes it
    have h₃ : SideNodes s₂ (Set.insert s.heap.size T) := by
      have hfn : s₂.heap.Validates s.heap.size fn := ⟨by rw [hcell], by rw [hcell]⟩
      refine h₂.insert (Nat.lt_succ_of_lt (Nat.lt_succ_self _)) hfn ?_ ?_
      · rw [Heap.next, hcell]
      · intro htail
        exact absurd (h.main _ htail).2 (Nat.lt_irrefl _)
    have hskip : s.heap.size + 1 ∉ Set.insert s.heap.size T := by
      rintro (heq | hmem)
      · omega
      · exact h.notMem_size (Nat.le_succ _) hmem
    have h₄ := (h₃.enqueueMain (Nat.lt_succ_self _) hskip).enqueueMulti (Or.inl rfl)
    rw [hs]
    exact ⟨_, h₄.congr ⟨rfl, rfl, rfl, rfl, rfl⟩⟩

theorem joined (h : SideNodes s T) : SideNodes (joined s) T := by
  have h₁ : SideNodes { s with heap := s.heap.alloc ⟨none, none, none, s.multi_head⟩ } T :=
    h.alloc h.head
  have h₂ := h₁.enqueueMain (Nat.lt_succ_self _) (h.notMem_size le_rfl)
  exact h₂.congr ⟨rfl, rfl, rfl, rfl, rfl⟩

theorem queues (h : SideNodes s T) (ret : Returned) (call : Call) :
    ∃ T', SideNodes (call.queues s ret) T' := by
  cases call with
  | command c =>
      rw [Call.queues]
      split_ifs
      · exact ⟨T, h⟩
      · exact h.redisEnqueue c.validator
  | pipeline =>
      rw [Call.queues]
      split_ifs
      · exact ⟨T, h.clearMain⟩
      · exact ⟨T, h⟩
  | send =>
      rw [Call.queues]
      split_ifs
      · exact ⟨T, h⟩
      · exact ⟨T, h.clearMain⟩
  | multi =>
      rw [Call.queues]
      split_ifs
      · exact ⟨T, h⟩
      · cases ret with
        | self => exact ⟨T, h.clearSide⟩
        | value z => exact ⟨T, h⟩
      · have h₁ : SideNodes { s with multi := 1 } T := h.congr ⟨rfl, rfl, rfl, rfl, rfl⟩
        obtain ⟨T', h'⟩ := h₁.redisEnqueue .status
        exact ⟨T', h'.clearSide⟩
  | exec =>
      rw [Call.queues]
      split_ifs
      · exact ⟨T, h.clearSide⟩
      · exact ⟨T, h.joined⟩

theorem connected (ctx : ExtContext σ) : SideNodes (RedisSock.connected ctx) ∅ where
  bound _ ha := ha.elim
  validates _ ha := ha.elim
  next _ ha := ha.elim
  blocks _ ha := absurd ha (Nat.not_lt_zero _)
  head _ ha := by cases ha
  tail _ ha := by cases ha
  main _ ha := by cases ha

theorem mem_chain (h : SideNodes s T) {p : Option ℕ} {l : List ℕ} (hl : Chain s.heap.next p l)
    (hp : ∀ a, p = some a → a ∈ T) : ∀ a ∈ l, a ∈ T := by
  induction l generalizing p with
  | nil => simp
  | cons a l ih =>
      have ha := hp a hl.1
      intro b hb
      rcases List.mem_cons.mp hb with rfl | hb
      · exact ha
      · exact ih hl.2 (h.next a ha) b hb

theorem validates_all (h : SideNodes s T) {l : List ℕ} (hl : ∀ a ∈ l, a ∈ T) :
    ∃ fns, List.Forall₂ s.heap.Validates l fns := by
  induction l with
  | nil => exact ⟨[], .nil⟩
  | cons a l ih =>
      obtain ⟨fn, hfn⟩ := h.validates a (hl a (by simp))
      obtain ⟨fns, hfns⟩ := ih fun b hb => hl b (by simp [hb])
      exact ⟨fn :: fns, .cons hfn hfns⟩

end SideNodes

theorem Reached.sideNodes {peer : Peer σ} {allowed : RedisSock σ × Ledger → Call → Prop}
    {r : RedisSock σ × Ledger} (h : Reached Fresh (Recorded peer) allowed r) :
    ∃ T, SideNodes r.1 T := by
  refine Reached.invariant (I := fun r => ∃ T, SideNodes r.1 T) ?_ ?_ h
  · intro r hr
    obtain ⟨⟨fd, sock, hs⟩, -⟩ := hr
    rw [hs]
    exact ⟨∅, SideNodes.connected _⟩
  · intro r call r' hr _ hstep
    obtain ⟨ret, hrun, -⟩ := hstep
    obtain ⟨T, hT⟩ := hr
    obtain ⟨T', hT'⟩ := hT.queues ret call
    exact ⟨T', hT'.congr (Call.run_queues hrun)⟩

/-- What the loop of `send` adds to its result for the node `c` and its reply. -/
def nodeValues (heap : Heap) (c : ℕ) (z_current : Zval) : Run (List Zval) :=
  match (heap.cells c).multi with
  | some cm => do
      let h_index ← z_current.arrval
      let z_tab ← replayBlock heap (some cm) (h_index.map Prod.snd) []
      return [.array z_tab]
  | none => do
      let (r, z) ← callFun (heap.cells c) z_current
      return if r = 0 then [z] else []

/-- The loop reads a reply for every node, and adds the values of the node. -/
theorem sendLoop_node (peer : Peer σ) (heap : Heap) (n c : ℕ) (ctx : ExtContext σ)
    (ret : HashTable) :
    sendLoop peer heap (n + 1) (some c) ctx ret = (do
      let (z_current, ctx) ← readInto peer (makeZval ctx (c + 1)) (c + 1)
      let vals ← nodeValues heap c z_current
      sendLoop peer heap n (heap.cells c).next
        (if (heap.cells c).multi.isSome then freeZval ctx (c + 1) else ctx)
        (vals.foldl (fun tab z => addNextIndex z tab) ret)) := by
  rw [sendLoop]
  refine congrArg _ (funext fun t => ?_)
  cases hm : (heap.cells c).multi with
  | none =>
      simp only [nodeValues, hm, bind_assoc, Outcome.pure_eq, Outcome.ok_bind]
      refine congrArg _ (funext fun u => ?_)
      by_cases h0 : u.1 = 0 <;> simp [h0]
  | some cm => simp [nodeValues, hm, bind_assoc]

/-- One value for every command, when all of their validators return. -/
theorem validated_length {fns : List Validator} (hfns : ∀ fn ∈ fns, fn ≠ .skip) {zs : List Zval}
    (h : List.Forall₂ (fun fn z => (fn.apply z none).Returns) fns zs) (more : List Validator) :
    ∃ vals, vals.length = fns.length ∧ validated (fns ++ more) zs = .ok vals := by
  induction h with
  | nil => exact ⟨[], rfl, by cases more <;> rfl⟩
  | @cons fn z fns zs hfn _ ih =>
      obtain ⟨⟨r, v⟩, happly⟩ := hfn
      obtain ⟨vals, hlen, hvals⟩ := ih fun fn hmem => hfns fn (by simp [hmem])
      have hr : r = 0 := Validator.apply_zero (hfns fn (by simp)) happly
      refine ⟨v :: vals, by simp [hlen], ?_⟩
      simp only [List.cons_append, validated, happly, Outcome.ok_bind, hvals, hr, if_true,
        Outcome.pure_eq]

/-- `send` replays the node `c` with validators only. A command adds the value
that its validator keeps. A block adds one array, and to the elements of an
array with one for each of its commands, one value for each. -/
def Replays (h : Heap) (c : ℕ) : Entry → Prop
  | .reply fn => (h.cells c).fun = some fn ∧
      ∀ z, nodeValues h c z = fn.apply z none >>= fun t => .ok (if t.1 = 0 then [t.2] else [])
  | .block fns => (h.cells c).multi ≠ none ∧
      (∃ more, ∀ z, nodeValues h c z = z.arrval >>= fun es =>
        validated (fns ++ more) (es.map Prod.snd) >>= fun vals => .ok [.array (listTable vals)]) ∧
      ∀ elems : List Reply,
        List.Forall₂ (fun fn z => (fn.apply z none).Returns) fns (elems.map Reply.value) →
          ∃ vals, vals.length = fns.length ∧
            nodeValues h c (Reply.array elems).value = .ok [.array (listTable vals)]

theorem replays_reply {h : Heap} {c : ℕ} {fn : Validator} (hs : h.Stands c (.reply fn)) :
    Replays h c (.reply fn) := by
  obtain ⟨hfn, hmulti⟩ := hs
  refine ⟨hfn.1, fun z => ?_⟩
  simp only [nodeValues, hmulti, callFun_validates hfn]
  rfl

/-- The list of a block that is not empty, with what was hung on it later. -/
theorem replays_block {s : RedisSock σ} {T : Set ℕ} (hT : SideNodes s T) {c : ℕ}
    (hc : c < s.heap.size) {fns : List Validator} (hs : s.heap.Stands c (.block fns))
    (hne : fns ≠ []) (hskip : ∀ fn ∈ fns, fn ≠ .skip) : Replays s.heap c (.block fns) := by
  obtain ⟨-, -, l, extra, hchain, -, hfns⟩ := hs
  have hmem := hT.mem_chain hchain (hT.blocks c hc)
  obtain ⟨more, hmore⟩ := hT.validates_all fun a ha => hmem a (List.mem_append_right l ha)
  have hall : List.Forall₂ s.heap.Validates (l ++ extra) (fns ++ more) := List.rel_append hfns hmore
  have hhead : (s.heap.cells c).multi = (l ++ extra).head? := hchain.head
  cases hm : (s.heap.cells c).multi with
  | none =>
      rw [hm] at hhead
      have hnil := List.head?_eq_none_iff.mp hhead.symm
      rw [hnil] at hall
      cases hl : fns with
      | nil => exact absurd hl hne
      | cons fn fns' =>
          rw [hl] at hall
          cases hall
  | some cm =>
      have hblock : ∀ zs, replayBlock s.heap (some cm) zs [] =
          validated (fns ++ more) zs >>= fun vals => .ok (listTable vals) := by
        intro zs
        have hp : Chain s.heap.next (some cm) (l ++ extra ++ []) := by
          rw [List.append_nil, ← hm]
          exact hchain
        exact replayBlock_eq hall hp (Or.inl rfl) []
      have hvalues : ∀ z, nodeValues s.heap c z = z.arrval >>= fun es =>
          validated (fns ++ more) (es.map Prod.snd) >>= fun vals =>
            .ok [.array (listTable vals)] := by
        intro z
        simp only [nodeValues, hm, hblock, bind_assoc, Outcome.ok_bind, Outcome.pure_eq]
      refine ⟨by simp [hm], ⟨more, hvalues⟩, ?_⟩
      intro elems helems
      obtain ⟨vals, hlen, hvals⟩ := validated_length hskip helems more
      refine ⟨vals, hlen, ?_⟩
      rw [hvalues, Reply.value_array, Zval.arrval, Outcome.ok_bind, listTable_values, hvals]
      rfl

/-- What is waiting comes from commands, and no block is empty. -/
structure Ledger.Genuine (l : Ledger) : Prop where
  waiting : ∀ p ∈ l.waiting, p.2 ≠ .skip
  blocks : ∀ p ∈ l.entries, ∀ fns, p.2 = .block fns → fns ≠ [] ∧ ∀ fn ∈ fns, fn ≠ .skip

namespace Ledger.Genuine
variable {l : Ledger}

theorem addReply (h : l.Genuine) (c : ℕ) (fn : Validator) :
    Genuine { l with entries := l.entries ++ [(c, .reply fn)] } where
  waiting := h.waiting
  blocks p hp fns hfns := by
    rcases List.mem_append.mp hp with hp | hp
    · exact h.blocks p hp fns hfns
    · rw [List.mem_singleton] at hp
      subst hp
      cases hfns

theorem clearWaiting (h : l.Genuine) : Genuine { l with waiting := [] } :=
  ⟨by simp, h.blocks⟩

theorem clearEntries (h : l.Genuine) : Genuine { l with entries := [] } :=
  ⟨h.waiting, by simp⟩

theorem enqueue (h : l.Genuine) (s : RedisSock σ) {fn : Validator} (hfn : fn ≠ .skip) :
    (l.enqueue s fn).Genuine := by
  unfold Ledger.enqueue
  split_ifs
  · exact h.addReply _ _
  · refine ⟨?_, (h.addReply _ _).blocks⟩
    intro p hp
    rcases List.mem_append.mp hp with hp | hp
    · exact h.waiting p hp
    · rw [List.mem_singleton] at hp
      subst hp
      exact hfn

theorem join (h : l.Genuine) (hne : l.waiting ≠ []) (c : ℕ) :
    Genuine { l with entries := l.entries ++ [(c, .block (l.waiting.map Prod.snd))] } where
  waiting := h.waiting
  blocks p hp fns hfns := by
    rcases List.mem_append.mp hp with hp | hp
    · exact h.blocks p hp fns hfns
    · rw [List.mem_singleton] at hp
      subst hp
      cases hfns
      refine ⟨by simpa using hne, ?_⟩
      intro fn hfn
      obtain ⟨q, hq, rfl⟩ := List.mem_map.mp hfn
      exact h.waiting q hq

theorem after (h : l.Genuine) {s : RedisSock σ} {call : Call}
    (hexec : call = .exec → s.pipeline ≠ 0 → l.waiting ≠ []) (ret : Returned) :
    (l.after s ret call).Genuine := by
  cases call with
  | command c =>
      rw [Ledger.after]
      split_ifs
      · exact h
      · exact h.enqueue s c.validator_ne_skip
  | pipeline =>
      rw [Ledger.after]
      split_ifs
      · exact h.clearEntries
      · exact h
  | send =>
      rw [Ledger.after]
      split_ifs
      · exact h
      · exact h.clearEntries
  | multi =>
      rw [Ledger.after]
      split_ifs
      · exact h
      · cases ret with
        | self => exact h.clearWaiting
        | value z => exact h
      · exact (h.addReply _ _).clearWaiting
  | exec =>
      rw [Ledger.after]
      split_ifs with hp
      · exact h.clearWaiting
      · exact h.join (hexec rfl hp) _

end Ledger.Genuine

/-- In a pipeline `exec` is called only when some command waits in the side queue. -/
def ClosesCommands (r : RedisSock σ × Ledger) (call : Call) : Prop :=
  call = .exec → r.1.pipeline ≠ 0 → r.1.multi_head ≠ none

theorem Reached.genuine {peer : Peer σ} {r : RedisSock σ × Ledger}
    (h : Reached Fresh (Recorded peer) ClosesCommands r) : r.2.Genuine := by
  have hboth : r.2.Records r.1 ∧ r.2.Genuine := by
    refine Reached.invariant (I := fun r => r.2.Records r.1 ∧ r.2.Genuine) ?_ ?_ h
    · intro r hr
      obtain ⟨⟨fd, sock, hs⟩, hl⟩ := hr
      rw [hs, hl]
      exact ⟨Ledger.records_connected _, by simp [Ledger.empty], by simp [Ledger.empty]⟩
    · intro r call r' hr hallowed hstep
      obtain ⟨ret, hrun, hl⟩ := hstep
      rw [hl]
      refine ⟨(Ledger.records_after hr.1 hrun).1, hr.2.after ?_ ret⟩
      intro hexec hp hnil
      refine hallowed hexec hp ?_
      rw [hr.1.multi_head, hnil]
      rfl
  exact hboth.2

/-- In every run in which no empty block is closed in a pipeline, whatever the
peer answers, the main queue is a chain of nodes that `send` can replay: commands
with their validators, and blocks that add one array each. -/
theorem replayable {peer : Peer σ} {s : RedisSock σ} {l : Ledger}
    (h : Reached Fresh (Recorded peer) ClosesCommands (s, l)) :
    QueueRep s.heap s.queue_head s.queue_tail (l.entries.map Prod.fst) ∧
      ∀ p ∈ l.entries, Replays s.heap p.1 p.2 := by
  have hrec : HoldsAt s _ _ _ _ := Reached.records h
  obtain ⟨T, hT⟩ := Reached.sideNodes h
  have hgenuine : l.Genuine := Reached.genuine h
  refine ⟨hrec.main, ?_⟩
  intro p hp
  have hlt : p.1 < s.heap.size := hrec.main.bound p.1 (List.mem_map_of_mem hp)
  have hstands : s.heap.Stands p.1 p.2 := by
    have hall := List.forall₂_map_left_iff.mp (List.forall₂_map_right_iff.mp hrec.entries)
    exact List.forall₂_same.mp hall p hp
  obtain ⟨c, e⟩ := p
  cases e with
  | reply fn => exact replays_reply hstands
  | block fns =>
      obtain ⟨hne, hskip⟩ := hgenuine.blocks _ hp fns rfl
      exact replays_block hT hlt hstands hne hskip

def stateAfter (peer : Peer σ) (calls : List Call) (s : RedisSock σ) : RedisSock σ :=
  match runCalls peer calls s with
  | .ok (_, s') => s'
  | _ => s

/-- The join of a block with one command. -/
theorem replayable_ping :
    Replays (stateAfter silent [.pipeline, .multi, .command .ping, .exec] newConnection).heap 4
      (.block [.string]) := by
  let s₁ := stateAfter silent [.pipeline] newConnection
  let s₂ := stateAfter silent [.pipeline, .multi] newConnection
  let s₃ := stateAfter silent [.pipeline, .multi, .command .ping] newConnection
  let s₄ := stateAfter silent [.pipeline, .multi, .command .ping, .exec] newConnection
  let l₃ : Ledger := ⟨[(1, .reply .skip), (3, .reply .skip)], [(2, .string)]⟩
  let l₄ : Ledger := ⟨l₃.entries ++ [(4, .block [.string])], l₃.waiting⟩
  have h₀ : Reached Fresh (Recorded silent) ClosesCommands (newConnection, .empty) :=
    .init ⟨⟨3, ⟨(), [], []⟩, rfl⟩, rfl⟩
  have h₁ : Reached Fresh (Recorded silent) ClosesCommands (s₁, .empty) :=
    h₀.step (l := .pipeline) (fun h => by cases h) ⟨.self, rfl, rfl⟩
  have h₂ : Reached Fresh (Recorded silent) ClosesCommands (s₂, ⟨[(1, .reply .skip)], []⟩) :=
    h₁.step (l := .multi) (fun h => by cases h) ⟨.self, rfl, rfl⟩
  have h₃ : Reached Fresh (Recorded silent) ClosesCommands (s₃, l₃) :=
    h₂.step (l := .command .ping) (fun h => by cases h) ⟨.self, rfl, rfl⟩
  have h₄ : Reached Fresh (Recorded silent) ClosesCommands (s₄, l₄) :=
    h₃.step (l := .exec) (fun _ _ => show some 2 ≠ none by simp) ⟨.self, rfl, rfl⟩
  exact (replayable h₄).2 (4, .block [.string]) (by simp [l₄])

def followsNull {α : Type} : Run α → Bool
  | .fault .nullPointer => true
  | _ => false

theorem of_followsNull {α : Type} {x : Run α} (h : followsNull x = true) :
    x = .fault .nullPointer := by
  unfold followsNull at h
  split at h
  · rfl
  · cases h

/-- A server that confirms `MULTI`, and then replies the empty array to `EXEC`. -/
def emptyExecPeer : Peer Unit := answering [.data ⟨ascii "+OK\r\n*0\r\n", by decide⟩]

/-- The join of an empty block has neither a validator nor a list, and `send` calls `NULL`. -/
theorem not_replayable_empty :
    let s := stateAfter emptyExecPeer [.pipeline, .multi, .exec] newConnection
    Reached Connects (Leads emptyExecPeer) (fun _ _ => True) s ∧
      (∃ j, s.queue_tail = some j ∧ (s.heap.cells j).fun = none ∧ (s.heap.cells j).multi = none) ∧
      Call.send.run emptyExecPeer s = .fault .nullPointer := by
  intro s
  let s₁ := stateAfter emptyExecPeer [.pipeline] newConnection
  let s₂ := stateAfter emptyExecPeer [.pipeline, .multi] newConnection
  have h₀ : Reached Connects (Leads emptyExecPeer) (fun _ _ => True) newConnection :=
    .init ⟨3, ⟨(), [], []⟩, rfl⟩
  have h₁ : Reached Connects (Leads emptyExecPeer) (fun _ _ => True) s₁ :=
    h₀.step (l := .pipeline) trivial ⟨.self, rfl⟩
  have h₂ : Reached Connects (Leads emptyExecPeer) (fun _ _ => True) s₂ :=
    h₁.step (l := .multi) trivial ⟨.self, rfl⟩
  refine ⟨h₂.step (l := .exec) trivial ⟨.self, rfl⟩, ⟨2, rfl, rfl, rfl⟩, ?_⟩
  exact of_followsNull (by decide +kernel)

section
variable {peer : Peer σ} {s s' : RedisSock σ} {l : Ledger}

/-- The list that hangs from the node `j` has exactly these validators. -/
def BlockIs (h : Heap) (j : ℕ) (fns : List Validator) : Prop :=
  ∃ nodes, Chain h.next (h.cells j).multi nodes ∧ List.Forall₂ h.Validates nodes fns

/-- The list that hangs from the node `j` has more than `n` nodes. -/
def BlockLonger (h : Heap) (j n : ℕ) : Prop :=
  ∃ nodes, Chain h.next (h.cells j).multi nodes ∧ (∀ a ∈ nodes, a < h.size) ∧ n < nodes.length

theorem BlockLonger.not_blockIs {h : Heap} {j : ℕ} {fns : List Validator}
    (hlong : BlockLonger h j fns.length) : ¬BlockIs h j fns := by
  intro hblock
  obtain ⟨nodes, hchain, -, hlen⟩ := hlong
  obtain ⟨nodes', hchain', hfns⟩ := hblock
  rw [hchain.unique hchain', hfns.length_eq] at hlen
  exact Nat.lt_irrefl _ hlen

theorem BlockLonger.mono {h h' : Heap} (hext : h.Extends h') {j n : ℕ} (hj : j < h.size)
    (hlong : BlockLonger h j n) : BlockLonger h' j n := by
  obtain ⟨nodes, hchain, hbound, hlen⟩ := hlong
  obtain ⟨extra, hchain', hbound'⟩ := hext.chain hchain hbound
  refine ⟨nodes ++ extra, ?_, hbound', ?_⟩
  · rw [(hext.node j hj).2.2]
    exact hchain'
  · rw [List.length_append]
    omega

theorem Ledger.Records.calls (h : l.Records s) {calls : List Call} {rets : List Returned}
    (hrun : runCalls peer calls s = .ok (rets, s')) : ∃ l' : Ledger, Follows s s' l' := by
  induction calls generalizing s l rets with
  | nil =>
      cases hrun
      exact ⟨l, h, .refl _⟩
  | cons call calls ih =>
      obtain ⟨ret, s₁, rets', hcall, hcalls, rfl⟩ := runCalls_cons_ok hrun
      obtain ⟨hrec, hext⟩ := Ledger.records_after h hcall
      obtain ⟨l', hrec', hext'⟩ := ih hrec hcalls
      exact ⟨l', hrec', hext.trans hext'⟩

/-- Inside a block of a pipeline whose commands so far are `fns`. -/
structure InBlock (s : RedisSock σ) (l : Ledger) (fns : List Validator) : Prop where
  records : l.Records s
  pipeline : s.pipeline ≠ 0
  multi : s.multi ≠ 0
  waiting : l.waiting.map Prod.snd = fns

theorem inBlock_multi (h : l.Records s) (hm : s.mode = .direct) (hp : s.pipeline ≠ 0)
    {ret : Returned} (hrun : Call.multi.run peer s = .ok (ret, s')) :
    InBlock s' (l.after s ret .multi) [] := by
  have hafter : (l.after s ret .multi).waiting = [] := by
    rw [Ledger.after, if_neg (not_not.mpr hm), if_neg hp]
  have hrec := (Ledger.records_after h hrun).1
  cases (multi_pipelined_run peer hm hp).symm.trans hrun
  have hpipe : (opened s).pipeline = s.pipeline := redisEnqueue_pipeline ..
  have hmulti : (opened s).multi = 1 := redisEnqueue_multi ..
  refine ⟨hrec, ?_, ?_, ?_⟩
  · rw [hpipe]
    exact hp
  · rw [hmulti]
    exact Nat.one_ne_zero
  · rw [hafter]
    rfl

theorem InBlock.command {fns : List Validator} (h : InBlock s l fns) {c : Command} {ret : Returned}
    (hrun : c.run peer s = .ok (ret, s')) :
    InBlock s' (l.after s ret (.command c)) (fns ++ validators [c]) := by
  obtain ⟨-, hmulti, hpipe⟩ := Command.run_modes hrun
  have hcall : (Call.command c).run peer s = .ok (ret, s') := hrun
  refine ⟨(Ledger.records_after h.records hcall).1, ?_, ?_, ?_⟩
  · rw [hpipe]
    exact h.pipeline
  · rw [hmulti]
    exact h.multi
  · rw [Ledger.after]
    cases hc : c.sent with
    | none =>
        rw [if_pos rfl, h.waiting, validators, sentOf_cons_none hc]
        simp [sentOf]
    | some ws =>
        rw [if_neg (by simp), Ledger.enqueue, if_neg h.multi, validators, sentOf_cons_some hc]
        simp [h.waiting, sentOf]

theorem InBlock.commands {fns : List Validator} (h : InBlock s l fns) {cs : List Command}
    {rets : List Returned} (hrun : runCalls peer (cs.map .command) s = .ok (rets, s')) :
    ∃ l' : Ledger, InBlock s' l' (fns ++ validators cs) := by
  induction cs generalizing s l fns rets with
  | nil =>
      cases hrun
      refine ⟨l, ?_⟩
      simpa [validators, sentOf] using h
  | cons c cs ih =>
      obtain ⟨ret, s₁, rets', hcall, hcalls, rfl⟩ := runCalls_cons_ok hrun
      obtain ⟨l', h'⟩ := ih (h.command hcall) hcalls
      refine ⟨l', ?_⟩
      rw [validators_cons, ← List.append_assoc]
      exact h'

/-- The node `j` is the join of a closed block with the commands `fns`, and the
side queue still begins where its list does. -/
structure ClosedBlock (s : RedisSock σ) (l : Ledger) (j : ℕ) (fns : List Validator) : Prop where
  records : l.Records s
  mode : s.mode = .direct
  pipeline : s.pipeline ≠ 0
  multi : s.multi = 0
  lt : j < s.heap.size
  shared : (s.heap.cells j).multi = s.multi_head
  waiting : l.waiting.map Prod.snd = fns

theorem enqueueMain_multi (s : RedisSock σ) (c a : ℕ) :
    ((enqueueMain s c).heap.cells a).multi = (s.heap.cells a).multi := by
  cases ht : s.queue_tail with
  | none => simp only [enqueueMain, redisEnqueue_, ht]
  | some t =>
      simp only [enqueueMain, redisEnqueue_, ht]
      exact (Heap.setNext_node s.heap t c a).2.2

theorem InBlock.exec {fns : List Validator} (h : InBlock s l fns) {ret : Returned}
    (hrun : Call.exec.run peer s = .ok (ret, s')) :
    ∃ j, s'.queue_tail = some j ∧ ClosedBlock s' (l.after s ret .exec) j fns := by
  have hafter : l.after s ret .exec = { l with
      entries := l.entries ++ [(s.heap.size, .block (l.waiting.map Prod.snd))] } := by
    rw [Ledger.after, if_neg h.pipeline]
  have hrec := (Ledger.records_after h.records hrun).1
  have hlt : s.heap.size < s'.heap.size := hrec.main.bound _ (by simp [hafter])
  obtain ⟨h0, -⟩ | ⟨-, -, -, rfl⟩ := exec_cases hrun
  · exact absurd h0 h.pipeline
  · have hjoin : ((joined s).heap.cells s.heap.size).multi = s.multi_head := by
      have hcell := enqueueMain_multi
        { redisSockGet s with heap := s.heap.alloc ⟨none, none, none, s.multi_head⟩ }
        s.heap.size s.heap.size
      rw [Heap.alloc_new] at hcell
      exact hcell
    refine ⟨s.heap.size, ?_, hrec, rfl, h.pipeline, rfl, hlt, hjoin, ?_⟩
    · simp only [joined, enqueueMain, redisEnqueue_]
      cases (redisSockGet s).queue_tail <;> rfl
    · rw [hafter]
      exact h.waiting

namespace ClosedBlock
variable {j : ℕ} {fns : List Validator}

/-- As long as the side queue is not touched the block is the side queue. -/
theorem blockIs (h : ClosedBlock s l j fns) : BlockIs s.heap j fns := by
  refine ⟨l.waiting.map Prod.fst, ?_, ?_⟩
  · rw [h.shared]
    exact h.records.side.chain
  · rw [← h.waiting]
    exact h.records.waiting

theorem of_follows (h : ClosedBlock s l j fns) {l' : Ledger} (hf : Ledger.Follows s s' l')
    (hw : l'.waiting = l.waiting) (hmode : s'.mode = .direct) (hp : s'.pipeline ≠ 0)
    (hm : s'.multi = 0) : ClosedBlock s' l' j fns := by
  obtain ⟨hrec, hext⟩ := hf
  refine ⟨hrec, hmode, hp, hm, Nat.lt_of_lt_of_le h.lt hext.size, ?_, ?_⟩
  · rw [(hext.node j h.lt).2.2, h.shared, h.records.multi_head, hrec.multi_head, hw]
  · rw [hw]
    exact h.waiting

theorem call (h : ClosedBlock s l j fns) {call : Call} (hsend : call ≠ .send)
    (hmulti : call ≠ .multi)
    {ret : Returned} (hrun : call.run peer s = .ok (ret, s')) :
    ClosedBlock s' (l.after s ret call) j fns := by
  have hf := Ledger.records_after h.records hrun
  cases call with
  | send => exact absurd rfl hsend
  | multi => exact absurd rfl hmulti
  | command c =>
      obtain ⟨hmode, hmulti, hpipe⟩ := Command.run_modes hrun
      have hw : (l.after s ret (.command c)).waiting = l.waiting := by
        rw [Ledger.after]
        split_ifs
        · rfl
        · rw [Ledger.enqueue, if_pos h.multi]
      exact h.of_follows hf hw (hmode.trans h.mode) (hpipe ▸ h.pipeline) (hmulti.trans h.multi)
  | pipeline =>
      obtain ⟨hguard, -, -⟩ | ⟨hguard, -, rfl⟩ := pipeline_cases hrun
      · exact absurd hguard.2 h.pipeline
      · have hw : (l.after s ret .pipeline).waiting = l.waiting := by
          rw [Ledger.after, if_neg hguard]
        exact h.of_follows hf hw h.mode h.pipeline h.multi
  | exec =>
      have hw : (l.after s ret .exec).waiting = l.waiting := by
        rw [Ledger.after, if_neg h.pipeline]
      obtain ⟨h0, -⟩ | ⟨-, -, -, rfl⟩ := exec_cases hrun
      · exact absurd h0 h.pipeline
      · exact h.of_follows hf hw rfl h.pipeline rfl

/-- The next `multi` hangs one more node on a list that is not empty. -/
theorem reopened (h : ClosedBlock s l j fns) (hne : fns ≠ []) {ret : Returned}
    (hrun : Call.multi.run peer s = .ok (ret, s')) : BlockLonger s'.heap j fns.length := by
  have hrec : HoldsAt { s with multi := 1 } _ _ _ _ :=
    h.records.congr ⟨rfl, rfl, rfl, rfl, rfl⟩
  obtain ⟨h₁, hext⟩ := hrec.redisEnqueue_multi (show (1 : ℕ) ≠ 0 by decide) .status
  have hheap : s'.heap = (redisEnqueue { s with multi := 1 } .status none).heap := by
    have hq := (Call.run_queues hrun).heap
    rw [Call.queues, if_neg (not_not.mpr h.mode), if_neg h.pipeline] at hq
    exact hq
  have hsq : l.waiting.map Prod.fst ≠ [] := by
    intro hnil
    rw [List.map_eq_nil_iff] at hnil
    rw [← h.waiting, hnil] at hne
    exact hne rfl
  have hhead : (s'.heap.cells j).multi =
      (redisEnqueue { s with multi := 1 } .status none).multi_head := by
    rw [hheap, (hext.node j h.lt).2.2, h₁.side.chain.head, List.head?_append_of_ne_nil _ hsq]
    exact h.shared.trans h.records.multi_head
  refine ⟨l.waiting.map Prod.fst ++ [s.heap.size], ?_, ?_, ?_⟩
  · rw [hhead, hheap]
    exact h₁.side.chain
  · rw [hheap]
    exact h₁.side.bound
  · rw [← h.waiting]
    simp

theorem blockIs_nil (h : ClosedBlock s l j []) {h' : Heap} (hext : s.heap.Extends h') :
    BlockIs h' j [] := by
  have hnil : l.waiting = [] := List.map_eq_nil_iff.mp h.waiting
  have hnone : (h'.cells j).multi = none := by
    rw [(hext.node j h.lt).2.2, h.shared, h.records.multi_head, hnil]
    rfl
  exact ⟨[], hnone, .nil⟩

/-- Until it is replayed, the list of a block with commands is what it was exactly
as long as `multi` is not called again. -/
theorem calls_iff (h : ClosedBlock s l j fns) (hne : fns ≠ []) {calls : List Call}
    (hsend : Call.send ∉ calls) {rets : List Returned}
    (hrun : runCalls peer calls s = .ok (rets, s')) :
    BlockIs s'.heap j fns ↔ Call.multi ∉ calls := by
  induction calls generalizing s l rets with
  | nil =>
      cases hrun
      exact iff_of_true h.blockIs List.not_mem_nil
  | cons call calls ih =>
      obtain ⟨ret, s₁, rets', hcall, hcalls, rfl⟩ := runCalls_cons_ok hrun
      rw [List.mem_cons, not_or] at hsend
      by_cases hmulti : call = .multi
      · subst hmulti
        obtain ⟨hrec, hext⟩ := Ledger.records_after h.records hcall
        obtain ⟨l', -, hext'⟩ := hrec.calls hcalls
        have hlong := (h.reopened hne hcall).mono hext' (Nat.lt_of_lt_of_le h.lt hext.size)
        exact iff_of_false hlong.not_blockIs fun hnot => hnot List.mem_cons_self
      · have h₁ := h.call (fun hs => hsend.1 hs.symm) hmulti hcall
        rw [ih h₁ hsend.2 hcalls, List.mem_cons, not_or]
        exact ⟨fun hnot => ⟨fun hm => hmulti hm.symm, hnot⟩, fun hnot => hnot.2⟩

end ClosedBlock

/-- In any pipeline, after a block from `multi` to `exec` with the commands `cs` and
any further calls but `send`: the list that hangs from its join holds exactly the
commands of the block if and only if the block is empty, or `multi` was not
called again. -/
theorem block_unchanged_iff (h : Reached Connects (Leads peer) (fun _ _ => True) s)
    (hm : s.mode = .direct) (hp : s.pipeline ≠ 0) {cs : List Command} {rets : List Returned}
    {s₁ : RedisSock σ}
    (hblock : runCalls peer (.multi :: cs.map .command ++ [.exec]) s = .ok (rets, s₁)) {j : ℕ}
    (hj : s₁.queue_tail = some j) {calls : List Call} (hsend : Call.send ∉ calls)
    {rets' : List Returned} (hrun : runCalls peer calls s₁ = .ok (rets', s')) :
    BlockIs s'.heap j (validators cs) ↔ sentOf cs = [] ∨ Call.multi ∉ calls := by
  obtain ⟨l, hl⟩ := Reached.recorded h
  have hrec : l.Records s := Reached.records hl
  obtain ⟨ret₁, s₂, rets₂, s₃, ret₃, hmulti, hcommands, hjoin⟩ := runCalls_block_ok hblock
  obtain ⟨l', hin⟩ := (inBlock_multi hrec hm hp hmulti).commands hcommands
  obtain ⟨j', hj', hclosed⟩ := hin.exec hjoin
  obtain rfl : j' = j := Option.some.inj (hj'.symm.trans hj)
  rw [List.nil_append] at hclosed
  by_cases hcs : sentOf cs = []
  · have hnil : validators cs = [] := by rw [validators, hcs, List.map_nil]
    obtain ⟨l'', -, hext⟩ := hclosed.records.calls hrun
    rw [hnil] at hclosed ⊢
    exact iff_of_true (hclosed.blockIs_nil hext) (Or.inl hcs)
  · have hne : validators cs ≠ [] := fun hnil => hcs (List.map_eq_nil_iff.mp hnil)
    rw [hclosed.calls_iff hne hsend hrun, or_iff_right hcs]

end

/-- A block with one command, and then another command. -/
theorem block_unchanged_ping :
    BlockIs (stateAfter silent [.pipeline, .multi, .command .ping, .exec, .command .ping]
      newConnection).heap 4 [.string] := by
  let s := stateAfter silent [.pipeline] newConnection
  let s₁ := stateAfter silent [.pipeline, .multi, .command .ping, .exec] newConnection
  have h : Reached Connects (Leads silent) (fun _ _ => True) s :=
    .step (l := .pipeline) (.init ⟨3, ⟨(), [], []⟩, rfl⟩) trivial ⟨.self, rfl⟩
  have hblock : runCalls silent (.multi :: [Command.ping].map .command ++ [.exec]) s =
      .ok ([.self, .self, .self], s₁) := rfl
  have hrun : runCalls silent [.command .ping] s₁ = .ok ([.self], stateAfter silent
      [.pipeline, .multi, .command .ping, .exec, .command .ping] newConnection) := rfl
  exact (block_unchanged_iff h rfl Nat.one_ne_zero hblock (show s₁.queue_tail = some 4 from rfl)
    (by simp) hrun).mpr (Or.inr (by simp))

/-- The next `multi` appends a node to the list of the block before. -/
theorem not_block_unchanged_multi :
    let s₁ := stateAfter silent [.pipeline, .multi, .command .ping, .exec] newConnection
    let s' := stateAfter silent [.pipeline, .multi, .command .ping, .exec, .multi] newConnection
    s₁.queue_tail = some 4 ∧ BlockIs s₁.heap 4 [.string] ∧
      Call.multi.run silent s₁ = .ok (.self, s') ∧
      BlockIs s'.heap 4 [.string, .status] ∧ ¬BlockIs s'.heap 4 [.string] := by
  intro s₁ s'
  have hlong : BlockLonger s'.heap 4 1 :=
    ⟨[2, 5], ⟨rfl, rfl, rfl⟩, show ∀ a ∈ [2, 5], a < 7 by decide, Nat.lt_succ_self 1⟩
  refine ⟨rfl, ⟨[2], ⟨rfl, rfl⟩, .cons ⟨rfl, rfl⟩ .nil⟩, rfl, ?_, hlong.not_blockIs⟩
  exact ⟨[2, 5], ⟨rfl, rfl, rfl⟩, .cons ⟨rfl, rfl⟩ (.cons ⟨rfl, rfl⟩ .nil)⟩

end PhpHiredis
