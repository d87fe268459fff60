import PhpHiredis.Library.Chain
import PhpHiredis.Sock

/-!
# What the queues hold

The two queues as lists. A node of the main queue stands for an entry: one
reply with its validator, or a transaction block with the validators of its
commands. The list behind a block is shared with the side queue that it was
built from, whose last node may still be written; so the nodes of a block are
only the beginning of a chain. Every operation on the queues extends the heap:
it changes no node but for the pointer of a last one.
-/
namespace PhpHiredis

open Library

namespace Heap

def next (h : Heap) (a : ℕ) : Option ℕ := (h.cells a).next

/-- All earlier nodes are as they were, and all chains at least as long. -/
structure Extends (h h' : Heap) : Prop where
  size : h.size ≤ h'.size
  node : ∀ a < h.size, (h'.cells a).fun = (h.cells a).fun ∧
    (h'.cells a).z_args = (h.cells a).z_args ∧ (h'.cells a).multi = (h.cells a).multi
  chain : ∀ {p l}, Chain h.next p l → (∀ a ∈ l, a < h.size) →
    ∃ extra, Chain h'.next p (l ++ extra) ∧ ∀ a ∈ l ++ extra, a < h'.size

theorem Extends.refl (h : Heap) : Extends h h where
  size := le_rfl
  node _ _ := ⟨rfl, rfl, rfl⟩
  chain hl hb := ⟨[], by rwa [List.append_nil], by rwa [List.append_nil]⟩

theorem Extends.trans {h₁ h₂ h₃ : Heap} (h : Extends h₁ h₂) (h' : Extends h₂ h₃) :
    Extends h₁ h₃ where
  size := h.size.trans h'.size
  node a ha := by
    obtain ⟨h₁, h₂, h₃⟩ := h.node a ha
    obtain ⟨h₁', h₂', h₃'⟩ := h'.node a (Nat.lt_of_lt_of_le ha h.size)
    exact ⟨h₁'.trans h₁, h₂'.trans h₂, h₃'.trans h₃⟩
  chain hl hb := by
    obtain ⟨l₁, hl₁, hb₁⟩ := h.chain hl hb
    obtain ⟨l₂, hl₂, hb₂⟩ := h'.chain hl₁ hb₁
    rw [List.append_assoc] at hl₂ hb₂
    exact ⟨l₁ ++ l₂, hl₂, hb₂⟩

theorem alloc_cells (h : Heap) (c : RedisCommand) {a : ℕ} (ha : a < h.size) :
    (h.alloc c).cells a = h.cells a := Function.update_of_ne (Nat.ne_of_lt ha) _ _

@[simp] theorem alloc_new (h : Heap) (c : RedisCommand) : (h.alloc c).cells h.size = c :=
  Function.update_self ..

@[simp] theorem alloc_size (h : Heap) (c : RedisCommand) : (h.alloc c).size = h.size + 1 := rfl

theorem extends_alloc (h : Heap) (c : RedisCommand) : Extends h (h.alloc c) where
  size := Nat.le_succ _
  node a ha := by rw [alloc_cells h c ha]; exact ⟨rfl, rfl, rfl⟩
  chain hl hb := by
    refine ⟨[], ?_, fun a ha => ?_⟩
    · rw [List.append_nil]
      refine hl.congr fun a ha => ?_
      rw [next, alloc_cells h c (hb a ha), next]
    · rw [List.append_nil] at ha
      exact Nat.lt_succ_of_lt (hb a ha)

theorem next_setNext (h : Heap) (a c : ℕ) :
    (h.setNext a c).next = Function.update h.next a (some c) := by
  funext b
  by_cases hb : b = a
  · subst hb
    simp [next, setNext]
  · simp [next, setNext, Function.update_of_ne hb]

theorem setNext_node (h : Heap) (a c b : ℕ) :
    ((h.setNext a c).cells b).fun = (h.cells b).fun ∧
      ((h.setNext a c).cells b).z_args = (h.cells b).z_args ∧
      ((h.setNext a c).cells b).multi = (h.cells b).multi := by
  by_cases hb : b = a
  · subst hb
    simp [setNext]
  · simp [setNext, Function.update_of_ne hb]

theorem extends_setNext {h : Heap} {a c : ℕ} (ha : h.next a = none) (hc : h.next c = none)
    (hne : c ≠ a) (hlt : c < h.size) : Extends h (h.setNext a c) where
  size := le_rfl
  node b _ := setNext_node h a c b
  chain hl hb := by
    obtain ⟨extra, hsub, hchain⟩ := hl.write ha hc hne
    refine ⟨extra, by rwa [next_setNext], fun b hmem => ?_⟩
    rcases List.mem_append.mp hmem with hmem | hmem
    · exact hb b hmem
    · obtain rfl := List.mem_singleton.mp (hsub hmem)
      exact hlt

/-- A node that keeps a validator, and no arguments for it. -/
def Validates (h : Heap) (a : ℕ) (fn : Validator) : Prop :=
  (h.cells a).fun = some fn ∧ (h.cells a).z_args = none

theorem Validates.mono {h h' : Heap} (he : Extends h h') {a : ℕ} (ha : a < h.size) {fn : Validator}
    (hv : h.Validates a fn) : h'.Validates a fn := by
  obtain ⟨h₁, h₂, -⟩ := he.node a ha
  exact ⟨h₁.trans hv.1, h₂.trans hv.2⟩

theorem validates_mono {h h' : Heap} (he : Extends h h') {l : List ℕ} (hl : ∀ a ∈ l, a < h.size)
    {fns : List Validator} (hv : List.Forall₂ h.Validates l fns) :
    List.Forall₂ h'.Validates l fns := by
  induction hv with
  | nil => exact .nil
  | cons h₁ _ ih => exact .cons (h₁.mono he (hl _ (by simp))) (ih fun a ha => hl a (by simp [ha]))

end Heap

inductive Entry where
  | reply (fn : Validator)
  | block (fns : List Validator)

/-- The join of a block has no validator of its own; an empty block has no list. -/
def Heap.Stands (h : Heap) (c : ℕ) : Entry → Prop
  | .reply fn => h.Validates c fn ∧ (h.cells c).multi = none
  | .block fns => (h.cells c).fun = none ∧ (fns = [] → (h.cells c).multi = none) ∧
      ∃ l extra, Chain h.next (h.cells c).multi (l ++ extra) ∧ (∀ a ∈ l ++ extra, a < h.size) ∧
        List.Forall₂ h.Validates l fns

theorem Heap.Stands.mono {h h' : Heap} (he : h.Extends h') {c : ℕ} (hc : c < h.size) {e : Entry}
    (hs : h.Stands c e) : h'.Stands c e := by
  obtain ⟨hfun, -, hmulti⟩ := he.node c hc
  cases e with
  | reply fn => exact ⟨hs.1.mono he hc, hmulti.trans hs.2⟩
  | block fns =>
      obtain ⟨hnone, hempty, l, extra, hchain, hbound, hfns⟩ := hs
      obtain ⟨more, hchain', hbound'⟩ := he.chain hchain hbound
      rw [List.append_assoc] at hchain' hbound'
      refine ⟨hfun.trans hnone, fun h0 => hmulti.trans (hempty h0), l, extra ++ more, ?_, hbound',
        validates_mono he (fun a ha => hbound a (by simp [ha])) hfns⟩
      rw [hmulti]
      exact hchain'

theorem stands_mono {h h' : Heap} (he : h.Extends h') {l : List ℕ} (hl : ∀ a ∈ l, a < h.size)
    {es : List Entry} (hs : List.Forall₂ h.Stands l es) : List.Forall₂ h'.Stands l es := by
  induction hs with
  | nil => exact .nil
  | cons h₁ _ ih => exact .cons (h₁.mono he (hl _ (by simp))) (ih fun a ha => hl a (by simp [ha]))

theorem forall₂_concat {α β : Type} {R : α → β → Prop} {l : List α} {m : List β}
    (h : List.Forall₂ R l m) {a : α} {b : β} (hab : R a b) : List.Forall₂ R (l ++ [a]) (m ++ [b]) :=
  List.rel_append h (.cons hab .nil)

/-- The head and the tail of a queue with the nodes `l`. -/
structure QueueRep (h : Heap) (head tail : Option ℕ) (l : List ℕ) : Prop where
  chain : Chain h.next head l
  tail : tail = l.getLast?
  bound : ∀ a ∈ l, a < h.size

theorem queueRep_empty (h : Heap) : QueueRep h none none [] := ⟨rfl, rfl, by simp⟩

theorem QueueRep.alloc {h : Heap} {head tail : Option ℕ} {l : List ℕ} (hq : QueueRep h head tail l)
    (c : RedisCommand) : QueueRep (h.alloc c) head tail l where
  chain := hq.chain.congr fun a ha => by rw [Heap.next, h.alloc_cells c (hq.bound a ha), Heap.next]
  tail := hq.tail
  bound a ha := Nat.lt_succ_of_lt (hq.bound a ha)

theorem QueueRep.head_eq_none {h : Heap} {head tail : Option ℕ} {l : List ℕ}
    (hq : QueueRep h head tail l) : head = none ↔ tail = none := by
  rw [hq.chain.head, hq.tail, List.head?_eq_none_iff, List.getLast?_eq_none_iff]

theorem QueueRep.notMem_size {h : Heap} {head tail : Option ℕ} {l : List ℕ}
    (hq : QueueRep h head tail l) {n : ℕ} (hn : h.size ≤ n) : n ∉ l :=
  fun ha => absurd (hq.bound n ha) (by omega)

/-- What enqueueing a new node does to its queue, and to another one. -/
structure Enqueued (h : Heap) (l : List ℕ) (c : ℕ) (r : Heap × Option ℕ × Option ℕ) : Prop where
  queue : QueueRep r.1 r.2.1 r.2.2 (l ++ [c])
  other : ∀ {head tail m}, QueueRep h head tail m → (∀ a ∈ l, a ∉ m) → QueueRep r.1 head tail m
  «extends» : h.Extends r.1
  size : r.1.size = h.size
  fresh : ∀ b, b ∉ l → r.1.next b = h.next b

theorem redisEnqueue_spec {h : Heap} {head tail : Option ℕ} {l : List ℕ}
    (hq : QueueRep h head tail l) {c : ℕ} (hlt : c < h.size) (hc : h.next c = none) (hnew : c ∉ l) :
    Enqueued h l c (redisEnqueue_ h head tail c) := by
  have hbound : ∀ a ∈ l ++ [c], a < h.size := by
    intro a ha
    rcases List.mem_append.mp ha with ha | ha
    · exact hq.bound a ha
    · rwa [List.mem_singleton.mp ha]
  cases htail : tail with
  | none =>
      have hl : l = [] := List.getLast?_eq_none_iff.mp (hq.tail.symm.trans htail)
      subst hl
      exact ⟨⟨⟨rfl, hc⟩, rfl, hbound⟩, fun hm _ => hm, .refl h, rfl, fun _ _ => rfl⟩
  | some t =>
      have ht : l.getLast? = some t := hq.tail.symm.trans htail
      have htl : t ∈ l := List.mem_of_getLast? ht
      have hne : c ≠ t := by
        rintro rfl
        exact hnew htl
      have hnext := h.next_setNext t c
      refine ⟨⟨?_, List.getLast?_concat.symm, hbound⟩, fun hm hdisj => ⟨?_, hm.tail, hm.bound⟩,
        Heap.extends_setNext (hq.chain.next_last ht) hc hne hlt, rfl, fun b hb => ?_⟩
      · change Chain (h.setNext t c).next head (l ++ [c])
        rw [hnext]
        exact hq.chain.snoc ht hc hne
      · change Chain (h.setNext t c).next _ _
        rw [hnext]
        refine hm.chain.congr fun b hb => Function.update_of_ne ?_ _ _
        rintro rfl
        exact hdisj _ htl hb
      · change (h.setNext t c).next b = h.next b
        rw [hnext]
        refine Function.update_of_ne ?_ _ _
        rintro rfl
        exact hb htl

variable {σ : Type}

/-- The nodes and queues of two objects are the same. -/
structure SameQueues (s s' : RedisSock σ) : Prop where
  heap : s'.heap = s.heap
  queue_head : s'.queue_head = s.queue_head
  queue_tail : s'.queue_tail = s.queue_tail
  multi_head : s'.multi_head = s.multi_head
  multi_tail : s'.multi_tail = s.multi_tail

theorem redisEnqueue_withCtx (s : RedisSock σ) (ctx : ExtContext σ) (fn : Validator)
    (z_args : Option (List Zval)) :
    redisEnqueue { s with ctx := ctx } fn z_args =
      { redisEnqueue s fn z_args with ctx := ctx } := by
  unfold redisEnqueue
  simp only []
  split_ifs
  · simp only [enqueueMulti, enqueueMain, redisEnqueue_]
  · simp only [enqueueMain, redisEnqueue_]

/-- A command that returns leaves one more command in the queues, and reads do
not touch them. -/
theorem redisRunEnd_queues {peer : Peer σ} {s s' : RedisSock σ} {ctx : ExtContext σ}
    {fn : Validator} {closureArgs : Option (List Zval)} {r : Returned}
    (h : redisRunEnd peer { s with ctx := ctx } fn closureArgs = .ok (r, s')) :
    SameQueues (redisEnqueue s fn none) s' := by
  by_cases hdirect : s.pipeline = 0 ∧ s.multi = 0
  · rw [redisRunEnd_direct peer (by exact hdirect)] at h
    obtain ⟨⟨z, ctx'⟩, -, h⟩ := Outcome.bind_eq_ok.mp h
    obtain ⟨⟨n, z'⟩, -, h⟩ := Outcome.bind_eq_ok.mp h
    rw [redisEnqueue_withCtx] at h
    cases h
    exact ⟨rfl, rfl, rfl, rfl, rfl⟩
  · rw [redisRunEnd_queued peer (by exact hdirect), redisEnqueue_withCtx] at h
    cases h
    exact ⟨rfl, rfl, rfl, rfl, rfl⟩

/-- Two finite queues that have no node in common. -/
structure QueuesRep (s : RedisSock σ) (mq sq : List ℕ) : Prop where
  main : QueueRep s.heap s.queue_head s.queue_tail mq
  side : QueueRep s.heap s.multi_head s.multi_tail sq
  disjoint : ∀ a ∈ mq, a ∉ sq

namespace QueuesRep
variable {s s' : RedisSock σ} {mq sq : List ℕ}

theorem congr (h : QueuesRep s mq sq) (hq : SameQueues s s') : QueuesRep s' mq sq :=
  ⟨by rw [hq.heap, hq.queue_head, hq.queue_tail]; exact h.main,
    by rw [hq.heap, hq.multi_head, hq.multi_tail]; exact h.side, h.disjoint⟩

theorem alloc (h : QueuesRep s mq sq) (c : RedisCommand) :
    QueuesRep { s with heap := s.heap.alloc c } mq sq :=
  ⟨h.main.alloc c, h.side.alloc c, h.disjoint⟩

theorem enqueueMain (h : QueuesRep s mq sq) {c : ℕ} (hlt : c < s.heap.size)
    (hc : s.heap.next c = none) (hmq : c ∉ mq) (hsq : c ∉ sq) :
    QueuesRep (enqueueMain s c) (mq ++ [c]) sq ∧
      Enqueued s.heap mq c (redisEnqueue_ s.heap s.queue_head s.queue_tail c) := by
  have hq := redisEnqueue_spec h.main hlt hc hmq
  refine ⟨⟨hq.queue, hq.other h.side h.disjoint, ?_⟩, hq⟩
  intro a ha
  rcases List.mem_append.mp ha with ha | ha
  · exact h.disjoint a ha
  · rwa [List.mem_singleton.mp ha]

theorem enqueueMulti (h : QueuesRep s mq sq) {c : ℕ} (hlt : c < s.heap.size)
    (hc : s.heap.next c = none) (hmq : c ∉ mq) (hsq : c ∉ sq) :
    QueuesRep (enqueueMulti s c) mq (sq ++ [c]) ∧
      Enqueued s.heap sq c (redisEnqueue_ s.heap s.multi_head s.multi_tail c) := by
  have hq := redisEnqueue_spec h.side hlt hc hsq
  have hdisj : ∀ a ∈ sq, a ∉ mq := fun a ha hb => h.disjoint a hb ha
  refine ⟨⟨hq.other h.main hdisj, hq.queue, ?_⟩, hq⟩
  intro a ha hb
  rcases List.mem_append.mp hb with hb | hb
  · exact h.disjoint a ha hb
  · obtain rfl := List.mem_singleton.mp hb
    exact hmq ha

theorem enqueueMain_alloc (h : QueuesRep s mq sq) {c : RedisCommand} (hc : c.next = none) :
    QueuesRep (PhpHiredis.enqueueMain { s with heap := s.heap.alloc c } s.heap.size)
        (mq ++ [s.heap.size]) sq ∧
      Enqueued (s.heap.alloc c) mq s.heap.size
        (redisEnqueue_ (s.heap.alloc c) s.queue_head s.queue_tail s.heap.size) :=
  (h.alloc c).enqueueMain (Nat.lt_succ_self _) (by simp [Heap.next, hc])
    (h.main.notMem_size le_rfl) (h.side.notMem_size le_rfl)

theorem redisEnqueue_plain (h : QueuesRep s mq sq) (hm : s.multi = 0) (fn : Validator)
    (z_args : Option (List Zval)) :
    QueuesRep (redisEnqueue s fn z_args) (mq ++ [s.heap.size]) sq ∧
      (s.heap.alloc ⟨some fn, z_args, none, none⟩).Extends (redisEnqueue s fn z_args).heap := by
  have hs : redisEnqueue s fn z_args =
      PhpHiredis.enqueueMain { s with heap := s.heap.alloc ⟨some fn, z_args, none, none⟩ }
        s.heap.size := if_neg (not_not.mpr hm)
  obtain ⟨h₁, hq⟩ := h.enqueueMain_alloc (c := ⟨some fn, z_args, none, none⟩) rfl
  rw [hs]
  exact ⟨h₁, hq.extends⟩

/-- In a transaction a new node goes to the end of the side queue, and another to the
end of the main queue. -/
theorem redisEnqueue_multi (h : QueuesRep s mq sq) (hm : s.multi ≠ 0) (fn : Validator)
    (z_args : Option (List Zval)) :
    QueuesRep (redisEnqueue s fn z_args) (mq ++ [s.heap.size + 1]) (sq ++ [s.heap.size]) ∧
      ((s.heap.alloc ⟨some fn, z_args, none, none⟩).alloc ⟨some .skip, none, none, none⟩).Extends
        (redisEnqueue s fn z_args).heap := by
  let n := s.heap.size
  let s₁ : RedisSock σ := { s with heap := s.heap.alloc ⟨some fn, z_args, none, none⟩ }
  let s₂ : RedisSock σ := { s₁ with heap := s₁.heap.alloc ⟨some .skip, none, none, none⟩ }
  have hs : redisEnqueue s fn z_args =
      { PhpHiredis.enqueueMulti (PhpHiredis.enqueueMain s₂ (n + 1)) n with
        multi_commands := s.multi_commands + 1 } := if_pos hm
  have h₁ : QueuesRep s₁ mq sq := h.alloc _
  have hmq : n ∉ mq := h.main.notMem_size le_rfl
  have hsq : n ∉ sq := h.side.notMem_size le_rfl
  -- the node for the side queue is not touched while the main queue grows
  have hlt : n < s₂.heap.size := Nat.lt_succ_of_lt (Nat.lt_succ_self n)
  have hnext : s₂.heap.next n = none := by
    rw [Heap.next, Heap.alloc_cells _ _ (Nat.lt_succ_self n), Heap.alloc_new]
  obtain ⟨h₂, hmain⟩ := h₁.enqueueMain_alloc (c := ⟨some .skip, none, none, none⟩) rfl
  obtain ⟨h₃, hside⟩ := h₂.enqueueMulti (Nat.lt_of_lt_of_le hlt hmain.extends.size)
    ((hmain.fresh n hmq).trans hnext) (by simp [hmq, s₁, n]) hsq
  rw [hs]
  exact ⟨⟨h₃.main, h₃.side, h₃.disjoint⟩, hmain.extends.trans hside.extends⟩

end QueuesRep

structure HoldsAt (s : RedisSock σ) (es : List Entry) (fns : List Validator)
    (mq sq : List ℕ) : Prop where
  main : QueueRep s.heap s.queue_head s.queue_tail mq
  side : QueueRep s.heap s.multi_head s.multi_tail sq
  disjoint : ∀ a ∈ mq, a ∉ sq
  entries : List.Forall₂ s.heap.Stands mq es
  waiting : List.Forall₂ s.heap.Validates sq fns

/-- The main queue stands for the entries `es`, the side queue for the
validators `fns`. -/
def Holds (s : RedisSock σ) (es : List Entry) (fns : List Validator) : Prop :=
  ∃ mq sq, HoldsAt s es fns mq sq

theorem holds_connected (ctx : ExtContext σ) : Holds (RedisSock.connected ctx) [] [] :=
  ⟨[], [], queueRep_empty _, queueRep_empty _, by simp, .nil, .nil⟩

theorem Holds.head_eq_none {s : RedisSock σ} {es : List Entry} {fns : List Validator}
    (h : Holds s es fns) : s.queue_head = none ↔ es = [] := by
  obtain ⟨mq, sq, h⟩ := h
  have hlen := h.entries.length_eq
  rw [h.main.chain.head]
  cases mq with
  | nil => simpa using List.eq_nil_of_length_eq_zero hlen.symm
  | cons a mq => cases es <;> simp at hlen ⊢

theorem Holds.tail_of_ne_nil {s : RedisSock σ} {es : List Entry} {fns : List Validator}
    (h : Holds s es fns) (hes : es ≠ []) : ∃ t, s.queue_tail = some t := by
  obtain ⟨mq, sq, h⟩ := h
  have hmq : mq ≠ [] := by
    rintro rfl
    exact hes (List.eq_nil_of_length_eq_zero h.entries.length_eq.symm)
  exact ⟨mq.getLast hmq, h.main.tail.trans (List.getLast?_eq_some_getLast hmq)⟩

namespace HoldsAt
variable {s : RedisSock σ} {es : List Entry} {fns : List Validator} {mq sq : List ℕ}

theorem queues (h : HoldsAt s es fns mq sq) : QueuesRep s mq sq := ⟨h.main, h.side, h.disjoint⟩

theorem main_concat {s' : RedisSock σ} {c : ℕ} (h : HoldsAt s es fns mq sq)
    (hq : QueuesRep s' (mq ++ [c]) sq) (hext : s.heap.Extends s'.heap) {e : Entry}
    (he : s'.heap.Stands c e) : HoldsAt s' (es ++ [e]) fns (mq ++ [c]) sq :=
  ⟨hq.main, hq.side, hq.disjoint, forall₂_concat (stands_mono hext h.main.bound h.entries) he,
    Heap.validates_mono hext h.side.bound h.waiting⟩

theorem redisEnqueue_plain (h : HoldsAt s es fns mq sq) (hm : s.multi = 0) (fn : Validator) :
    HoldsAt (redisEnqueue s fn none) (es ++ [.reply fn]) fns (mq ++ [s.heap.size]) sq ∧
      s.heap.Extends (redisEnqueue s fn none).heap := by
  obtain ⟨hq, hext⟩ := h.queues.redisEnqueue_plain hm fn none
  have hnew : (s.heap.alloc ⟨some fn, none, none, none⟩).Stands s.heap.size (.reply fn) :=
    ⟨⟨by simp, by simp⟩, by simp⟩
  have hall := (Heap.extends_alloc _ _).trans hext
  exact ⟨h.main_concat hq hall (hnew.mono hext (Nat.lt_succ_self _)), hall⟩

/-- In a transaction it is a node of the side queue, and one of the main queue for its
confirmation. -/
theorem redisEnqueue_multi (h : HoldsAt s es fns mq sq) (hm : s.multi ≠ 0) (fn : Validator) :
    HoldsAt (redisEnqueue s fn none) (es ++ [.reply .skip]) (fns ++ [fn])
        (mq ++ [s.heap.size + 1]) (sq ++ [s.heap.size]) ∧
      s.heap.Extends (redisEnqueue s fn none).heap := by
  let c : RedisCommand := ⟨some fn, none, none, none⟩
  let skip : RedisCommand := ⟨some .skip, none, none, none⟩
  let n := s.heap.size
  obtain ⟨hq, hext⟩ := h.queues.redisEnqueue_multi hm fn none
  have hcell : ((s.heap.alloc c).alloc skip).cells n = c := by
    rw [Heap.alloc_cells _ _ (Nat.lt_succ_self n), Heap.alloc_new]
  have hskip : ((s.heap.alloc c).alloc skip).cells (n + 1) = skip :=
    Heap.alloc_new (s.heap.alloc c) skip
  have hstands : ((s.heap.alloc c).alloc skip).Stands (n + 1) (.reply .skip) :=
    ⟨⟨by rw [hskip], by rw [hskip]⟩, by rw [hskip]⟩
  have hfn : ((s.heap.alloc c).alloc skip).Validates n fn := ⟨by rw [hcell], by rw [hcell]⟩
  have hlt : n < ((s.heap.alloc c).alloc skip).size := Nat.lt_succ_of_lt (Nat.lt_succ_self n)
  have hall := ((Heap.extends_alloc s.heap c).trans (Heap.extends_alloc _ skip)).trans hext
  refine ⟨⟨hq.main, hq.side, hq.disjoint, ?_, ?_⟩, hall⟩
  · exact forall₂_concat (stands_mono hall h.main.bound h.entries)
      (hstands.mono hext (Nat.lt_succ_self (n + 1)))
  · exact forall₂_concat (Heap.validates_mono hall h.side.bound h.waiting) (hfn.mono hext hlt)

theorem join (h : HoldsAt s es fns mq sq) :
    HoldsAt (PhpHiredis.enqueueMain
        { s with heap := s.heap.alloc ⟨none, none, none, s.multi_head⟩ } s.heap.size)
        (es ++ [.block fns]) fns (mq ++ [s.heap.size]) sq ∧
      s.heap.Extends (PhpHiredis.enqueueMain
        { s with heap := s.heap.alloc ⟨none, none, none, s.multi_head⟩ } s.heap.size).heap := by
  let join : RedisCommand := ⟨none, none, none, s.multi_head⟩
  have hcell : (s.heap.alloc join).cells s.heap.size = join := Heap.alloc_new ..
  have hempty : fns = [] → s.multi_head = none := by
    rintro rfl
    have hsq := h.waiting
    rw [List.forall₂_nil_right_iff] at hsq
    rw [h.side.chain.head, hsq]
    rfl
  have hside := h.side.alloc join
  have hstands : (s.heap.alloc join).Stands s.heap.size (.block fns) := by
    refine ⟨by rw [hcell], by rw [hcell]; exact hempty, sq, [], ?_, ?_,
      Heap.validates_mono (Heap.extends_alloc _ _) h.side.bound h.waiting⟩
    · rw [hcell, List.append_nil]
      exact hside.chain
    · rw [List.append_nil]
      exact hside.bound
  obtain ⟨hq, hmain⟩ := h.queues.enqueueMain_alloc (c := join) rfl
  have hall := (Heap.extends_alloc s.heap join).trans hmain.extends
  exact ⟨h.main_concat hq hall (hstands.mono hmain.extends (Nat.lt_succ_self _)), hall⟩

theorem congr {s' : RedisSock σ} (h : HoldsAt s es fns mq sq) (hheap : s'.heap = s.heap)
    (h₁ : s'.queue_head = s.queue_head) (h₂ : s'.queue_tail = s.queue_tail)
    (h₃ : s'.multi_head = s.multi_head) (h₄ : s'.multi_tail = s.multi_tail) :
    HoldsAt s' es fns mq sq :=
  ⟨by rw [hheap, h₁, h₂]; exact h.main, by rw [hheap, h₃, h₄]; exact h.side, h.disjoint,
    by rw [hheap]; exact h.entries, by rw [hheap]; exact h.waiting⟩

theorem resetMain {s' : RedisSock σ} (h : HoldsAt s es fns mq sq) (hheap : s'.heap = s.heap)
    (h₁ : s'.queue_head = none) (h₂ : s'.queue_tail = none) (h₃ : s'.multi_head = s.multi_head)
    (h₄ : s'.multi_tail = s.multi_tail) : HoldsAt s' [] fns [] sq :=
  ⟨by rw [h₁, h₂]; exact queueRep_empty _, by rw [hheap, h₃, h₄]; exact h.side,
    by simp, .nil, by rw [hheap]; exact h.waiting⟩

theorem resetSide {s' : RedisSock σ} (h : HoldsAt s es fns mq sq) (hheap : s'.heap = s.heap)
    (h₁ : s'.queue_head = s.queue_head) (h₂ : s'.queue_tail = s.queue_tail)
    (h₃ : s'.multi_head = none) (h₄ : s'.multi_tail = none) : HoldsAt s' es [] mq [] :=
  ⟨by rw [hheap, h₁, h₂]; exact h.main, by rw [h₃, h₄]; exact queueRep_empty _,
    by simp, by rw [hheap]; exact h.entries, .nil⟩

end HoldsAt

section
variable {s s' : RedisSock σ} {es : List Entry} {fns : List Validator}

/-- Only the queues and the heap matter. -/
theorem Holds.congr (h : Holds s es fns) (hheap : s'.heap = s.heap)
    (h₁ : s'.queue_head = s.queue_head) (h₂ : s'.queue_tail = s.queue_tail)
    (h₃ : s'.multi_head = s.multi_head) (h₄ : s'.multi_tail = s.multi_tail) : Holds s' es fns := by
  obtain ⟨mq, sq, h⟩ := h
  exact ⟨mq, sq, h.congr hheap h₁ h₂ h₃ h₄⟩

theorem Holds.resetMain (h : Holds s es fns) (hheap : s'.heap = s.heap)
    (h₁ : s'.queue_head = none) (h₂ : s'.queue_tail = none) (h₃ : s'.multi_head = s.multi_head)
    (h₄ : s'.multi_tail = s.multi_tail) : Holds s' [] fns := by
  obtain ⟨mq, sq, h⟩ := h
  exact ⟨[], sq, h.resetMain hheap h₁ h₂ h₃ h₄⟩

theorem Holds.resetSide (h : Holds s es fns) (hheap : s'.heap = s.heap)
    (h₁ : s'.queue_head = s.queue_head) (h₂ : s'.queue_tail = s.queue_tail)
    (h₃ : s'.multi_head = none) (h₄ : s'.multi_tail = none) : Holds s' es [] := by
  obtain ⟨mq, sq, h⟩ := h
  exact ⟨mq, [], h.resetSide hheap h₁ h₂ h₃ h₄⟩

theorem Holds.redisEnqueue_plain (h : Holds s es fns) (hm : s.multi = 0) (fn : Validator) :
    Holds (redisEnqueue s fn none) (es ++ [.reply fn]) fns := by
  obtain ⟨mq, sq, h⟩ := h
  exact ⟨_, _, (h.redisEnqueue_plain hm fn).1⟩

/-- In a transaction it waits in the side queue, and its confirmation in the main one. -/
theorem Holds.redisEnqueue_multi (h : Holds s es fns) (hm : s.multi ≠ 0) (fn : Validator) :
    Holds (redisEnqueue s fn none) (es ++ [.reply .skip]) (fns ++ [fn]) := by
  obtain ⟨mq, sq, h⟩ := h
  exact ⟨_, _, (h.redisEnqueue_multi hm fn).1⟩

theorem Holds.join (h : Holds s es fns) :
    Holds (enqueueMain { s with heap := s.heap.alloc ⟨none, none, none, s.multi_head⟩ }
      s.heap.size) (es ++ [.block fns]) fns := by
  obtain ⟨mq, sq, h⟩ := h
  exact ⟨_, _, h.join.1⟩

end

end PhpHiredis
