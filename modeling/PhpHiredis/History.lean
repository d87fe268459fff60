import PhpHiredis.Modes

/-!
# The queues over a whole run

`Call.queues` says what a call that returns has done to the queues, whatever the
peer answers. A ledger is kept beside the object: it records what every call
adds, and `Ledger.records_after` says that the queues are what the ledger tells.
No call changes a node but for the pointer of a last one. What a run has queued
can then be read off the ledger: which nodes `send` will replay, and what the
blocks hold.
-/
namespace PhpHiredis

open Library Reader

variable {σ : Type}

def RedisSock.clearMain (s : RedisSock σ) : RedisSock σ :=
  { s with queue_head := none, queue_tail := none }

def RedisSock.clearSide (s : RedisSock σ) : RedisSock σ :=
  { s with multi_head := none, multi_tail := none }

/-- Outside a pipeline a `multi` that is confirmed clears the side queue. -/
def RedisSock.confirmed (s : RedisSock σ) : Returned → RedisSock σ
  | .self => s.clearSide
  | .value _ => s

/-- The queues after a call on `s` that returned `ret`. In a pipeline `multi`
enqueues before it clears the side queue, and `exec` does not clear it. -/
def Call.queues (s : RedisSock σ) (ret : Returned) : Call → RedisSock σ
  | command c => if c.sent = none then s else redisEnqueue s c.validator none
  | pipeline => if s.mode = .direct ∧ s.pipeline = 0 then s.clearMain else s
  | send => if s.pipeline = 0 ∨ s.mode ≠ .direct then s else s.clearMain
  | multi =>
      if s.mode ≠ .direct then s
      else if s.pipeline = 0 then s.confirmed ret
      else (redisEnqueue { s with multi := 1 } .status none).clearSide
  | exec => if s.pipeline = 0 then s.clearSide else joined s

section
variable {peer : Peer σ} {s s' : RedisSock σ} {ret : Returned}

theorem sameQueues_refl (s : RedisSock σ) : SameQueues s s := ⟨rfl, rfl, rfl, rfl, rfl⟩

theorem command_queues {c : Command} (h : c.run peer s = .ok (ret, s')) :
    SameQueues (Call.queues s ret (.command c)) s' := by
  rw [Command.run_eq peer s (Command.fits_of_returns ⟨_, h⟩), Command.spec] at h
  rw [Call.queues]
  cases hc : c.sent with
  | none =>
      rw [hc] at h
      cases h
      exact sameQueues_refl s
  | some ws =>
      rw [hc] at h
      rw [if_neg (by simp)]
      exact redisRunEnd_queues h

theorem multi_queues (h : Call.multi.run peer s = .ok (ret, s')) :
    SameQueues (Call.queues s ret .multi) s' := by
  rw [Call.queues]
  obtain ⟨hm, hp, z, ctx, -, hend⟩ | ⟨hm, hp, -, rfl⟩ | ⟨hm, -, rfl⟩ := multi_cases h
  · rw [if_neg (not_not.mpr hm), if_pos hp]
    obtain ⟨-, rfl, rfl⟩ | ⟨-, rfl, rfl⟩ := multiEnd_cases hend
    · exact ⟨rfl, rfl, rfl, rfl, rfl⟩
    · exact ⟨rfl, rfl, rfl, rfl, rfl⟩
  · rw [if_neg (not_not.mpr hm), if_neg hp]
    let s₁ : RedisSock σ := { s with multi := 1 }
    let s₂ : RedisSock σ := { s₁ with
      ctx := redisAppend (redisSockGet (redisSockGet s)).ctx (encodeRequest multiRequest) }
    have hctx : redisEnqueue s₂ .status none =
        { redisEnqueue s₁ .status none with ctx := s₂.ctx } :=
          redisEnqueue_withCtx s₁ _ .status none
    refine ⟨?_, ?_, ?_, rfl, rfl⟩
    · change (redisEnqueue s₂ .status none).heap = _
      rw [hctx]
      rfl
    · change (redisEnqueue s₂ .status none).queue_head = _
      rw [hctx]
      rfl
    · change (redisEnqueue s₂ .status none).queue_tail = _
      rw [hctx]
      rfl
  · rw [if_pos hm]
    exact ⟨rfl, rfl, rfl, rfl, rfl⟩

theorem exec_queues (h : Call.exec.run peer s = .ok (ret, s')) :
    SameQueues (Call.queues s ret .exec) s' := by
  rw [Call.queues]
  obtain ⟨hp, ctx₁, z, ctx₂, es, tab, -, -, -, -, -, rfl⟩ | ⟨hp, -, -, rfl⟩ := exec_cases h
  · rw [if_pos hp]
    exact ⟨rfl, rfl, rfl, rfl, rfl⟩
  · rw [if_neg hp]
    exact sameQueues_refl _

theorem Call.run_queues {call : Call} (h : call.run peer s = .ok (ret, s')) :
    SameQueues (call.queues s ret) s' := by
  cases call with
  | command c => exact command_queues h
  | multi => exact multi_queues h
  | exec => exact exec_queues h
  | pipeline =>
      rw [Call.queues]
      obtain ⟨hguard, -, rfl⟩ | ⟨hguard, -, rfl⟩ := pipeline_cases h
      · rw [if_pos hguard]
        exact ⟨rfl, rfl, rfl, rfl, rfl⟩
      · rw [if_neg hguard]
        exact ⟨rfl, rfl, rfl, rfl, rfl⟩
  | send =>
      rw [Call.queues]
      obtain ⟨hguard, tab, ctx, -, -, rfl⟩ | ⟨hguard, -, rfl⟩ := send_cases h
      · rw [if_neg hguard]
        exact ⟨rfl, rfl, rfl, rfl, rfl⟩
      · rw [if_pos hguard]
        exact ⟨rfl, rfl, rfl, rfl, rfl⟩

end

/-- The nodes of the two queues with what they stand for. -/
structure Ledger where
  entries : List (ℕ × Entry)
  waiting : List (ℕ × Validator)

namespace Ledger

def empty : Ledger := ⟨[], []⟩

/-- One more validator; in a transaction it is put aside. -/
def enqueue (s : RedisSock σ) (fn : Validator) (l : Ledger) : Ledger :=
  if s.multi = 0 then { l with entries := l.entries ++ [(s.heap.size, .reply fn)] }
  else ⟨l.entries ++ [(s.heap.size + 1, .reply .skip)], l.waiting ++ [(s.heap.size, fn)]⟩

def confirmed (l : Ledger) : Returned → Ledger
  | .self => { l with waiting := [] }
  | .value _ => l

/-- What is recorded of a call on `s` that returned `ret`. -/
def after (s : RedisSock σ) (ret : Returned) (l : Ledger) : Call → Ledger
  | .command c => if c.sent = none then l else l.enqueue s c.validator
  | .pipeline => if s.mode = .direct ∧ s.pipeline = 0 then { l with entries := [] } else l
  | .send => if s.pipeline = 0 ∨ s.mode ≠ .direct then l else { l with entries := [] }
  | .multi =>
      if s.mode ≠ .direct then l
      else if s.pipeline = 0 then l.confirmed ret
      else ⟨l.entries ++ [(s.heap.size + 1, .reply .skip)], []⟩
  | .exec =>
      if s.pipeline = 0 then { l with waiting := [] }
      else { l with entries := l.entries ++ [(s.heap.size, .block (l.waiting.map Prod.snd))] }

/-- The queues of the object are what the ledger tells. -/
def Records (l : Ledger) (s : RedisSock σ) : Prop :=
  HoldsAt s (l.entries.map Prod.snd) (l.waiting.map Prod.snd) (l.entries.map Prod.fst)
    (l.waiting.map Prod.fst)

theorem records_connected (ctx : ExtContext σ) : empty.Records (RedisSock.connected ctx) :=
  ⟨queueRep_empty _, queueRep_empty _, by simp [empty], .nil, .nil⟩

theorem Records.congr {l : Ledger} {s s' : RedisSock σ} (h : l.Records s) (hq : SameQueues s s') :
    l.Records s' :=
  HoldsAt.congr h hq.heap hq.queue_head hq.queue_tail hq.multi_head hq.multi_tail

theorem Records.multi_head {l : Ledger} {s : RedisSock σ} (h : l.Records s) :
    s.multi_head = (l.waiting.map Prod.fst).head? := h.side.chain.head

variable {s s' : RedisSock σ} {l : Ledger}

/-- The ledger follows the object, and the nodes made so far stay. -/
def Follows (s s' : RedisSock σ) (l' : Ledger) : Prop := l'.Records s' ∧ s.heap.Extends s'.heap

theorem Records.unchanged (h : l.Records s) : Follows s s l := ⟨h, .refl _⟩

theorem Records.clearMain (h : l.Records s) : Follows s s.clearMain { l with entries := [] } :=
  ⟨HoldsAt.resetMain h rfl rfl rfl rfl rfl, .refl _⟩

theorem Records.clearSide (h : l.Records s) : Follows s s.clearSide { l with waiting := [] } :=
  ⟨HoldsAt.resetSide h rfl rfl rfl rfl rfl, .refl _⟩

theorem Records.enqueue (h : l.Records s) (fn : Validator) :
    Follows s (redisEnqueue s fn none) (l.enqueue s fn) := by
  unfold Ledger.enqueue Follows Records
  split_ifs with hm
  · simp only [List.map_append, List.map_cons, List.map_nil]
    exact HoldsAt.redisEnqueue_plain h hm fn
  · simp only [List.map_append, List.map_cons, List.map_nil]
    exact HoldsAt.redisEnqueue_multi h hm fn

theorem Records.join (h : l.Records s) : Follows s (joined s)
    { l with entries := l.entries ++ [(s.heap.size, .block (l.waiting.map Prod.snd))] } := by
  obtain ⟨hrec, hext⟩ := HoldsAt.join h
  refine ⟨?_, hext⟩
  unfold Records
  simp only [List.map_append, List.map_cons, List.map_nil]
  exact hrec.congr rfl rfl rfl rfl rfl

theorem Records.queues (h : l.Records s) (ret : Returned) (call : Call) :
    Follows s (call.queues s ret) (l.after s ret call) := by
  cases call with
  | command c =>
      rw [Call.queues, after]
      split_ifs
      · exact h.unchanged
      · exact h.enqueue c.validator
  | pipeline =>
      rw [Call.queues, after]
      split_ifs
      · exact h.clearMain
      · exact h.unchanged
  | send =>
      rw [Call.queues, after]
      split_ifs
      · exact h.unchanged
      · exact h.clearMain
  | multi =>
      rw [Call.queues, after]
      split_ifs
      · exact h.unchanged
      · cases ret with
        | self => exact h.clearSide
        | value z => exact h.unchanged
      · have h₁ : l.Records { s with multi := 1 } := h.congr ⟨rfl, rfl, rfl, rfl, rfl⟩
        obtain ⟨hrec, hext⟩ := h₁.enqueue .status
        exact ⟨hrec.clearSide.1, hext⟩
  | exec =>
      rw [Call.queues, after]
      split_ifs
      · exact h.clearSide
      · exact h.join

/-- Whatever the peer answers, a call that returns leaves the queues that the
ledger tells, and keeps the nodes that were there. -/
theorem records_after (h : l.Records s) {peer : Peer σ} {call : Call} {ret : Returned}
    (hrun : call.run peer s = .ok (ret, s')) : Follows s s' (l.after s ret call) := by
  have hq := Call.run_queues hrun
  obtain ⟨hrec, hext⟩ := h.queues ret call
  refine ⟨hrec.congr hq, ?_⟩
  rw [hq.heap]
  exact hext

end Ledger

def Fresh (r : RedisSock σ × Ledger) : Prop := Connects r.1 ∧ r.2 = .empty

def Recorded (peer : Peer σ) (r : RedisSock σ × Ledger) (call : Call) (r' : RedisSock σ × Ledger) :
    Prop :=
  ∃ ret, call.run peer r.1 = .ok (ret, r'.1) ∧ r'.2 = r.2.after r.1 ret call

theorem Reached.records {peer : Peer σ} {allowed : RedisSock σ × Ledger → Call → Prop}
    {r : RedisSock σ × Ledger} (h : Reached Fresh (Recorded peer) allowed r) : r.2.Records r.1 := by
  refine Reached.invariant (I := fun r => r.2.Records r.1) ?_ ?_ h
  · intro r hr
    obtain ⟨⟨fd, sock, hs⟩, hl⟩ := hr
    rw [hs, hl]
    exact Ledger.records_connected _
  · intro r call r' hr _ hstep
    obtain ⟨ret, hrun, hl⟩ := hstep
    rw [hl]
    exact (Ledger.records_after hr hrun).1

theorem Reached.recorded {peer : Peer σ} {s : RedisSock σ}
    (h : Reached Connects (Leads peer) (fun _ _ => True) s) :
    ∃ l, Reached Fresh (Recorded peer) (fun _ _ => True) (s, l) := by
  induction h with
  | init hs => exact ⟨.empty, .init ⟨hs, rfl⟩⟩
  | step _ _ hlead ih =>
      obtain ⟨l, hl⟩ := ih
      obtain ⟨ret, hrun⟩ := hlead
      exact ⟨_, .step hl trivial ⟨ret, hrun, rfl⟩⟩

end PhpHiredis
