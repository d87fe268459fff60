import PhpHiredis.History
import PhpHiredis.Rounds

/-!
# What waits for `exec` and `send`

The queues after the calls of a transaction, and after those of the items of a
pipeline, in any run and whoever the peer is. In a pipeline nothing is read, so
the entries of the main queue are those of the items, one after another.
-/
namespace PhpHiredis

open Library Reader

section
variable {σ : Type} {peer : Peer σ} {s s' : RedisSock σ} {es : List Entry} {fns : List Validator}
  {ret : Returned} {rets : List Returned}

theorem Holds.sameQueues (h : Holds s es fns) (hq : SameQueues s s') : Holds s' es fns :=
  h.congr hq.heap hq.queue_head hq.queue_tail hq.multi_head hq.multi_tail

/-- Outside a transaction a command waits in the main queue, unless it was not sent. -/
theorem Holds.command_plain (h : Holds s es fns) (hm : s.multi = 0) {c : Command}
    (hrun : c.run peer s = .ok (ret, s')) : Holds s' (es ++ (Item.command c).entries) fns := by
  have hq := command_queues hrun
  rw [Call.queues] at hq
  cases hc : c.sent with
  | none =>
      rw [if_pos hc] at hq
      have hsent : sentOf [c] = [] := sentOf_cons_none hc
      simpa [Item.entries, hsent] using h.sameQueues hq
  | some ws =>
      rw [if_neg (by simp [hc])] at hq
      have hsent : sentOf [c] = [c] := sentOf_cons_some hc
      simpa [Item.entries, hsent] using (h.redisEnqueue_plain hm c.validator).sameQueues hq

theorem Holds.command_multi (h : Holds s es fns) (hm : s.multi ≠ 0) {c : Command}
    (hrun : c.run peer s = .ok (ret, s')) : Holds s' (es ++ skips [c]) (fns ++ validators [c]) := by
  have hq := command_queues hrun
  rw [Call.queues] at hq
  cases hc : c.sent with
  | none =>
      rw [if_pos hc] at hq
      have hsent : sentOf [c] = [] := sentOf_cons_none hc
      simpa [skips, validators, hsent] using h.sameQueues hq
  | some ws =>
      rw [if_neg (by simp [hc])] at hq
      have hsent : sentOf [c] = [c] := sentOf_cons_some hc
      simpa [skips, validators, hsent] using (h.redisEnqueue_multi hm c.validator).sameQueues hq

theorem Holds.commands_multi (h : Holds s es fns) (hm : s.multi ≠ 0) {cs : List Command}
    (hrun : runCalls peer (cs.map .command) s = .ok (rets, s')) :
    Holds s' (es ++ skips cs) (fns ++ validators cs) ∧ SameModes s s' := by
  induction cs generalizing s es fns rets with
  | nil =>
      cases hrun
      exact ⟨by simpa [skips, validators, sentOf] using h, rfl, rfl, rfl⟩
  | cons c cs ih =>
      obtain ⟨ret, s₁, rets', hcall, hcalls, rfl⟩ := runCalls_cons_ok hrun
      obtain ⟨hmode₁, hmulti₁, hpipe₁⟩ := Command.run_modes hcall
      have hm₁ : s₁.multi ≠ 0 := by
        rw [hmulti₁]
        exact hm
      obtain ⟨h', hmode₂, hmulti₂, hpipe₂⟩ := ih (h.command_multi hm hcall) hm₁ hcalls
      refine ⟨?_, hmode₂.trans hmode₁, hmulti₂.trans hmulti₁, hpipe₂.trans hpipe₁⟩
      rw [skips_cons, validators_cons, ← List.append_assoc, ← List.append_assoc]
      exact h'

/-- An empty main queue holds no entries, whatever waits in the side queue. -/
theorem Reached.holds (h : Reached Connects (Leads peer) (fun _ _ => True) s) :
    ∃ es fns, Holds s es fns := by
  obtain ⟨l, hl⟩ := Reached.recorded h
  exact ⟨_, _, _, _, Reached.records hl⟩

theorem Holds.transaction (h : Holds s es fns) (hp : s.pipeline = 0) {cs : List Command}
    (hrun : runCalls peer (.multi :: cs.map .command) s = .ok (.self :: rets, s')) :
    Holds s' (es ++ skips cs) (validators cs) ∧ s'.pipeline = 0 := by
  obtain ⟨ret, s₁, rets', hmulti, hcommands, heq⟩ := runCalls_cons_ok hrun
  cases heq
  have hq := multi_queues hmulti
  obtain ⟨hm, -, z, ctx, -, hend⟩ | ⟨-, h0, -, -⟩ | ⟨-, hret, -⟩ := multi_cases hmulti
  · rw [Call.queues, if_neg (not_not.mpr hm), if_pos hp] at hq
    have hclear : Holds s.clearSide es [] := h.resetSide rfl rfl rfl rfl rfl
    have hmodes : s₁.multi = 1 ∧ s₁.pipeline = 0 := by
      obtain ⟨-, -, rfl⟩ | ⟨-, hret, -⟩ := multiEnd_cases hend
      · exact ⟨rfl, hp⟩
      · cases hret
    obtain ⟨h₂, -, -, hpipe⟩ := (hclear.sameQueues hq).commands_multi (by simp [hmodes.1]) hcommands
    refine ⟨?_, hpipe.trans hmodes.2⟩
    simpa using h₂
  · exact absurd hp h0
  · cases hret

/-- What an item leaves on the main queue. After a `multi` outside a pipeline that the
server did not confirm, the flag is still set, and a command is put aside. -/
def Item.queued (multi : ℕ) : Item → List Entry
  | .command c => if multi = 0 then (Item.command c).entries else skips [c]
  | .block cs => (Item.block cs).entries

def Item.multiAfter (multi : ℕ) : Item → ℕ
  | .command _ => multi
  | .block _ => 0

def queuedItems : ℕ → List Item → List Entry
  | _, [] => []
  | multi, i :: is => i.queued multi ++ queuedItems (i.multiAfter multi) is

structure InPipeline (s : RedisSock σ) (multi : ℕ) (es : List Entry) : Prop where
  mode : s.mode = .direct
  pipeline : s.pipeline ≠ 0
  multi : s.multi = multi
  holds : ∃ fns, Holds s es fns

theorem InPipeline.command {multi : ℕ} (h : InPipeline s multi es) {c : Command}
    (hrun : c.run peer s = .ok (ret, s')) :
    InPipeline s' multi (es ++ (Item.command c).queued multi) := by
  obtain ⟨hmode, hmulti, hpipe⟩ := Command.run_modes hrun
  obtain ⟨fns, hfns⟩ := h.holds
  refine ⟨hmode.trans h.mode, hpipe ▸ h.pipeline, hmulti.trans h.multi, ?_⟩
  rw [Item.queued]
  split_ifs with hm
  · exact ⟨fns, hfns.command_plain (h.multi.trans hm) hrun⟩
  · exact ⟨_, hfns.command_multi (fun h0 => hm (h.multi.symm.trans h0)) hrun⟩

theorem InPipeline.block {multi : ℕ} (h : InPipeline s multi es) {cs : List Command}
    (hrun : runCalls peer (Item.block cs).calls s = .ok (rets, s')) :
    InPipeline s' 0 (es ++ (Item.block cs).entries) := by
  obtain ⟨fns, hfns⟩ := h.holds
  obtain ⟨ret₁, s₂, rets₂, s₁, ret₃, hmulti, hcommands, hexec⟩ := runCalls_block_ok hrun
  -- `multi`
  have hq := multi_queues hmulti
  rw [Call.queues, if_neg (not_not.mpr h.mode), if_neg h.pipeline] at hq
  have hset : Holds { s with multi := 1 } es fns := hfns.congr rfl rfl rfl rfl rfl
  have hpushed := hset.redisEnqueue_multi (show (1 : ℕ) ≠ 0 by decide) .status
  have hcleared : Holds (redisEnqueue { s with multi := 1 } .status none).clearSide
      (es ++ [.reply .skip]) [] := hpushed.resetSide rfl rfl rfl rfl rfl
  have hopened := hcleared.sameQueues hq
  obtain ⟨hmode₂, hmulti₂, hpipe₂⟩ : s₂.mode = .transaction ∧ s₂.multi = 1 ∧
      s₂.pipeline = s.pipeline := by
    cases (multi_pipelined_run peer h.mode h.pipeline).symm.trans hmulti
    exact ⟨rfl, redisEnqueue_multi .., redisEnqueue_pipeline ..⟩
  -- the commands
  obtain ⟨hfilled, -, -, hpipe₁⟩ := hopened.commands_multi (by simp [hmulti₂]) hcommands
  have hp₁ : s₁.pipeline ≠ 0 := by
    rw [hpipe₁, hpipe₂]
    exact h.pipeline
  -- `exec`
  have hjoined : Holds (joined s₁) _ _ := hfilled.join.congr rfl rfl rfl rfl rfl
  obtain ⟨h0, -⟩ | ⟨-, -, -, rfl⟩ := exec_cases hexec
  · exact absurd h0 hp₁
  · refine ⟨rfl, hp₁, rfl, validators cs, ?_⟩
    simpa [Item.entries] using hjoined

theorem InPipeline.items {multi : ℕ} (h : InPipeline s multi es) {is : List Item}
    (hrun : runCalls peer (is.flatMap Item.calls) s = .ok (rets, s')) :
    ∃ multi', InPipeline s' multi' (es ++ queuedItems multi is) := by
  induction is generalizing s multi es rets with
  | nil =>
      cases hrun
      exact ⟨multi, by simpa [queuedItems] using h⟩
  | cons i is ih =>
      rw [List.flatMap_cons] at hrun
      obtain ⟨rets₁, s₁, rets₂, hitem, hitems⟩ := runCalls_append_ok hrun
      have h₁ : InPipeline s₁ (i.multiAfter multi) (es ++ i.queued multi) := by
        cases i with
        | command c =>
            obtain ⟨ret, s₂, _, hcall, hnil, -⟩ := runCalls_cons_ok hitem
            cases hnil
            exact h.command hcall
        | block cs => exact h.block hitem
      rw [queuedItems, ← List.append_assoc]
      exact ih h₁ hitems

end

end PhpHiredis
