import PhpHiredis.Blocks
import PhpHiredis.ExecReplies
import PhpHiredis.Waiting

/-!
# Commands that the server refuses

A server may answer a command of a transaction with an error in place of the
confirmation, and leave it out of the array that it replies to `EXEC`. Neither
`exec` nor `send` looks at the confirmations: both pair the commands with the
elements of the array by their positions. So the values stay with their commands
exactly when no command was refused, and the reply of every other call is one
that its validator handles.
-/
namespace PhpHiredis

open Library Reader

/-- What a server makes of a command of a transaction: it queues the command, and
replies to it in the array of `EXEC`, or it refuses the command with an error. -/
inductive Verdict where
  | accepted (r : Reply)
  | refused (text : Bytes)

def Verdict.confirmation : Verdict → Reply
  | accepted _ => .status (ascii "QUEUED")
  | refused text => .error text

def Verdict.element : Verdict → Option Reply
  | accepted r => some r
  | refused _ => none

/-- The elements of the array: a refused command has none. -/
def elementsOf (vs : List Verdict) : List Reply := vs.filterMap Verdict.element

/-- The replies to the commands of a transaction, and to its `EXEC`. -/
def transactionReplies (vs : List Verdict) : List Reply :=
  vs.map Verdict.confirmation ++ [.array (elementsOf vs)]

def NoneRefused (vs : List Verdict) : Prop := ∀ text, .refused text ∉ vs

/-- What a transaction should return: `FALSE` for a command that was refused, and
for any other one the value of its own validator for its own reply. -/
def aligned : List Command → List Verdict → Run (List Zval)
  | c :: cs, .accepted r :: vs => do
      let z ← c.result r
      let zs ← aligned cs vs
      return z :: zs
  | _ :: cs, .refused _ :: vs => do
      let zs ← aligned cs vs
      return .false :: zs
  | _, _ => .ok []

theorem aligned_length {cs : List Command} {vs : List Verdict} (hlen : vs.length = cs.length)
    {zs : List Zval} (h : aligned cs vs = .ok zs) : zs.length = cs.length := by
  induction cs generalizing vs zs with
  | nil =>
      obtain rfl := List.eq_nil_of_length_eq_zero hlen
      cases h
      rfl
  | cons c cs ih =>
      cases vs with
      | nil => cases hlen
      | cons v vs =>
          cases v with
          | accepted r =>
              obtain ⟨z, -, hrest⟩ := Outcome.bind_eq_ok.mp h
              obtain ⟨zs', hzs', heq⟩ := Outcome.bind_eq_ok.mp hrest
              cases heq
              exact congrArg Nat.succ (ih (Nat.succ.inj hlen) hzs')
          | refused text =>
              obtain ⟨zs', hzs', heq⟩ := Outcome.bind_eq_ok.mp h
              cases heq
              exact congrArg Nat.succ (ih (Nat.succ.inj hlen) hzs')

theorem elementsOf_accepted (rs : List Reply) : elementsOf (rs.map .accepted) = rs := by
  induction rs with
  | nil => rfl
  | cons r rs ih => exact congrArg (List.cons r) ih

theorem aligned_accepted (cs : List Command) (rs : List Reply) :
    aligned cs (rs.map .accepted) = results cs rs := by
  induction cs generalizing rs with
  | nil => cases rs <;> rfl
  | cons c cs ih =>
      cases rs with
      | nil => rfl
      | cons r rs => simp only [List.map_cons, aligned, ih, results]

theorem NoneRefused.exists_replies {vs : List Verdict} (h : NoneRefused vs) :
    ∃ rs : List Reply, vs = rs.map .accepted := by
  induction vs with
  | nil => exact ⟨[], rfl⟩
  | cons v vs ih =>
      obtain ⟨rs, rfl⟩ := ih fun text hmem => h text (List.mem_cons_of_mem _ hmem)
      cases v with
      | accepted r => exact ⟨r :: rs, rfl⟩
      | refused text => exact absurd List.mem_cons_self (h text)

theorem elementsOf_length_iff (vs : List Verdict) :
    (elementsOf vs).length = vs.length ↔ NoneRefused vs := by
  rw [elementsOf, List.filterMap_length_eq_length]
  constructor
  · intro h text hmem
    have hsome := h _ hmem
    cases hsome
  · intro h v hv
    cases v with
    | accepted r => rfl
    | refused text => exact absurd hv (h text)

theorem validated_length_le {fns : List Validator} {zs vals : List Zval}
    (h : validated fns zs = .ok vals) : vals.length ≤ zs.length := by
  induction fns generalizing zs vals with
  | nil =>
      cases zs <;> cases h <;> simp
  | cons fn fns ih =>
      cases zs with
      | nil =>
          cases h
          simp
      | cons z zs =>
          obtain ⟨t, -, hrest⟩ := Outcome.bind_eq_ok.mp h
          obtain ⟨vals', hvals, heq⟩ := Outcome.bind_eq_ok.mp hrest
          have hle := ih hvals
          cases heq
          split_ifs
          · exact Nat.succ_le_succ hle
          · exact Nat.le_succ_of_le hle

/-- The values of a block are what they should be exactly when no command was
refused, and all the replies are handled. -/
theorem aligned_iff {cs : List Command} (hsimple : ∀ c ∈ cs, c.Simple) {vs : List Verdict}
    (hlen : vs.length = cs.length) :
    (∃ zs, aligned cs vs = .ok zs ∧
        validated (cs.map Command.validator) ((elementsOf vs).map Reply.value) = .ok zs) ↔
      NoneRefused vs ∧
        ∀ p ∈ (cs.map Command.validator).zip (elementsOf vs), p.1.Handles p.2.value 0 := by
  rw [← validated_returns_iff]
  constructor
  · intro h
    obtain ⟨zs, haligned, hvals⟩ := h
    refine ⟨(elementsOf_length_iff vs).mp (Nat.le_antisymm (List.length_filterMap_le _ _) ?_),
      zs, hvals⟩
    have hle := validated_length_le hvals
    rw [List.length_map, aligned_length hlen haligned, ← hlen] at hle
    exact hle
  · intro h
    obtain ⟨hnone, zs, hvals⟩ := h
    obtain ⟨rs, rfl⟩ := hnone.exists_replies
    refine ⟨zs, ?_, hvals⟩
    rw [elementsOf_accepted, validated_eq_results hsimple] at hvals
    rw [aligned_accepted]
    exact hvals

theorem replay_returns_iff {es : List Entry} {rs : List Reply} (hlen : es.length = rs.length) :
    (replay es (rs.map Reply.value)).Returns ↔ List.Forall₂ Entry.Handles es rs := by
  induction es generalizing rs with
  | nil =>
      obtain rfl := List.eq_nil_of_length_eq_zero hlen.symm
      exact iff_of_true ⟨[], rfl⟩ .nil
  | cons e es ih =>
      cases rs with
      | nil => cases hlen
      | cons r rs =>
          rw [List.forall₂_cons, ← ih (Nat.succ.inj hlen), ← e.replay_returns_iff]
          simp only [List.map_cons, replay]
          cases e.replay r.value with
          | ok vals => simpa using Outcome.returns_map_iff
          | fault e => simp
          | blocked => simp

/-- The entry adds a value to the result of `send`. -/
def Entry.adds : Entry → Bool
  | .reply .skip => false
  | _ => true

def valuesOf (es : List Entry) : ℕ := es.countP Entry.adds

theorem Entry.replay_length {e : Entry} {z : Zval} {vals : List Zval} (h : e.replay z = .ok vals) :
    vals.length = if e.adds then 1 else 0 := by
  cases e with
  | reply fn =>
      obtain ⟨t, ht, heq⟩ := Outcome.bind_eq_ok.mp h
      by_cases hfn : fn = .skip
      · subst hfn
        cases ht
        cases heq
        rfl
      · have ht0 : t.1 = 0 := Validator.apply_zero hfn ht
        have hadds : (Entry.reply fn).adds = true := by
          cases fn <;> first | rfl | exact absurd rfl hfn
        cases heq
        rw [if_pos ht0, hadds]
        rfl
  | block fns =>
      cases fns with
      | nil => cases h
      | cons fn fns =>
          obtain ⟨tab, -, hrest⟩ := Outcome.bind_eq_ok.mp h
          obtain ⟨vals', -, heq⟩ := Outcome.bind_eq_ok.mp hrest
          cases heq
          rfl

theorem replay_length {es : List Entry} {zs : List Zval} (hlen : es.length = zs.length)
    {vals : List Zval} (h : replay es zs = .ok vals) : vals.length = valuesOf es := by
  induction es generalizing zs vals with
  | nil =>
      obtain rfl := List.eq_nil_of_length_eq_zero hlen.symm
      cases h
      rfl
  | cons e es ih =>
      cases zs with
      | nil => cases hlen
      | cons z zs =>
          obtain ⟨vals₁, h₁, hrest⟩ := Outcome.bind_eq_ok.mp h
          obtain ⟨vals₂, h₂, heq⟩ := Outcome.bind_eq_ok.mp hrest
          cases heq
          rw [List.length_append, e.replay_length h₁, ih (Nat.succ.inj hlen) h₂, valuesOf, valuesOf,
            List.countP_cons, Nat.add_comm]

/-- An item of a pipeline, with what the server replies to it. -/
inductive Exchange where
  | command (c : Command) (r : Reply)
  | block (cs : List Command) (vs : List Verdict)

namespace Exchange

def item : Exchange → Item
  | command c _ => .command c
  | block cs _ => .block cs

def replies : Exchange → List Reply
  | command c r => (sentOf [c]).map fun _ => r
  | block _ vs => .status (ascii "OK") :: transactionReplies vs

/-- There is one verdict for every command of a block. -/
def WellFormed : Exchange → Prop
  | command _ _ => True
  | block cs vs => vs.length = (sentOf cs).length

theorem covers {x : Exchange} (h : x.WellFormed) (multi : ℕ) :
    List.Forall₂ Entry.Covers (x.item.queued multi) x.replies := by
  have hconst : ∀ (f : Command → Entry) (g : Command → Reply) (cs : List Command),
      (∀ c r, (f c).Covers r) → List.Forall₂ Entry.Covers (cs.map f) (cs.map g) := by
    intro f g cs hf
    rw [List.forall₂_map_left_iff, List.forall₂_map_right_iff, List.forall₂_same]
    exact fun c _ => hf c _
  cases x with
  | command c r =>
      rw [item, Item.queued]
      split_ifs
      · exact hconst _ _ _ fun _ _ => trivial
      · exact hconst _ _ _ fun _ _ => trivial
  | block cs vs =>
      have hskips : List.Forall₂ Entry.Covers (skips cs) (vs.map Verdict.confirmation) := by
        rw [skips, List.forall₂_map_left_iff, List.forall₂_map_right_iff, List.forall₂_iff_get]
        exact ⟨h.symm, fun _ _ _ => trivial⟩
      have hlen : (elementsOf vs).length ≤ (validators cs).length := by
        rw [validators, List.length_map, ← h]
        exact List.length_filterMap_le _ _
      exact .cons trivial (List.rel_append hskips (.cons hlen .nil))

end Exchange

theorem covers_exchanges {xs : List Exchange} (h : ∀ x ∈ xs, x.WellFormed) (multi : ℕ) :
    List.Forall₂ Entry.Covers (queuedItems multi (xs.map Exchange.item))
      (xs.flatMap Exchange.replies) := by
  induction xs generalizing multi with
  | nil => exact .nil
  | cons x xs ih =>
      exact List.rel_append (x.covers (h x (by simp)) multi)
        (ih (fun y hy => h y (by simp [hy])) _)

theorem queuedItems_append (multi : ℕ) (is js : List Item) :
    ∃ multi', queuedItems multi (is ++ js) = queuedItems multi is ++ queuedItems multi' js := by
  induction is generalizing multi with
  | nil => exact ⟨multi, rfl⟩
  | cons i is ih =>
      obtain ⟨multi', h⟩ := ih (i.multiAfter multi)
      refine ⟨multi', ?_⟩
      simp only [List.cons_append, queuedItems, h, List.append_assoc]

theorem replay_exchange_block {cs : List Command} {vs : List Verdict}
    (hvs : vs.length = (sentOf cs).length) :
    replay (Item.block cs).entries ((Exchange.block cs vs).replies.map Reply.value) =
      (Entry.block (validators cs)).replay (Reply.array (elementsOf vs)).value := by
  have hlen : (skips cs).length = ((vs.map Verdict.confirmation).map Reply.value).length := by
    simp [skips, hvs]
  have hskip : (Entry.reply .skip).replay (Reply.status (ascii "OK")).value = .ok [] := rfl
  have hpure : ∀ x : Run (List Zval), (x >>= fun vals => .ok vals) = x := bind_pure
  simp only [Item.entries, Exchange.replies, transactionReplies, List.map_append, List.map_cons,
    List.map_nil, List.cons_append, replay, hskip, replay_append hlen, replay_skips,
      Outcome.ok_bind,
    Outcome.pure_eq, List.nil_append, List.append_nil, hpure]

theorem replay_join {fns : List Validator} {elems : List Reply} {vals : List Zval}
    (h : (Entry.block fns).replay (Reply.array elems).value = .ok vals) :
    ∃ zs, validated fns (elems.map Reply.value) = .ok zs ∧ vals = [.array (listTable zs)] := by
  have hfns : fns ≠ [] := by
    rintro rfl
    cases h
  rw [replay_block fns hfns] at h
  obtain ⟨zs, hzs, heq⟩ := Outcome.bind_eq_ok.mp h
  cases heq
  exact ⟨zs, hzs, rfl⟩

/-- The values that a pipeline adds for a block, after those of the items before it. -/
theorem replay_around {before after : List Exchange} (hbefore : ∀ x ∈ before, x.WellFormed)
    {cs : List Command} {vs : List Verdict} (hvs : vs.length = (sentOf cs).length) {multi : ℕ}
    {vals : List Zval}
    (h : replay (queuedItems multi ((before ++ .block cs vs :: after).map Exchange.item))
      (((before ++ .block cs vs :: after).flatMap Exchange.replies).map Reply.value) = .ok vals) :
    ∃ zs, validated (validators cs) ((elementsOf vs).map Reply.value) = .ok zs ∧
      vals[valuesOf (queuedItems multi (before.map Exchange.item))]? =
        some (.array (listTable zs)) := by
  obtain ⟨multi', hqueued⟩ := queuedItems_append multi (before.map Exchange.item)
    ((Exchange.block cs vs :: after).map Exchange.item)
  have hlen₁ : (queuedItems multi (before.map Exchange.item)).length =
      ((before.flatMap Exchange.replies).map Reply.value).length := by
    rw [List.length_map]
    exact (covers_exchanges hbefore multi).length_eq
  have hlen₂ : (Item.block cs).entries.length =
      ((Exchange.block cs vs).replies.map Reply.value).length := by
    rw [List.length_map]
    exact (Exchange.covers (x := .block cs vs) hvs 0).length_eq
  rw [List.map_append, hqueued, List.flatMap_append, List.map_append, replay_append hlen₁] at h
  obtain ⟨vals₁, h₁, hrest⟩ := Outcome.bind_eq_ok.mp h
  obtain ⟨vals₂, h₂, heq⟩ := Outcome.bind_eq_ok.mp hrest
  cases heq
  rw [List.map_cons, queuedItems, List.flatMap_cons, List.map_append] at h₂
  have h₃ : replay ((Item.block cs).entries ++ _) _ = _ := h₂
  rw [replay_append hlen₂] at h₃
  obtain ⟨vals₃, hblock, hrest'⟩ := Outcome.bind_eq_ok.mp h₃
  obtain ⟨vals₄, -, heq'⟩ := Outcome.bind_eq_ok.mp hrest'
  cases heq'
  rw [replay_exchange_block hvs] at hblock
  obtain ⟨zs, hzs, rfl⟩ := replay_join hblock
  refine ⟨zs, hzs, ?_⟩
  rw [← replay_length hlen₁ h₁, List.singleton_append, List.getElem?_append_right le_rfl,
    Nat.sub_self]
  rfl

/-- The call returns what the transaction should return. -/
def DeliversAligned {σ : Type} (cs : List Command) (vs : List Verdict)
    (outcome : Run (Returned × RedisSock σ)) : Prop :=
  ∃ zs s', aligned (sentOf cs) vs = .ok zs ∧ outcome = .ok (.value (.array (listTable zs)), s')

/-- The call returns an array that has it at the index `k`. -/
def DeliversAlignedAt {σ : Type} (k : ℕ) (cs : List Command) (vs : List Verdict)
    (outcome : Run (Returned × RedisSock σ)) : Prop :=
  ∃ zs vals s', aligned (sentOf cs) vs = .ok zs ∧
    outcome = .ok (.value (.array (listTable vals)), s') ∧
      vals[k]? = some (.array (listTable zs))

theorem listTable_injective {vals zs : List Zval} (h : listTable vals = listTable zs) :
    vals = zs := by
  rw [← listTable_values vals, h, listTable_values]

theorem returned_array {σ : Type} {tab tab' : HashTable} {s s' : RedisSock σ}
    (h : (.ok (.value (.array tab), s) : Run (Returned × RedisSock σ)) =
      .ok (.value (.array tab'), s')) : tab = tab' := by
  cases h
  rfl

theorem returned_values {σ : Type} {vals zs : List Zval} {s s' : RedisSock σ}
    (h : (.ok (.value (.array (listTable vals)), s) : Run (Returned × RedisSock σ)) =
      .ok (.value (.array (listTable zs)), s')) : vals = zs :=
  listTable_injective (returned_array h)

section
variable {σ : Type} {peer : Peer σ} {s s₁ : RedisSock σ} {es : List Entry} {fns : List Validator}
  {cs : List Command} {vs : List Verdict} {rets : List Returned} {tail : List ReadResult}

theorem Holds.exec_aligned_iff (h : Holds s [] fns) (hp : s.pipeline = 0)
    (hcs : ∀ c ∈ cs, c.Simple) (hvs : vs.length = (sentOf cs).length)
    (hrun : runCalls peer (.multi :: cs.map .command) s = .ok (.self :: rets, s₁))
    (hsound : ∀ r ∈ transactionReplies vs, r.Sound 2)
    (harrives : Arrives peer (redisAppend (redisSockGet s₁).ctx (encodeRequest execRequest))
      (Reply.encodeAll (transactionReplies vs)) tail) :
    DeliversAligned cs vs (Call.exec.run peer s₁) ↔
      NoneRefused vs ∧ ∀ p ∈ (validators cs).zip (elementsOf vs), p.1.Handles p.2.value 0 := by
  obtain ⟨h₁, hp₁⟩ := h.transaction hp hrun
  rw [validators] at h₁ ⊢
  have hlen : (vs.map Verdict.confirmation).length = (skips cs).length := by simp [skips, hvs]
  obtain ⟨c', -, hexec⟩ := exec_reads (Coming.source peer tail) hp₁ h₁
    ⟨harrives.coming rfl, hsound⟩ hlen
  have hsent : ∀ c ∈ sentOf cs, c.Simple := fun c hc => hcs c (List.mem_of_mem_filter hc)
  rw [← aligned_iff hsent hvs, DeliversAligned, hexec, Reply.value_array, Zval.arrval,
    Outcome.ok_bind, listTable_values]
  constructor
  · intro hd
    obtain ⟨zs, s', haligned, hrun'⟩ := hd
    obtain ⟨vals, hvals, heq⟩ := Outcome.bind_eq_ok.mp hrun'
    obtain rfl := returned_values heq
    exact ⟨vals, haligned, hvals⟩
  · intro hd
    obtain ⟨zs, haligned, hvals⟩ := hd
    exact ⟨zs, _, haligned, by rw [hvals]; rfl⟩

theorem Holds.send_aligned_iff (h : Holds s es fns) (hm : s.mode = .direct) (hp : s.pipeline = 0)
    (hcs : ∀ c ∈ cs, c.Simple) {before after : List Exchange}
    (hwf : ∀ x ∈ before ++ .block cs vs :: after, x.WellFormed)
    (hrun : runCalls peer
      (.pipeline :: (before ++ .block cs vs :: after).flatMap fun x => x.item.calls) s =
        .ok (rets, s₁))
    (hsound : ∀ r ∈ (before ++ .block cs vs :: after).flatMap Exchange.replies, r.Sound 2)
    (harrives : Arrives peer (redisSockGet s₁).ctx
      (Reply.encodeAll ((before ++ .block cs vs :: after).flatMap Exchange.replies)) tail) :
    DeliversAlignedAt (valuesOf (queuedItems s.multi (before.map Exchange.item))) cs vs
        (Call.send.run peer s₁) ↔
      NoneRefused vs ∧ List.Forall₂ Entry.Handles
        (queuedItems s.multi ((before ++ .block cs vs :: after).map Exchange.item))
        ((before ++ .block cs vs :: after).flatMap Exchange.replies) := by
  have hvs : vs.length = (sentOf cs).length := hwf (.block cs vs) (by simp)
  have hcov := covers_exchanges hwf s.multi
  -- the calls before `send`
  obtain ⟨ret, s₂, rets', hopen, hitems, rfl⟩ := runCalls_cons_ok hrun
  have hguard : s.mode = .direct ∧ s.pipeline = 0 := ⟨hm, hp⟩
  cases (if_pos hguard).symm.trans hopen
  have hin : InPipeline
    { redisSockGet s with pipeline := 1, queue_head := none, queue_tail := none } s.multi [] :=
    ⟨hm, Nat.one_ne_zero, rfl, fns, h.resetMain rfl rfl rfl rfl rfl⟩
  rw [← List.flatMap_map] at hitems
  obtain ⟨multi', hpipe⟩ := hin.items hitems
  obtain ⟨fns', h'⟩ := hpipe.holds
  rw [List.nil_append] at h'
  -- `send`
  have hcoming := And.intro (harrives.coming rfl) hsound
  rw [← List.append_nil (List.flatMap _ _)] at hcoming
  obtain ⟨c', -, hsend⟩ := send_reads (Coming.source peer tail) hpipe.mode hpipe.pipeline h'
    hcoming hcov
  have hbefore : ∀ x ∈ before, x.WellFormed := fun x hx => hwf x (by simp [hx])
  have hsent : ∀ c ∈ sentOf cs, c.Simple := fun c hc => hcs c (List.mem_of_mem_filter hc)
  rw [← replay_returns_iff hcov.length_eq]
  constructor
  · intro hd
    obtain ⟨zs, vals, s', haligned, hrun', hget⟩ := hd
    rw [hsend] at hrun'
    obtain ⟨vals', hvals, heq⟩ := Outcome.bind_eq_ok.mp hrun'
    obtain rfl := returned_values heq
    obtain ⟨zs', hzs', hget'⟩ := replay_around hbefore hvs hvals
    rw [hget'] at hget
    have hzs : zs' = zs := listTable_injective (by simpa using hget)
    subst hzs
    exact ⟨((aligned_iff hsent hvs).mp ⟨zs', haligned, hzs'⟩).1, vals', hvals⟩
  · intro hd
    obtain ⟨hnone, vals, hvals⟩ := hd
    obtain ⟨zs, hzs, hget⟩ := replay_around hbefore hvs hvals
    have hhandles := (validated_returns_iff _ _).mp ⟨zs, hzs⟩
    obtain ⟨zs', haligned, hzs'⟩ := (aligned_iff hsent hvs).mpr ⟨hnone, hhandles⟩
    obtain rfl : zs' = zs := Outcome.ok.inj (hzs'.symm.trans hzs)
    exact ⟨zs', vals, _, haligned, by rw [hsend, hvals]; rfl, hget⟩

/-- In every run, whoever the peer is, and for every pattern of refused commands:
`exec` after a transaction on an empty main queue, and `send` after a pipeline
with the transaction for one of its blocks, deliver `FALSE` for the refused
commands and for each other command the value of its own reply, exactly when none
was refused, and the replies are handled where they are paired. -/
theorem aligned_delivered_iff (h : Reached Connects (Leads peer) (fun _ _ => True) s)
    (hm : s.mode = .direct) (hp : s.pipeline = 0) (hcs : ∀ c ∈ cs, c.Simple)
    (hvs : vs.length = (sentOf cs).length) :
    (s.queue_head = none → ∀ rets s₁ tail,
      runCalls peer (.multi :: cs.map .command) s = .ok (.self :: rets, s₁) →
      (∀ r ∈ transactionReplies vs, r.Sound 2) →
      Arrives peer (redisAppend (redisSockGet s₁).ctx (encodeRequest execRequest))
        (Reply.encodeAll (transactionReplies vs)) tail →
      (DeliversAligned cs vs (Call.exec.run peer s₁) ↔
        NoneRefused vs ∧ ∀ p ∈ (validators cs).zip (elementsOf vs), p.1.Handles p.2.value 0)) ∧
    (∀ before after : List Exchange, (∀ x ∈ before ++ after, x.WellFormed) → ∀ rets s₁ tail,
      let xs := before ++ .block cs vs :: after
      runCalls peer (.pipeline :: xs.flatMap fun x => x.item.calls) s = .ok (rets, s₁) →
      (∀ r ∈ xs.flatMap Exchange.replies, r.Sound 2) →
      Arrives peer (redisSockGet s₁).ctx (Reply.encodeAll (xs.flatMap Exchange.replies)) tail →
      (DeliversAlignedAt (valuesOf (queuedItems s.multi (before.map Exchange.item))) cs vs
          (Call.send.run peer s₁) ↔
        NoneRefused vs ∧ List.Forall₂ Entry.Handles (queuedItems s.multi (xs.map Exchange.item))
          (xs.flatMap Exchange.replies))) := by
  obtain ⟨es, fns, hholds⟩ := Reached.holds h
  constructor
  · intro hempty rets s₁ tail hrun hsound harrives
    obtain rfl := hholds.head_eq_none.mp hempty
    exact hholds.exec_aligned_iff hp hcs hvs hrun hsound harrives
  · intro before after hwf rets s₁ tail xs hrun hsound harrives
    refine hholds.send_aligned_iff hm hp hcs ?_ hrun hsound harrives
    intro x hx
    rcases List.mem_append.mp hx with hx | hx
    · exact hwf x (List.mem_append_left _ hx)
    · rcases List.mem_cons.mp hx with rfl | hx
      · exact hvs
      · exact hwf x (List.mem_append_right _ hx)

end

def scriptedConnection (answers : List Bytes) : RedisSock (List (List ReadResult)) :=
  .connected (redisConnect 3 ⟨answers.map arriving, [], []⟩)

theorem reached_scripted (answers : List Bytes) :
    Reached Connects (Leads scripted) (fun _ _ => True) (scriptedConnection answers) :=
  .init ⟨3, _, rfl⟩

def getAndExists : List Command := [.get (ascii "k"), .exists_ (ascii "k")]

def bothAccepted : List Verdict := [.accepted (.bulk (ascii "v")), .accepted (.integer 1)]

def getRefused : List Verdict := [.refused (ascii "ERR"), .accepted (.integer 1)]

/-- After `multi`, `get` and `exists`, to a server that answers with these verdicts. -/
def afterGetAndExists (vs : List Verdict) : RedisSock (List (List ReadResult)) :=
  stateAfter scripted (.multi :: getAndExists.map .command)
    (scriptedConnection [ascii "+OK\r\n", Reply.encodeAll (transactionReplies vs)])

theorem run_getAndExists (vs : List Verdict) :
    runCalls scripted (.multi :: getAndExists.map .command)
        (scriptedConnection [ascii "+OK\r\n", Reply.encodeAll (transactionReplies vs)]) =
      .ok (.self :: [.self, .self], afterGetAndExists vs) := by
  rfl

theorem arrives_getAndExists (vs : List Verdict) :
    Arrives scripted
      (redisAppend (redisSockGet (afterGetAndExists vs)).ctx (encodeRequest execRequest))
      (Reply.encodeAll (transactionReplies vs)) [] :=
  @arrives_scripted _ _ [] rfl fun h => encodeRequest_ne_nil _ (List.append_eq_nil_iff.mp h).2

theorem sound_transactionReplies {vs : List Verdict} (hlen : vs.length < 2 ^ 31)
    (h : ∀ v ∈ vs, v.confirmation.Sound 2 ∧ ∀ r, v.element = some r → r.Sound 1) :
    ∀ r ∈ transactionReplies vs, r.Sound 2 := by
  intro r hr
  rcases List.mem_append.mp hr with hr | hr
  · obtain ⟨v, hv, rfl⟩ := List.mem_map.mp hr
    exact (h v hv).1
  · obtain rfl := List.mem_singleton.mp hr
    refine ⟨(List.length_filterMap_le _ _).trans_lt hlen, fun e he => ?_⟩
    obtain ⟨v, hv, hve⟩ := List.mem_filterMap.mp he
    exact (h v hv).2 e hve

theorem sound_accepted {r : Reply} (h : r.Sound 1) :
    (Verdict.accepted r).confirmation.Sound 2 ∧
      ∀ r', (Verdict.accepted r).element = some r' → r'.Sound 1 := by
  constructor
  · exact (by decide : findCRLF (ascii "QUEUED") = none)
  · intro r' hr'
    cases hr'
    exact h

theorem sound_refused {text : Bytes} (h : findCRLF text = none) :
    (Verdict.refused text).confirmation.Sound 2 ∧
      ∀ r', (Verdict.refused text).element = some r' → r'.Sound 1 := by
  constructor
  · exact h
  · intro r' hr'
    cases hr'

theorem sound_bothAccepted : ∀ r ∈ transactionReplies bothAccepted, r.Sound 2 := by
  refine sound_transactionReplies (by decide) ?_
  rw [bothAccepted, List.forall_mem_cons, List.forall_mem_singleton]
  constructor
  · exact sound_accepted (show (ascii "v").length < 2 ^ 63 by decide)
  · exact sound_accepted (show -2 ^ 63 ≤ (1 : ℤ) ∧ (1 : ℤ) < 2 ^ 63 by decide)

theorem sound_getRefused : ∀ r ∈ transactionReplies getRefused, r.Sound 2 := by
  refine sound_transactionReplies (by decide) ?_
  rw [getRefused, List.forall_mem_cons, List.forall_mem_singleton]
  constructor
  · exact sound_refused (by decide)
  · exact sound_accepted (show -2 ^ 63 ≤ (1 : ℤ) ∧ (1 : ℤ) < 2 ^ 63 by decide)

/-- A pipeline with a command and the same transaction in a block. -/
def pipelinedGetAndExists : List Exchange :=
  [.command .ping (.status (ascii "PONG")), .block getAndExists bothAccepted]

theorem replies_pipelined : pipelinedGetAndExists.flatMap Exchange.replies =
    .status (ascii "PONG") :: .status (ascii "OK") :: transactionReplies bothAccepted := rfl

def afterPipeline : RedisSock (List (List ReadResult)) :=
  stateAfter scripted (.pipeline :: pipelinedGetAndExists.flatMap fun x => x.item.calls)
    (scriptedConnection [Reply.encodeAll (pipelinedGetAndExists.flatMap Exchange.replies)])

/-- Nothing is refused, outside a pipeline and in one. -/
theorem aligned_delivered_accepted :
    DeliversAligned getAndExists bothAccepted
        (Call.exec.run scripted (afterGetAndExists bothAccepted)) ∧
      DeliversAlignedAt 1 getAndExists bothAccepted (Call.send.run scripted afterPipeline) := by
  have hcs : ∀ c ∈ getAndExists, c.Simple := by
    simp [getAndExists, Command.Simple, Command.validator]
  have hnone : NoneRefused bothAccepted := by simp [NoneRefused, bothAccepted]
  have hvs : bothAccepted.length = (sentOf getAndExists).length := rfl
  have hexec := (aligned_delivered_iff (reached_scripted _) rfl rfl hcs hvs).1
    rfl _ _ _ (run_getAndExists bothAccepted) sound_bothAccepted (arrives_getAndExists bothAccepted)
  have hsound : ∀ r ∈ pipelinedGetAndExists.flatMap Exchange.replies, r.Sound 2 := by
    have hpong : findCRLF (ascii "PONG") = none := by decide
    have hok : findCRLF (ascii "OK") = none := by decide
    rw [replies_pipelined, List.forall_mem_cons, List.forall_mem_cons]
    exact ⟨hpong, hok, sound_bothAccepted⟩
  have hsend := (aligned_delivered_iff (reached_scripted _) rfl rfl hcs hvs).2
    [.command .ping (.status (ascii "PONG"))] [] (by simp [Exchange.WellFormed])
    [.self, .self, .self, .self, .self, .self] afterPipeline [] rfl hsound
    (@arrives_scripted _ _ [] rfl (by decide))
  have hhandles : ∀ p ∈ (validators getAndExists).zip (elementsOf bothAccepted),
      p.1.Handles p.2.value 0 := by
    have hpairs : (validators getAndExists).zip (elementsOf bothAccepted) =
        [(.string, .bulk (ascii "v")), (.longAsBool, .integer 1)] := rfl
    rw [hpairs]
    simp [Validator.Handles, Reply.value, Zval.isLong]
  refine ⟨hexec.mpr ⟨hnone, hhandles⟩, hsend.mpr ⟨hnone, ?_⟩⟩
  exact .cons trivial (.cons trivial (.cons trivial (.cons trivial
    (.cons ⟨List.cons_ne_nil _ _, hhandles⟩ .nil))))

theorem values_getRefused : (Reply.array (elementsOf getRefused)).value =
    .array (listTable [.long 1]) := by
  have hvalue : (Reply.integer 1).value = .long 1 := by rw [Reply.value]
  have hvalues : (elementsOf getRefused).map Reply.value = [.long 1] :=
    congrArg (fun z => [z]) hvalue
  rw [Reply.value_array, hvalues]

theorem exec_getRefused : ∃ s', Call.exec.run scripted (afterGetAndExists getRefused) =
    .ok (.value (.array (listTable [.false])), s') := by
  obtain ⟨es, fns, h⟩ := Reached.holds (reached_scripted
    [ascii "+OK\r\n", Reply.encodeAll (transactionReplies getRefused)])
  obtain rfl := h.head_eq_none.mp rfl
  obtain ⟨h₁, hp₁⟩ := h.transaction rfl (run_getAndExists getRefused)
  obtain ⟨c', -, hrun⟩ := exec_reads (Coming.source scripted []) hp₁ h₁
    ⟨(arrives_getAndExists getRefused).coming rfl, sound_getRefused⟩ rfl
  rw [values_getRefused] at hrun
  exact ⟨_, hrun⟩

/-- `get` is refused: the only value is that of `exists`, checked by the validator of
`get`, where `FALSE` and `TRUE` should come. -/
theorem not_aligned_delivered_refused :
    runCalls scripted (.multi :: getAndExists.map .command)
        (scriptedConnection [ascii "+OK\r\n", Reply.encodeAll (transactionReplies getRefused)]) =
      .ok ([.self, .self, .self], afterGetAndExists getRefused) ∧
    Arrives scripted
      (redisAppend (redisSockGet (afterGetAndExists getRefused)).ctx (encodeRequest execRequest))
      (Reply.encodeAll (transactionReplies getRefused)) [] ∧
    aligned (sentOf getAndExists) getRefused = .ok [.false, .true] ∧
    (∃ s', Call.exec.run scripted (afterGetAndExists getRefused) =
      .ok (.value (.array (listTable [.false])), s')) ∧
    ¬DeliversAligned getAndExists getRefused
      (Call.exec.run scripted (afterGetAndExists getRefused)) := by
  have hvalue : (Reply.integer 1).value = .long 1 := by rw [Reply.value]
  refine ⟨run_getAndExists getRefused, arrives_getAndExists getRefused, ?_, exec_getRefused,
    fun h => ?_⟩
  · have hresult : (Command.exists_ (ascii "k")).result (.integer 1) = .ok .true := by
      rw [Command.result, hvalue]
      rfl
    have hsent : sentOf getAndExists = getAndExists := rfl
    rw [hsent, getAndExists, getRefused]
    simp only [aligned, hresult, Outcome.ok_bind, Outcome.pure_eq]
  · obtain ⟨s', hrun⟩ := exec_getRefused
    obtain ⟨zs, s'', haligned, hrun'⟩ := h
    obtain rfl := returned_values (hrun.symm.trans hrun')
    have hvs : getRefused.length = getAndExists.length := rfl
    have hlen := aligned_length hvs haligned
    cases hlen

end PhpHiredis
