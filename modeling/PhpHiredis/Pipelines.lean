import PhpHiredis.Transactions

/-!
# Every reply reaches its own command

Runs of direct commands and pipelines return what the server alone determines.
The entries left behind by direct commands do no harm there, for `pipeline`
empties the main queue; and between `pipeline` and `send` the socket is left
alone, whoever the peer is.
-/
namespace PhpHiredis

open Library

theorem Call.sock_of_pipelined {σ : Type} {peer : Peer σ} {s s' : RedisSock σ} {ret : Returned}
    (hp : s.pipeline ≠ 0) {call : Call} (hsend : call ≠ .send)
    (hfit : ∀ c, call = .command c → c.Fits) (h : call.run peer s = .ok (ret, s')) :
    s'.ctx.sock = s.ctx.sock ∧ s'.pipeline ≠ 0 := by
  cases call with
  | send => exact absurd rfl hsend
  | command c =>
      rw [Call.run, Command.run_eq peer s (hfit c rfl), Command.spec] at h
      cases hc : c.sent with
      | none =>
          rw [hc] at h
          cases h
          exact ⟨rfl, hp⟩
      | some ws =>
          let s₁ : RedisSock σ := { redisSockGet s with
            ctx := redisAppend (redisSockGet s).ctx (encodeRequest ws) }
          have hq : ¬(s₁.pipeline = 0 ∧ s₁.multi = 0) := fun h0 => hp h0.1
          have hrun := redisRunEnd_queued peer hq c.validator c.closureArgs
          rw [hc] at h
          cases hrun.symm.trans h
          exact ⟨by rw [redisEnqueue_ctx]; rfl, by rw [redisEnqueue_pipeline]; exact hp⟩
  | pipeline =>
      obtain ⟨hguard, -, -⟩ | ⟨-, -, rfl⟩ := pipeline_cases h
      · exact absurd hguard.2 hp
      · exact ⟨rfl, hp⟩
  | multi =>
      by_cases hm : (redisSockGet s).mode = .direct
      · have hpipe : ¬(redisSockGet s).pipeline = 0 := hp
        simp only [Call.run, PhpHiredis.multi, hm, if_true, appendMulti, Outcome.ok_bind] at h
        cases (if_neg hpipe).symm.trans h
        exact ⟨by rw [redisEnqueue_ctx]; rfl, by rw [redisEnqueue_pipeline]; exact hp⟩
      · cases (if_neg hm).symm.trans h
        exact ⟨rfl, hp⟩
  | exec =>
      obtain ⟨h0, -⟩ | ⟨-, -, -, rfl⟩ := exec_cases h
      · exact absurd h0 hp
      · exact ⟨rfl, hp⟩

theorem sock_of_pipelined {σ : Type} {peer : Peer σ} {s s' : RedisSock σ} {calls : List Call}
    {rets : List Returned} (hp : s.pipeline ≠ 0) (hsend : .send ∉ calls)
    (hfit : ∀ c, .command c ∈ calls → c.Fits) (h : runCalls peer calls s = .ok (rets, s')) :
    s'.ctx.sock = s.ctx.sock := by
  induction calls generalizing s rets with
  | nil =>
      cases h
      rfl
  | cons call calls ih =>
      rw [List.mem_cons, not_or] at hsend
      obtain ⟨⟨ret, s₁⟩, hcall, h₁⟩ := Outcome.bind_eq_ok.mp h
      obtain ⟨⟨rets', s₂⟩, hcalls, h₂⟩ := Outcome.bind_eq_ok.mp h₁
      cases h₂
      obtain ⟨hsock, hp₁⟩ := Call.sock_of_pipelined hp (fun h0 => hsend.1 h0.symm)
        (fun c hc => hfit c (by simp [hc])) hcall
      exact (ih hp₁ hsend.2 (fun c hc => hfit c (by simp [hc])) hcalls).trans hsock

/-- Integers for `EXISTS` and `SETNX`; no array but one of bulk strings for
`HGETALL`, and no array but one with an element for each field for `HMGET`. -/
def Command.Accepts (c : Command) : Reply → Prop
  | .integer _ => True
  | .array es =>
      match c.validator with
      | .longAsBool => False
      | .zip => ∀ e ∈ es, ∃ s, e = .bulk s
      | .zipClosure => ∃ args, c.closureArgs = some args ∧ args.length = es.length + 1
      | _ => True
  | _ => c.validator ≠ .longAsBool

theorem zipPairs_returns (strs : List Bytes) (ret : HashTable) :
    (zipPairs (strs.map .string) ret).Returns := by
  induction strs using List.twoStepInduction generalizing ret with
  | nil => exact ⟨ret, rfl⟩
  | singleton k => exact ⟨ret, rfl⟩
  | cons_cons k v strs ih _ => exact ih _

theorem zipArgs_returns (strs : List Bytes) (vs : List Zval) {i : ℕ}
    (hi : i + vs.length ≤ strs.length) (ret : HashTable) :
    (zipArgs (some (strs.map .string)) i vs ret).Returns := by
  induction vs generalizing i ret with
  | nil => exact ⟨ret, rfl⟩
  | cons v vs ih =>
      simp only [List.length_cons] at hi
      have harg : (strs.map Zval.string)[i]? = some (.string strs[i]) := by
        rw [List.getElem?_map, List.getElem?_eq_getElem (by omega)]
        rfl
      simp only [zipArgs, harg, Zval.strval, Outcome.ok_bind]
      exact ih (by omega) _

theorem Command.closureArgs_strings {c : Command} {args : List Zval}
    (h : c.closureArgs = some args) :
    args.length = 1 ∨ ∃ strs : List Bytes, args = strs.map .string := by
  cases c with
  | hmget params =>
      simp only [closureArgs] at h
      unfold keptArgs at h
      split at h
      · cases h
        exact Or.inl rfl
      · obtain ⟨strs, -, rfl⟩ := Option.map_eq_some_iff.mp h
        exact Or.inr ⟨strs, rfl⟩
  | _ => cases h

theorem Command.Accepts.returns {c : Command} {r : Reply} (h : c.Accepts r) :
    (c.result r).Returns := by
  have hz := r.value_ne_undef
  have hresult : (c.validator.apply r.value c.closureArgs).Returns → (c.result r).Returns := by
    rintro ⟨t, ht⟩
    exact ⟨t.2, by rw [result, ht]; rfl⟩
  apply hresult
  cases hv : c.validator with
  | skip => exact absurd hv c.validator_ne_skip
  | string | long | status | array => exact checkType_returns _ hz
  | longAsBool =>
      cases r with
      | integer n =>
          rw [Reply.value]
          exact ⟨_, rfl⟩
      | array es =>
          simp only [Accepts, hv] at h
      | _ => exact absurd hv h
  | zip =>
      cases r with
      | array es =>
          simp only [Accepts, hv] at h
          obtain ⟨strs, rfl⟩ := Reply.exists_map_bulk h
          have hstrs : (strs.map Reply.bulk).map Reply.value = strs.map .string := by
            simp only [List.map_map, Function.comp_def, Reply.value]
          obtain ⟨ret, hret⟩ := zipPairs_returns strs []
          rw [Reply.value_array]
          refine ⟨(0, .array ret), ?_⟩
          simp only [Validator.apply, redisReplyZip, listTable_values, hstrs, hret, Outcome.ok_bind,
            Outcome.pure_eq]
      | status text =>
          rw [Reply.value]
          split <;> exact ⟨_, rfl⟩
      | _ =>
          rw [Reply.value]
          exact ⟨_, rfl⟩
  | zipClosure =>
      cases r with
      | array es =>
          simp only [Accepts, hv] at h
          obtain ⟨args, hargs, hlen⟩ := h
          have hret : ∃ ret, zipArgs (some args) 1 (es.map Reply.value) [] = .ok ret := by
            rcases closureArgs_strings hargs with h1 | ⟨strs, rfl⟩
            · have hes : es = [] := List.eq_nil_of_length_eq_zero (by omega)
              exact ⟨[], by rw [hes]; rfl⟩
            · rw [List.length_map] at hlen
              exact zipArgs_returns strs _ (by rw [List.length_map]; omega) []
          obtain ⟨ret, hret⟩ := hret
          rw [Reply.value_array, hargs]
          refine ⟨(0, .array ret), ?_⟩
          simp only [Validator.apply, redisReplyZipClosure, listTable_values, hret,
            Outcome.ok_bind, Outcome.pure_eq]
      | status text =>
          rw [Reply.value]
          split <;> exact ⟨_, rfl⟩
      | _ =>
          rw [Reply.value]
          exact ⟨_, rfl⟩

theorem results_return {cs : List Command} {rs : List Reply}
    (h : List.Forall₂ Command.Accepts cs rs) : (results cs rs).Returns := by
  induction h with
  | nil => exact ⟨[], rfl⟩
  | cons h₁ _ ih =>
      obtain ⟨z, hz⟩ := h₁.returns
      obtain ⟨zs, hzs⟩ := ih
      exact ⟨z :: zs, by simp only [results, hz, hzs, Outcome.ok_bind, Outcome.pure_eq]⟩

/-- `hmget` is used directly only, and no block is empty. -/
def Item.Legal : Item → Prop
  | .command c => c.Fits ∧ c.Simple
  | .block cs => (∀ c ∈ cs, c.Fits ∧ c.Simple) ∧ sentOf cs ≠ []

def Round.Legal : Round → Prop
  | .direct c => c.Fits
  | .pipeline is => ∀ i ∈ is, i.Legal
  | .transaction _ => False

variable {δ : Type} (srv : Server δ)

/-- The server answers the requests of an item with replies that its commands
accept, and `EXEC` with an array. -/
def Item.Accepted (d : δ) : Item → Prop
  | .command c => ∀ ws, c.sent = some ws → c.Accepts (srv.execute d ws).2
  | .block cs => ∃ elems, (srv.exec d (requests cs)).2 = .array elems ∧
      List.Forall₂ Command.Accepts (sentOf cs) elems

def AcceptedItems : δ → List Item → Prop
  | _, [] => True
  | d, i :: is => i.Accepted srv d ∧ AcceptedItems (i.after srv d) is

def Round.Accepted (d : δ) : Round → Prop
  | .direct c => (Item.command c).Accepted srv d
  | .pipeline is => AcceptedItems srv d is
  | .transaction cs => (Item.block cs).Accepted srv d

def AcceptedRounds : δ → List Round → Prop
  | _, [] => True
  | d, r :: rs => r.Accepted srv d ∧ AcceptedRounds (r.after srv d) rs

def expectedRounds : δ → List Round → Run (List Zval)
  | _, [] => .ok []
  | d, r :: rs => do
      let z ← r.expected srv d
      let zs ← expectedRounds (r.after srv d) rs
      return z :: zs

variable {srv} {s s' : RedisSock (Desk δ)}

theorem Item.Legal.fits {i : Item} (h : i.Legal) : i.Fits := by
  cases i with
  | command c => exact h.1
  | block cs => exact fun c hc => (h.1 c hc).1

theorem Item.Legal.delivers {i : Item} (h : i.Legal) {d : δ} (ha : i.Accepted srv d) :
    i.Delivers srv d := by
  cases i with
  | command c => exact h.2
  | block cs =>
      obtain ⟨elems, hexec, -⟩ := ha
      exact ⟨fun c hc => (h.1 c hc).2, h.2, elems, hexec⟩

theorem deliverAll {is : List Item} (h : ∀ i ∈ is, i.Legal) {d : δ}
    (ha : AcceptedItems srv d is) : DeliverAll srv d is := by
  induction is generalizing d with
  | nil => trivial
  | cons i is ih => exact ⟨(h i (by simp)).delivers ha.1, ih (fun j hj => h j (by simp [hj])) ha.2⟩

theorem Item.Accepted.returns {i : Item} {d : δ} (h : i.Accepted srv d) :
    (i.expected srv d).Returns := by
  cases i with
  | command c =>
      simp only [expected]
      cases hc : c.sent with
      | none => exact ⟨[], rfl⟩
      | some ws =>
          obtain ⟨z, hz⟩ := (h ws hc).returns
          exact ⟨[z], by simp only [hz, Outcome.ok_bind, Outcome.pure_eq]⟩
  | block cs =>
      obtain ⟨elems, hexec, hall⟩ := h
      obtain ⟨zs, hzs⟩ := results_return hall
      exact ⟨[.array (listTable zs)], by
        simp only [expected, blockExpected, hexec, hzs, Outcome.ok_bind, Outcome.pure_eq]⟩

theorem expectedItems_returns {is : List Item} {d : δ} (h : AcceptedItems srv d is) :
    (expectedItems srv d is).Returns := by
  induction is generalizing d with
  | nil => exact ⟨[], rfl⟩
  | cons i is ih =>
      obtain ⟨vals, hvals⟩ := h.1.returns
      obtain ⟨rest, hrest⟩ := ih h.2
      exact ⟨vals ++ rest, by
        simp only [expectedItems, hvals, hrest, Outcome.ok_bind, Outcome.pure_eq]⟩

theorem Rest.round_delivers {d : δ} {es : List Entry} (h : Rest srv s d es) {r : Round}
    (hlegal : r.Legal) (ha : r.Accepted srv d) :
    ∃ z s' es', r.expected srv d = .ok z ∧ r.run srv.peer s = .ok (.value z, s') ∧
      Rest srv s' (r.after srv d) es' := by
  cases r with
  | direct c =>
      simp only [Round.expected, Round.run, Round.calls, runCalls, Call.run, Round.after,
        Item.after]
      cases hc : c.sent with
      | none =>
          rw [Shows.command_unsent srv.peer s hlegal hc]
          exact ⟨.false, s, es, rfl, rfl, h⟩
      | some ws =>
          obtain ⟨s', h', hrun⟩ := h.direct hlegal hc
          obtain ⟨z, hz⟩ := (ha ws hc).returns
          obtain ⟨t, ht, hzt⟩ := Outcome.bind_eq_ok.mp hz
          cases hzt
          refine ⟨t.2, s', _, hz, ?_, h'⟩
          rw [hrun, ht]
          rfl
  | pipeline is =>
      obtain ⟨rets, s', h', hrun⟩ := h.pipeline fun i hi => (hlegal i hi).fits
      obtain ⟨vals, hvals⟩ := expectedItems_returns ha
      rw [replay_items (deliverAll hlegal ha), hvals, Outcome.ok_bind] at hrun
      refine ⟨.array (listTable vals), s', [], ?_, ?_, h'⟩
      · simp only [Round.expected, hvals, Outcome.ok_bind, Outcome.pure_eq]
      · simp only [Round.run, hrun, Outcome.ok_bind, Outcome.pure_eq, List.getLast?_concat,
          Option.getD_some]
  | transaction cs => exact hlegal.elim

theorem Rest.rounds_deliver {d : δ} {es : List Entry} (h : Rest srv s d es) {rs : List Round}
    (hlegal : ∀ r ∈ rs, r.Legal) (ha : AcceptedRounds srv d rs) :
    ∃ zs s' d' es', expectedRounds srv d rs = .ok zs ∧
      runRounds srv.peer rs s = .ok (zs.map .value, s') ∧ Rest srv s' d' es' := by
  induction rs generalizing s d es with
  | nil => exact ⟨[], s, d, es, rfl, rfl, h⟩
  | cons r rs ih =>
      obtain ⟨z, s₁, es₁, hz, hrun, h₁⟩ := h.round_delivers (hlegal r (by simp)) ha.1
      obtain ⟨zs, s₂, d₂, es₂, hzs, hruns, h₂⟩ := ih h₁ (fun r hr => hlegal r (by simp [hr])) ha.2
      refine ⟨z :: zs, s₂, d₂, es₂, ?_, ?_, h₂⟩
      · simp only [expectedRounds, hz, hzs, Outcome.ok_bind, Outcome.pure_eq]
      · simp only [runRounds, hrun, hruns, Outcome.ok_bind, Outcome.pure_eq, List.map_cons]

theorem send_notMem_items (is : List Item) : .send ∉ is.flatMap Item.calls := by
  rw [List.mem_flatMap]
  rintro ⟨i, -, hi⟩
  cases i <;> simp [Item.calls] at hi

theorem fits_of_mem_items {is : List Item} (hlegal : ∀ i ∈ is, i.Legal) {c : Command}
    (hc : .command c ∈ is.flatMap Item.calls) : c.Fits := by
  obtain ⟨i, hi, hc⟩ := List.mem_flatMap.mp hc
  have hfit := (hlegal i hi).fits
  cases i with
  | command c' =>
      simp only [Item.calls, List.mem_singleton, Call.command.injEq] at hc
      exact hc ▸ hfit
  | block cs =>
      simp only [Item.calls, List.mem_append, List.mem_cons, List.mem_map, List.not_mem_nil,
        reduceCtorEq, false_or, or_false, Call.command.injEq, exists_eq_right] at hc
      exact hfit c hc

/-- Between `pipeline` and `send`, after any number of calls, the socket is as it
was before. -/
theorem Rest.pipeline_silent {d : δ} {es : List Entry} (h : Rest srv s d es) {is : List Item}
    (hlegal : ∀ i ∈ is, i.Legal) {calls : List Call}
    (hcalls : calls <+: .pipeline :: is.flatMap Item.calls) :
    ∃ rets s', runCalls srv.peer calls s = .ok (rets, s') ∧ s'.ctx.sock = s.ctx.sock := by
  cases calls with
  | nil => exact ⟨[], s, rfl, rfl⟩
  | cons call calls =>
      obtain ⟨rfl, more, hmore⟩ := List.cons_prefix_cons.mp hcalls
      obtain ⟨fns, h⟩ := h
      obtain ⟨s₁, hpipe, h₁, hsock⟩ := h.pipeline_direct rfl rfl
      obtain ⟨rets, s₂, hitems, -⟩ := Piped.items ⟨fns, h₁⟩ fun i hi => (hlegal i hi).fits
      rw [← hmore, runCalls_append] at hitems
      obtain ⟨⟨rets', s₃⟩, hrun, -⟩ := Outcome.bind_eq_ok.mp hitems
      have hp : s₁.pipeline ≠ 0 := fun h0 => Nat.one_ne_zero (h₁.pipeline.symm.trans h0)
      have hsend : .send ∉ calls := fun hs => send_notMem_items is (by
        rw [← hmore]
        exact List.mem_append_left _ hs)
      have hfit : ∀ c, .command c ∈ calls → c.Fits := fun c hc => fits_of_mem_items hlegal (by
        rw [← hmore]
        exact List.mem_append_left _ hc)
      refine ⟨.self :: rets', s₃, ?_, (sock_of_pipelined hp hsend hfit hrun).trans hsock⟩
      simp only [runCalls, hpipe, hrun, Outcome.ok_bind, Outcome.pure_eq]

theorem accepted_append {d : δ} {rs rs' : List Round} (h : AcceptedRounds srv d (rs ++ rs')) :
    AcceptedRounds srv d rs := by
  induction rs generalizing d with
  | nil => trivial
  | cons r rs ih => exact ⟨h.1, ih h.2⟩

/-- Every direct command and every `send` returns the values of its own commands
on the replies to their own requests, whatever rounds came before; no reply is
left over, and nothing is written or read before `send`. -/
theorem runRounds_delivers {d : δ} {fd : ℕ} {writes : List WriteResult} (hw : WritesFine writes)
    {rounds : List Round} (hlegal : ∀ r ∈ rounds, r.Legal) (ha : AcceptedRounds srv d rounds) :
    ∃ zs s', expectedRounds srv d rounds = .ok zs ∧
      runRounds srv.peer rounds (.connected (connection d fd writes)) = .ok (zs.map .value, s') ∧
      NothingLeft s' ∧
      ∀ before is after, rounds = before ++ .pipeline is :: after →
        ∀ calls, calls <+: .pipeline :: is.flatMap Item.calls →
          ∃ rets s₁ rets' s₂,
            runRounds srv.peer before (.connected (connection d fd writes)) = .ok (rets, s₁) ∧
            runCalls srv.peer calls s₁ = .ok (rets', s₂) ∧ s₂.ctx.sock = s₁.ctx.sock := by
  have h := rest_connected srv d fd hw
  obtain ⟨zs, s', d', es', hzs, hrun, fns, h'⟩ := h.rounds_deliver hlegal ha
  refine ⟨zs, s', hzs, hrun, h'.nothingLeft rfl, ?_⟩
  rintro before is after rfl calls hcalls
  obtain ⟨zs₁, s₁, d₁, es₁, -, hrun₁, h₁⟩ := h.rounds_deliver
    (fun r hr => hlegal r (by simp [hr])) (accepted_append ha)
  obtain ⟨rets', s₂, hcalls', hsock⟩ := h₁.pipeline_silent
    (fun i hi => hlegal (.pipeline is) (by simp) i hi) hcalls
  exact ⟨_, s₁, rets', s₂, hrun₁, hcalls', hsock⟩

/-- A direct command, a pipeline with a block in it, and a direct command again. -/
theorem runRounds_delivers_block :
    let rounds : List Round := [.direct (.get [1]),
      .pipeline [.command (.set [1] [2]), .block [.set [3] [], .hgetall [4]], .command .ping],
      .direct (.delete [.string [5], .array [(.index 0, .long 6)]])]
    ∃ s', runRounds okServer.peer rounds okConnection = .ok ([.value .false,
      .value (.array [(.index 0, .true), (.index 1, .array [(.index 0, .true), (.index 1, .false)]),
        (.index 2, .false)]), .value .false], s') := by
  intro rounds
  have hlegal : ∀ r ∈ rounds, r.Legal := by
    simp only [rounds, List.forall_mem_cons, List.not_mem_nil, false_implies, implies_true,
      and_true]
    refine ⟨trivial, ?_, trivial⟩
    simp [Round.Legal, Item.Legal, Command.Fits, Command.Simple, Command.validator, sentOf,
      Command.sent]
  have haccepts : ∀ c : Command, c.validator ≠ .longAsBool →
      c.Accepts (.status (ascii "OK")) := fun c hc => hc
  have ha : AcceptedRounds okServer () rounds := by
    refine ⟨fun ws _ => haccepts _ (by decide), ⟨fun ws _ => haccepts _ (by decide),
      ⟨[.status (ascii "OK"), .status (ascii "OK")], rfl, ?_⟩, fun ws _ => haccepts _ (by decide),
      trivial⟩, fun ws _ => haccepts _ (by decide), trivial⟩
    exact .cons (haccepts _ (by decide)) (.cons (haccepts _ (by decide)) .nil)
  obtain ⟨zs, s', hzs, hrun, -⟩ := @runRounds_delivers Unit okServer () 3 [] (by simp [WritesFine])
    rounds hlegal ha
  have hexpected : expectedRounds okServer () rounds = .ok [.false, .array [(.index 0, .true),
      (.index 1, .array [(.index 0, .true), (.index 1, .false)]), (.index 2, .false)], .false] := by
    rfl
  cases hzs.symm.trans hexpected
  exact ⟨s', hrun⟩

end PhpHiredis
