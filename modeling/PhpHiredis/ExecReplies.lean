import PhpHiredis.Transactions

/-!
# The replies to `EXEC`

`EXEC` may be answered with something that is no array: nil, when the
transaction was aborted, or an error. Both loops over a block take the hash
table of the reply before they look at its type. So they handle arrays, with
elements that the validators handle, and nothing else. A block without commands
is replayed as a command, and has no validator to call.
-/
namespace PhpHiredis

open Library

variable {δ : Type} (srv : Server δ)

/-- The replayed validators for an array, `FALSE` for anything else. -/
def blockSlot (d : δ) (cs : List Command) : Run Zval :=
  match (srv.exec d (requests cs)).2 with
  | .array elems => do
      let vals ← validated (validators cs) (elems.map Reply.value)
      return .array (listTable vals)
  | _ => return .false

def Item.slots (d : δ) : Item → Run (List Zval)
  | .command c => match c.sent with
    | none => return []
    | some ws => do
        let (_, z) ← c.validator.apply (srv.execute d ws).2.value none
        return [z]
  | .block cs => do
      let z ← blockSlot srv d cs
      return [z]

def slotsOf : δ → List Item → Run (List Zval)
  | _, [] => .ok []
  | d, i :: is => do
      let vals ← i.slots srv d
      let rest ← slotsOf (i.after srv d) is
      return vals ++ rest

/-- The reply to `EXEC` is an array, and the validators handle its elements. -/
def BlockHandles (d : δ) (cs : List Command) : Prop :=
  ∃ elems, (srv.exec d (requests cs)).2 = .array elems ∧
    ∀ p ∈ (validators cs).zip elems, p.1.Handles p.2.value 0

def Item.Handles (d : δ) : Item → Prop
  | .command c => ∀ ws, c.sent = some ws → c.validator.Handles (srv.execute d ws).2.value 0
  | .block cs => sentOf cs ≠ [] ∧ BlockHandles srv d cs

/-- Every command handles its reply, and every block has some command and handles the
reply to its `EXEC`. -/
def ItemsHandle : δ → List Item → Prop
  | _, [] => True
  | d, i :: is => i.Handles srv d ∧ ItemsHandle (i.after srv d) is

/-- Direct mode, and no transaction open. -/
def Closed {σ : Type} (s : RedisSock σ) : Prop := s.mode = .direct ∧ s.multi = 0

/-- A call handles the replies to `EXEC`: it returns its slots, and no transaction is
open then. -/
def Handled {σ : Type} (outcome : Run (Returned × RedisSock σ)) (slots : Run Zval) : Prop :=
  ∃ z s', slots = .ok z ∧ outcome = .ok (.value z, s') ∧ Closed s'

variable {srv}

theorem arrval_of_not_array {r : Reply} (h : ∀ elems, r ≠ .array elems) :
    r.value.arrval = .fault .notAnArray := by
  cases r with
  | array elems => exact absurd rfl (h elems)
  | status text =>
      rw [Reply.value]
      split <;> rfl
  | _ => rw [Reply.value]; rfl

/-- The replies that an entry of the main queue is replayed on without a fault: a
block has some command, and pairs its validators with elements they handle. -/
def Entry.Handles : Entry → Reply → Prop
  | .reply fn, r => fn.Handles r.value 0
  | .block fns, .array elems => fns ≠ [] ∧ ∀ p ∈ fns.zip elems, p.1.Handles p.2.value 0
  | .block _, _ => False

theorem Entry.replay_returns_iff (e : Entry) (r : Reply) :
    (e.replay r.value).Returns ↔ e.Handles r := by
  cases e with
  | reply fn => exact Outcome.returns_map_iff.trans (fn.returns_iff r.value_ne_undef)
  | block fns =>
      by_cases harray : ∃ elems, r = .array elems
      · obtain ⟨elems, rfl⟩ := harray
        by_cases hfns : fns = []
        · subst hfns
          exact iff_of_false (Outcome.not_returns_fault _) fun h => h.1 rfl
        · rw [replay_block fns hfns, Outcome.returns_map_iff, validated_returns_iff]
          simp only [Handles, ne_eq, hfns, not_false_eq_true, true_and]
      · have hfails : r.value.arrval = .fault .notAnArray :=
          arrval_of_not_array fun elems hr => harray ⟨elems, hr⟩
        refine iff_of_false ?_ fun h => ?_
        · cases fns with
          | nil => exact Outcome.not_returns_fault _
          | cons fn fns =>
              rw [replay, hfails]
              exact Outcome.not_returns_fault _
        · cases r with
          | array elems => exact harray ⟨elems, rfl⟩
          | _ => exact h

theorem Entry.handles_block_iff (fns : List Validator) (r : Reply) :
    (Entry.block fns).Handles r ↔
      fns ≠ [] ∧ ∃ elems, r = .array elems ∧ ∀ p ∈ fns.zip elems, p.1.Handles p.2.value 0 := by
  cases r with
  | array elems => simp [Handles]
  | _ => simp [Handles]

theorem replay_block_eq {d : δ} {cs : List Command} (hne : sentOf cs ≠ []) {elems : List Reply}
    (hexec : (srv.exec d (requests cs)).2 = .array elems) :
    (Entry.block (validators cs)).replay (srv.exec d (requests cs)).2.value =
      blockSlot srv d cs >>= fun z => .ok [z] := by
  have hfns : validators cs ≠ [] := fun h0 => hne (List.map_eq_nil_iff.mp h0)
  rw [hexec, replay_block _ hfns, blockSlot, hexec]
  simp only [bind_assoc, Outcome.ok_bind, Outcome.pure_eq]

theorem replay_item_command (d : δ) (c : Command) :
    replay (Item.command c).entries (((Item.command c).replies srv d).map Reply.value) =
      (Item.command c).slots srv d := by
  simp only [Item.entries, Item.replies, Item.slots]
  cases hc : c.sent with
  | none =>
      rw [sentOf_cons_none hc]
      rfl
  | some ws =>
      have hsent : sentOf [c] = [c] := sentOf_cons_some hc
      have hkeep := Validator.apply_keeps c.validator_ne_skip (srv.execute d ws).2.value none
        (fun z => (Outcome.ok [z] : Run (List Zval))) fun _ => .ok []
      simp only [hsent, List.map_cons, List.map_nil, replay, Entry.replay, bind_assoc,
        Outcome.ok_bind, Outcome.pure_eq, List.append_nil]
      rw [← hkeep]
      refine congrArg _ (funext fun t => ?_)
      split_ifs <;> rfl

theorem replay_item_slots {d : δ} {i : Item} (h : i.Handles srv d) :
    replay i.entries ((i.replies srv d).map Reply.value) = i.slots srv d := by
  cases i with
  | command c => exact replay_item_command d c
  | block cs =>
      obtain ⟨hne, elems, hexec, -⟩ := h
      rw [replay_item_block, replay_block_eq hne hexec]
      rfl

theorem replay_item_returns_iff (d : δ) (i : Item) :
    (replay i.entries ((i.replies srv d).map Reply.value)).Returns ↔ i.Handles srv d := by
  cases i with
  | command c =>
      rw [replay_item_command]
      simp only [Item.slots, Item.Handles]
      cases hc : c.sent with
      | none => exact iff_of_true ⟨[], rfl⟩ (by simp)
      | some ws =>
          simp only [Option.some.injEq, forall_eq']
          exact Outcome.returns_map_iff.trans (c.validator.returns_iff (Reply.value_ne_undef _))
  | block cs =>
      rw [replay_item_block, Entry.replay_returns_iff, Entry.handles_block_iff, validators, ne_eq,
        List.map_eq_nil_iff]
      rfl

theorem replay_items_cons (d : δ) (i : Item) (is : List Item) :
    replay ((i :: is).flatMap Item.entries) ((repliesOf srv d (i :: is)).map Reply.value) =
      replay i.entries ((i.replies srv d).map Reply.value) >>= fun vals =>
        replay (is.flatMap Item.entries) ((repliesOf srv (i.after srv d) is).map Reply.value) >>=
          fun rest => .ok (vals ++ rest) := by
  have hlen : i.entries.length = ((i.replies srv d).map Reply.value).length := by
    rw [List.length_map]
    exact (i.covers srv d).length_eq
  rw [List.flatMap_cons, repliesOf, List.map_append, replay_append hlen]
  rfl

theorem replay_items_slots {d : δ} {is : List Item} (h : ItemsHandle srv d is) :
    replay (is.flatMap Item.entries) ((repliesOf srv d is).map Reply.value) = slotsOf srv d is := by
  induction is generalizing d with
  | nil => rfl
  | cons i is ih =>
      rw [replay_items_cons, replay_item_slots h.1, ih h.2]
      rfl

theorem replay_items_returns_iff {d : δ} {is : List Item} :
    (replay (is.flatMap Item.entries) ((repliesOf srv d is).map Reply.value)).Returns ↔
      ItemsHandle srv d is := by
  induction is generalizing d with
  | nil => exact iff_of_true ⟨[], rfl⟩ trivial
  | cons i is ih =>
      rw [replay_items_cons, ItemsHandle, ← ih, ← replay_item_returns_iff]
      constructor
      · rintro ⟨r, hr⟩
        obtain ⟨vals, hvals, hrest⟩ := Outcome.bind_eq_ok.mp hr
        obtain ⟨rest, hrest, -⟩ := Outcome.bind_eq_ok.mp hrest
        exact ⟨⟨vals, hvals⟩, rest, hrest⟩
      · rintro ⟨⟨vals, hvals⟩, rest, hrest⟩
        refine ⟨vals ++ rest, ?_⟩
        rw [hvals, hrest]
        rfl

variable {s s' : RedisSock (Desk δ)}

theorem Rest.send_handled {d : δ} {es : List Entry} (h : Rest srv s d es) {is : List Item}
    (hfit : ∀ i ∈ is, i.Fits) {rets : List Returned}
    (hopen : runCalls srv.peer (.pipeline :: is.flatMap Item.calls) s = .ok (rets, s')) :
    Handled (Call.send.run srv.peer s')
        (slotsOf srv d is >>= fun vals => .ok (.array (listTable vals))) ↔
      ItemsHandle srv d is := by
  obtain ⟨rets', s₂, hopen', h₂⟩ := h.pipeline_open hfit
  rw [hopen'] at hopen
  cases hopen
  obtain ⟨s₃, ⟨fns, h₃⟩, hsend⟩ := h₂.send (covers_items srv d is)
  constructor
  · rintro ⟨z, s₄, -, hrun, -⟩
    rw [hsend] at hrun
    obtain ⟨vals, hvals, -⟩ := Outcome.bind_eq_ok.mp hrun
    exact replay_items_returns_iff.mp ⟨vals, hvals⟩
  · intro hitems
    obtain ⟨vals, hvals⟩ := replay_items_returns_iff.mpr hitems
    have hslots := hvals
    rw [replay_items_slots hitems] at hslots
    refine ⟨.array (listTable vals), s₃, ?_, ?_, h₃.mode, h₃.multi⟩
    · rw [hslots]
      rfl
    · rw [hsend, hvals]
      rfl

theorem Rest.exec_handled {d : δ} {es : List Entry} (h : Rest srv s d es) {cs : List Command}
    (hfit : ∀ c ∈ cs, c.Fits) {rets : List Returned}
    (hopen : runCalls srv.peer (.multi :: cs.map .command) s = .ok (rets, s')) :
    Handled (Call.exec.run srv.peer s') (blockSlot srv d cs) ↔ BlockHandles srv d cs ∧ es = [] := by
  obtain ⟨rets', s₂, hopen', h₂⟩ := h.transaction hfit
  rw [hopen'] at hopen
  cases hopen
  have hlen : (skips cs).length = (confirmations cs).length := by simp [skips, confirmations]
  constructor
  · rintro ⟨z, s₃, -, hrun, -⟩
    have hes : es = [] := by
      by_contra hes
      have hpos := List.length_pos_of_ne_nil hes
      rw [h₂.exec_blocked rfl (by simp only [List.length_append]; omega)] at hrun
      cases hrun
    subst hes
    obtain ⟨s₄, -, hexec⟩ := h₂.exec_direct rfl (by simpa using hlen.symm)
    rw [hexec, srv.answer_exec] at hrun
    obtain ⟨tab, htab, hrest⟩ := Outcome.bind_eq_ok.mp hrun
    obtain ⟨elems, helems⟩ : ∃ elems, (srv.exec d (requests cs)).2 = .array elems := by
      by_contra hnone
      rw [arrval_of_not_array fun elems he => hnone ⟨elems, he⟩] at htab
      cases htab
    simp only [helems, Reply.value_array, Zval.arrval] at htab
    cases htab
    rw [listTable_values] at hrest
    obtain ⟨vals, hvals, -⟩ := Outcome.bind_eq_ok.mp hrest
    exact ⟨⟨elems, helems, (validated_returns_iff _ _).mp ⟨vals, hvals⟩⟩, rfl⟩
  · rintro ⟨⟨elems, helems, hfns⟩, rfl⟩
    obtain ⟨vals, hvals⟩ := (validated_returns_iff _ _).mpr hfns
    obtain ⟨s₃, h₃, hexec⟩ := h₂.exec_direct rfl (by simpa using hlen.symm)
    simp only [srv.answer_exec, helems, Reply.value_array, Zval.arrval, Outcome.ok_bind,
      listTable_values, hvals] at hexec
    refine ⟨.array (listTable vals), s₃, ?_, hexec, h₃.mode, h₃.multi⟩
    rw [blockSlot, helems]
    simp only [hvals]
    rfl

theorem items_fit {is : List Item} {peer : Peer (Desk δ)} {rets : List Returned}
    (h : runCalls peer (.pipeline :: is.flatMap Item.calls) s = .ok (rets, s')) :
    ∀ i ∈ is, i.Fits := by
  have hcommand : ∀ i ∈ is, ∀ c, .command c ∈ i.calls → c.Fits := fun i hi c hc =>
    commands_fit h (List.mem_cons_of_mem _ (List.mem_flatMap.mpr ⟨i, hi, hc⟩))
  intro i hi
  cases i with
  | command c => exact hcommand _ hi c (by simp [Item.calls])
  | block cs => exact fun c hc => hcommand _ hi c (by simp [Item.calls, hc])

/-- After any completed rounds: `exec` handles the reply to `EXEC` exactly when it is an
array whose elements the validators handle and the main queue was empty at `multi`;
`send` exactly when every item handles its replies. -/
theorem exec_replies_handled_iff {d₀ : δ} {fd : ℕ} {writes : List WriteResult}
    (hw : WritesFine writes) {rounds : List Round} {rets : List Returned}
    (hrun : runRounds srv.peer rounds (.connected (connection d₀ fd writes)) = .ok (rets, s)) :
    let d := (s.ctx.settled srv.peer).session.db
    (∀ cs rets s', runCalls srv.peer (.multi :: cs.map .command) s = .ok (rets, s') →
      (Handled (Call.exec.run srv.peer s') (blockSlot srv d cs) ↔
        BlockHandles srv d cs ∧ s.queue_head = none)) ∧
    ∀ is rets s', runCalls srv.peer (.pipeline :: is.flatMap Item.calls) s = .ok (rets, s') →
      (Handled (Call.send.run srv.peer s')
          (slotsOf srv d is >>= fun vals => .ok (.array (listTable vals))) ↔
        ItemsHandle srv d is) := by
  obtain ⟨d, es, h⟩ := (rest_connected srv d₀ fd hw).rounds hrun
  intro d'
  obtain rfl : d' = d := h.db
  refine ⟨fun cs rets' s' hopen => ?_,
    fun is rets' s' hopen => h.send_handled (items_fit hopen) hopen⟩
  rw [h.head_eq_none]
  exact h.exec_handled (fun c hc => commands_fit hopen
    (List.mem_cons_of_mem _ (List.mem_map_of_mem hc))) hopen

/-- A new connection, a transaction and a pipeline with a block. -/
theorem exec_replies_handled_iff_first :
    ∃ rets s₁ rets' s₂, runCalls okServer.peer [.multi, .command .ping] okConnection =
        .ok (rets, s₁) ∧
      Handled (Call.exec.run okServer.peer s₁) (blockSlot okServer () [.ping]) ∧
      runCalls okServer.peer [.pipeline, .multi, .command .ping, .exec, .command .ping]
        okConnection = .ok (rets', s₂) ∧
      Handled (Call.send.run okServer.peer s₂)
        (slotsOf okServer () [.block [.ping], .command .ping] >>= fun vals =>
          .ok (.array (listTable vals))) := by
  obtain ⟨rets, s₁, h₁, -⟩ := rest_okConnection.transaction
    (show ∀ c ∈ [Command.ping], c.Fits by simp [Command.Fits])
  obtain ⟨rets', s₂, h₂, -⟩ := rest_okConnection.pipeline_open
    (show ∀ i ∈ [Item.block [.ping], .command .ping], i.Fits by simp [Item.Fits, Command.Fits])
  obtain ⟨hexec, hsend⟩ := @exec_replies_handled_iff Unit okServer okConnection () 3 []
    (by simp [WritesFine]) [] [] rfl
  have hblock : BlockHandles okServer () [.ping] := by
    refine ⟨[.status (ascii "OK")], rfl, ?_⟩
    simp [validators, sentOf, Command.sent, Command.validator, Validator.Handles]
  have hsent : sentOf [Command.ping] ≠ [] := by simp [sentOf, Command.sent]
  exact ⟨rets, s₁, rets', s₂, h₁, (hexec _ _ _ h₁).mpr ⟨hblock, rfl⟩, h₂,
    (hsend _ _ _ h₂).mpr ⟨⟨hsent, hblock⟩, fun _ _ => trivial, trivial⟩⟩

def abortingServer : Server Unit := { okServer with
  exec := fun _ _ => ((), .nilArray)
  exec_sound := fun _ _ => trivial
  exec_length := fun _ _ _ h => nomatch h }

/-- A nil reply to `EXEC` is taken for an array by both methods, and `FALSE` is never
returned. -/
theorem not_handled_nil :
    ∃ rets s₁ rets' s₂, runCalls abortingServer.peer [.multi, .command .ping] okConnection =
        .ok (rets, s₁) ∧
      Call.exec.run abortingServer.peer s₁ = .fault .notAnArray ∧
      ¬Handled (Call.exec.run abortingServer.peer s₁) (blockSlot abortingServer () [.ping]) ∧
      runCalls abortingServer.peer [.pipeline, .multi, .command .ping, .exec] okConnection =
        .ok (rets', s₂) ∧
      Call.send.run abortingServer.peer s₂ = .fault .notAnArray ∧
      ¬Handled (Call.send.run abortingServer.peer s₂)
        (slotsOf abortingServer () [.block [.ping]] >>= fun vals =>
          .ok (.array (listTable vals))) := by
  have hrest : Rest abortingServer okConnection () [] :=
    rest_connected abortingServer () 3 fun _ hw => (List.not_mem_nil hw).elim
  obtain ⟨rets, s₁, h₁, h₁'⟩ := hrest.transaction
    (show ∀ c ∈ [Command.ping], c.Fits by simp [Command.Fits])
  obtain ⟨s₃, -, hexec⟩ := h₁'.exec_direct rfl rfl
  obtain ⟨rets', s₂, h₂, h₂'⟩ := hrest.pipeline_open
    (show ∀ i ∈ [Item.block [.ping]], i.Fits by simp [Item.Fits, Command.Fits])
  obtain ⟨s₄, -, hsend⟩ := h₂'.send (covers_items abortingServer () _)
  have hfails : ∀ {outcome : Run (Returned × RedisSock (Desk Unit))} {slots : Run Zval},
      outcome = .fault .notAnArray → ¬Handled outcome slots := by
    rintro _ _ rfl ⟨z, s', -, hrun, -⟩
    cases hrun
  exact ⟨rets, s₁, rets', s₂, h₁, hexec, hfails hexec, h₂, hsend, hfails hsend⟩

end PhpHiredis
