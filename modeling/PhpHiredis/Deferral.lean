import PhpHiredis.ExecReplies
import PhpHiredis.Pipelines

/-!
# A deferred `hmget`

The validator of `hmget` pairs the arguments of the call with the elements of
the reply. A direct call hands them to it. Where the reply is read later, by
`send` or by `exec`, the validator is taken from a queue, and the nodes of the
queues keep no arguments. So a deferred `hmget` has a value for the empty array
only, which is never the reply to a call with fields.
-/
namespace PhpHiredis

open Library

/-- The parameters of a call: the fields one by one, or all of them in one array. -/
inductive FieldsForm (key : Zval) (fields : List Zval) : List Zval → Prop
  | separate (h : ∀ es, fields ≠ [.array es]) : FieldsForm key fields (key :: fields)
  | together (es : HashTable) (h : elementsFrom es es.length 0 = some fields) :
      FieldsForm key fields [key, .array es]

section
variable {key : Zval} {fields params : List Zval}

theorem FieldsForm.vargArguments (h : FieldsForm key fields params) (hne : fields ≠ []) :
    VargForm params ∧
      PhpHiredis.vargArguments params = some ((key :: fields).map Zval.convertToString) := by
  cases h with
  | separate hform =>
      have hvarg : VargForm (key :: fields) := vargForm_cons hne
      refine ⟨hvarg, ?_⟩
      rcases layoutArgs_cases hvarg with ⟨z_key, es, heq⟩ | ⟨-, hargs⟩
      · exact absurd (List.cons.inj heq).2 (hform es)
      · exact hargs
  | together es hes =>
      refine ⟨vargForm_cons (List.cons_ne_nil _ _), ?_⟩
      simp only [PhpHiredis.vargArguments, hes]
      rfl

/-- The fields with the elements of the reply. A later pair replaces an earlier one. -/
def zipFields (fields : List Bytes) (vs : List Zval) : HashTable :=
  (fields.zip vs).foldl (fun ret e => OrderedMap.insert (.ofString e.1) e.2 ret) []

theorem zipArgs_eq (pre strs : List Bytes) (vs : List Zval) (hlen : vs.length = strs.length)
    (ret : HashTable) :
    zipArgs (some ((pre ++ strs).map .string)) pre.length vs ret =
      .ok ((strs.zip vs).foldl (fun ret e => OrderedMap.insert (.ofString e.1) e.2 ret) ret) := by
  induction vs generalizing pre strs ret with
  | nil =>
      obtain rfl := List.eq_nil_of_length_eq_zero hlen.symm
      rfl
  | cons v vs ih =>
      cases strs with
      | nil => cases hlen
      | cons str strs =>
          have harg : ((pre ++ str :: strs).map Zval.string)[pre.length]? = some (.string str) := by
            simp
          have hih := ih (pre ++ [str]) strs (Nat.succ.inj hlen)
          simp only [List.append_assoc, List.singleton_append, List.length_append,
            List.length_singleton] at hih
          simp only [zipArgs, harg, Zval.strval, Outcome.ok_bind, hih]
          rfl

theorem FieldsForm.result (h : FieldsForm key fields params) (hne : fields ≠ [])
    {elems : List Reply} (hlen : elems.length = fields.length) :
    (Command.hmget params).result (.array elems) =
      .ok (.array (zipFields (fields.map Zval.convertToString) (elems.map Reply.value))) := by
  obtain ⟨hform, hargs⟩ := h.vargArguments hne
  have hzip : zipArgs (some (((key :: fields).map Zval.convertToString).map .string)) 1
      (elems.map Reply.value) [] =
        .ok (zipFields (fields.map Zval.convertToString) (elems.map Reply.value)) :=
    zipArgs_eq [key.convertToString] _ _ (by simp [hlen]) []
  have hkept := keptArgs_of_form hform hargs
  simp only [Command.result, Command.validator, Command.closureArgs, hkept, Validator.apply,
    Reply.value_array, redisReplyZipClosure, listTable_values, hzip, Outcome.ok_bind,
    Outcome.pure_eq]

end

/-- Where a command is deferred, with all that comes before and after it: in a
pipeline, in a transaction, or in a block of a pipeline. -/
inductive Place where
  | pipeline (before after : List Item)
  | transaction (cs cs' : List Command)
  | block (before : List Item) (cs cs' : List Command) (after : List Item)

namespace Place
variable {δ : Type} (srv : Server δ)

def round (c : Command) : Place → Round
  | pipeline before after => .pipeline (before ++ .command c :: after)
  | transaction cs cs' => .transaction (cs ++ c :: cs')
  | block before cs cs' after => .pipeline (before ++ .block (cs ++ c :: cs') :: after)

/-- Among the elements of an array of replies to `EXEC`, that of the command
after `cs` is `r`. -/
def InExec (d : δ) (cs cs' : List Command) (c : Command) (r : Reply) : Prop :=
  ∃ elems, (srv.exec d (requests (cs ++ c :: cs'))).2 = .array elems ∧
    elems[(sentOf cs).length]? = some r

/-- The server replies `r` to the command at this place. -/
def Answered (d : δ) (c : Command) (r : Reply) : Place → Prop
  | pipeline before _ => ∃ ws, c.sent = some ws ∧ (srv.execute (afterItems srv d before) ws).2 = r
  | transaction cs cs' => InExec srv d cs cs' c r
  | block before cs cs' _ => InExec srv (afterItems srv d before) cs cs' c r

def contributions (is : List Item) : ℕ :=
  (is.map fun i => match i with
    | .command c => (sentOf [c]).length
    | .block _ => 1).sum

def elementAt (k : ℕ) : Zval → Option Zval
  | .array es => indexFind es k
  | _ => none

/-- The value of the command, in what its round returns. -/
def contributed : Place → Zval → Option Zval
  | pipeline before _, z => elementAt (contributions before) z
  | transaction cs _, z => elementAt (sentOf cs).length z
  | block before cs _ _, z =>
      (elementAt (contributions before) z).bind (elementAt (sentOf cs).length)

end Place

/-- On every connection at rest, to any server that replies `r`, the direct call
returns `z`. -/
def DirectReturns (c : Command) (r : Reply) (z : Zval) : Prop :=
  ∀ (δ : Type) (srv : Server δ) (s : RedisSock (Desk δ)) (d : δ) (es : List Entry) (ws : Request),
    Rest srv s d es → c.sent = some ws → (srv.execute d ws).2 = r →
      ∃ s', c.run srv.peer s = .ok (.value z, s')

/-- The command contributes a value where it is deferred, the one its direct
call returns for the same reply. -/
def DefersFaithfully {δ : Type} (srv : Server δ) (s : RedisSock (Desk δ)) (p : Place) (c : Command)
    (r : Reply) : Prop :=
  ∃ ret s' z, (p.round c).run srv.peer s = .ok (.value ret, s') ∧ p.contributed ret = some z ∧
    DirectReturns c r z

/-- An array with some element makes the validator follow `NULL`. -/
theorem apply_zipClosure_none {elems : List Reply} (hne : elems ≠ []) :
    Validator.zipClosure.apply (Reply.array elems).value none = .fault .nullPointer := by
  cases elems with
  | nil => exact absurd rfl hne
  | cons e elems =>
      rw [Reply.value_array]
      simp only [Validator.apply, redisReplyZipClosure, listTable_values, List.map_cons, zipArgs,
        Outcome.fault_bind]

theorem not_returns_validated {fns fns' : List Validator} {fn : Validator} {zs : List Zval}
    {z : Zval}
    (hz : zs[fns.length]? = some z) (hfn : ¬(fn.apply z none).Returns) :
    ¬(validated (fns ++ fn :: fns') zs).Returns := by
  induction fns generalizing zs with
  | nil =>
      cases zs with
      | nil => cases hz
      | cons z' zs =>
          obtain rfl := Option.some.inj hz
          rintro ⟨vals, h⟩
          obtain ⟨t, ht, -⟩ := Outcome.bind_eq_ok.mp h
          exact hfn ⟨t, ht⟩
  | cons fn' fns ih =>
      cases zs with
      | nil => cases hz
      | cons z' zs =>
          refine Outcome.not_returns_bind fun t _ => ?_
          rintro ⟨vals, h⟩
          obtain ⟨vals', hvals, -⟩ := Outcome.bind_eq_ok.mp h
          exact ih (show zs[fns.length]? = some z from hz) ⟨vals', hvals⟩

section
variable {δ : Type} {srv : Server δ} {s : RedisSock (Desk δ)} {d : δ}

theorem not_returns_replay {before : List Item} {i : Item} (after : List Item)
    (h : ¬(replay i.entries ((i.replies srv (afterItems srv d before)).map Reply.value)).Returns) :
    ¬(replay ((before ++ i :: after).flatMap Item.entries)
      ((repliesOf srv d (before ++ i :: after)).map Reply.value)).Returns := by
  induction before generalizing d with
  | nil =>
      rw [List.nil_append, replay_items_cons]
      rintro ⟨vals, hvals⟩
      obtain ⟨vals', hvals', -⟩ := Outcome.bind_eq_ok.mp hvals
      exact h ⟨vals', hvals'⟩
  | cons j before ih =>
      rw [List.cons_append, replay_items_cons]
      refine Outcome.not_returns_bind fun vals _ => ?_
      rintro ⟨rest, hrest⟩
      obtain ⟨rest', hrest', -⟩ := Outcome.bind_eq_ok.mp hrest
      exact ih h ⟨rest', hrest'⟩

theorem Rest.not_returns_pipeline {es : List Entry} (h : Rest srv s d es) {is : List Item}
    (hreplay : ¬(replay (is.flatMap Item.entries) ((repliesOf srv d is).map Reply.value)).Returns) :
    ¬((Round.pipeline is).run srv.peer s).Returns := by
  rintro ⟨⟨ret, s'⟩, hrun⟩
  obtain ⟨rets, s₁, -, hpipe⟩ := h.pipeline (Round.items_fit hrun)
  rw [Round.run, hpipe] at hrun
  simp only [bind_assoc] at hrun
  obtain ⟨vals, hvals, -⟩ := Outcome.bind_eq_ok.mp hrun
  exact hreplay ⟨vals, hvals⟩

theorem Rest.not_returns_transaction {es : List Entry} (h : Rest srv s d es) {cs : List Command}
    {elems : List Reply} (hexec : (srv.exec d (requests cs)).2 = .array elems)
    (hvalid : ¬(validated (validators cs) (elems.map Reply.value)).Returns) :
    ¬((Round.transaction cs).run srv.peer s).Returns := by
  rintro ⟨⟨ret, s'⟩, hrun⟩
  obtain ⟨rets, s₁, hopen, h₁⟩ := h.transaction (show ∀ c ∈ cs, c.Fits from Round.commands_fit hrun)
  have hlen : (skips cs).length = (confirmations cs).length := by simp [skips, confirmations]
  rw [Round.run, Round.calls, runCalls_append, hopen] at hrun
  simp only [Outcome.ok_bind, runCalls, bind_assoc, Outcome.pure_eq] at hrun
  by_cases hes : es = []
  · subst hes
    obtain ⟨s₂, -, hdirect⟩ := h₁.exec_direct rfl (by simpa using hlen.symm)
    simp only [srv.answer_exec, hexec, Reply.value_array, Zval.arrval, Outcome.ok_bind,
      listTable_values] at hdirect
    rw [hdirect] at hrun
    simp only [bind_assoc] at hrun
    obtain ⟨vals, hvals, -⟩ := Outcome.bind_eq_ok.mp hrun
    exact hvalid ⟨vals, hvals⟩
  · have hpos := List.length_pos_of_ne_nil hes
    rw [h₁.exec_blocked rfl (by simp only [List.length_append]; omega)] at hrun
    cases hrun

theorem validators_append (cs : List Command) {c : Command} {ws : Request} (hc : c.sent = some ws)
    (cs' : List Command) :
    validators (cs ++ c :: cs') = validators cs ++ c.validator :: validators cs' := by
  have hsent : sentOf (cs ++ c :: cs') = sentOf cs ++ c :: sentOf cs' := by
    rw [← sentOf_cons_some hc]
    exact List.filter_append ..
  rw [validators, hsent, List.map_append, List.map_cons]
  rfl

/-- A round with a command whose validator fails where it is replayed does not return. -/
theorem Rest.not_returns_round {es : List Entry} (h : Rest srv s d es) {p : Place} {c : Command}
    {ws : Request} (hc : c.sent = some ws) {r : Reply} (hreply : p.Answered srv d c r)
    (hfn : ¬(c.validator.apply r.value none).Returns) :
    ¬((p.round c).run srv.peer s).Returns := by
  have hvalid : ∀ {cs cs' : List Command} {elems : List Reply},
      elems[(sentOf cs).length]? = some r →
      ¬(validated (validators (cs ++ c :: cs')) (elems.map Reply.value)).Returns := by
    intro cs cs' elems hr
    rw [validators_append cs hc]
    refine not_returns_validated ?_ hfn
    rw [validators, List.length_map, List.getElem?_map, hr]
    rfl
  cases p with
  | pipeline before after =>
      obtain ⟨ws', hws', hr⟩ := hreply
      obtain rfl := Option.some.inj (hc.symm.trans hws')
      refine h.not_returns_pipeline (not_returns_replay after ?_)
      rw [replay_item_command]
      simp only [Item.slots, hc, hr]
      rintro ⟨vals, hvals⟩
      obtain ⟨t, ht, -⟩ := Outcome.bind_eq_ok.mp hvals
      exact hfn ⟨t, ht⟩
  | transaction cs cs' =>
      obtain ⟨elems, hexec, hr⟩ := hreply
      exact h.not_returns_transaction hexec (hvalid hr)
  | block before cs cs' after =>
      obtain ⟨elems, hexec, hr⟩ := hreply
      refine h.not_returns_pipeline (not_returns_replay after ?_)
      have hne : sentOf (cs ++ c :: cs') ≠ [] := by
        have hmem : c ∈ sentOf (cs ++ c :: cs') := List.mem_filter.mpr ⟨by simp, by rw [hc]; rfl⟩
        exact List.ne_nil_of_mem hmem
      rw [replay_item_block, replay_block_eq hne hexec, blockSlot, hexec]
      simp only [bind_assoc]
      rintro ⟨vals, hvals⟩
      obtain ⟨vals', hvals', -⟩ := Outcome.bind_eq_ok.mp hvals
      exact hvalid hr ⟨vals', hvals'⟩

end

theorem FieldsForm.sent {key : Zval} {fields params : List Zval} (h : FieldsForm key fields params)
    (hne : fields ≠ []) :
    (Command.hmget params).sent =
      some (ascii "HMGET" :: (key :: fields).map Zval.convertToString) := by
  rw [Command.sent, (h.vargArguments hne).2]
  rfl

theorem FieldsForm.direct {key : Zval} {fields params : List Zval}
    (h : FieldsForm key fields params) (hne : fields ≠ []) {elems : List Reply}
    (hlen : elems.length = fields.length) :
    DirectReturns (.hmget params) (.array elems)
      (.array (zipFields (fields.map Zval.convertToString) (elems.map Reply.value))) := by
  intro δ srv s d es ws hrest hsent hreply
  have hresult := h.result hne hlen
  obtain ⟨t, ht, hz⟩ := Outcome.bind_eq_ok.mp hresult
  obtain ⟨s', -, hrun⟩ := hrest.direct (show (Command.hmget params).Fits from
    (h.vargArguments hne).1.room) hsent
  refine ⟨s', ?_⟩
  rw [hrun, hreply, ht, Outcome.ok_bind, Outcome.ok.inj hz]

/-- After any completed rounds, at every place, with any fields: a direct `hmget`
would return the fields with the elements of the reply, and the deferred one
has no value. -/
theorem hmget_defers_never {δ : Type} {srv : Server δ} {d₀ : δ} {fd : ℕ}
    {writes : List WriteResult} (hw : WritesFine writes) {rounds : List Round}
    {rets : List Returned} {s : RedisSock (Desk δ)}
    (hrun : runRounds srv.peer rounds (.connected (connection d₀ fd writes)) = .ok (rets, s))
    {key : Zval} {fields params : List Zval} (hform : FieldsForm key fields params)
    (hne : fields ≠ []) {elems : List Reply} (hlen : elems.length = fields.length) {p : Place}
    (hreply : p.Answered srv (s.ctx.settled srv.peer).session.db (.hmget params) (.array elems)) :
    DirectReturns (.hmget params) (.array elems)
        (.array (zipFields (fields.map Zval.convertToString) (elems.map Reply.value))) ∧
      ¬DefersFaithfully srv s p (.hmget params) (.array elems) := by
  obtain ⟨d, es, h⟩ := (rest_connected srv d₀ fd hw).rounds hrun
  rw [h.db] at hreply
  have helems : elems ≠ [] := by
    rintro rfl
    exact hne (List.eq_nil_of_length_eq_zero hlen.symm)
  have hfn : ¬((Command.hmget params).validator.apply (Reply.array elems).value none).Returns := by
    rw [Command.validator, apply_zipClosure_none helems]
    exact Outcome.not_returns_fault _
  refine ⟨hform.direct hne hlen, ?_⟩
  rintro ⟨ret, s', z, hround, -⟩
  exact h.not_returns_round (hform.sent hne) hreply hfn ⟨_, hround⟩

def hashServer : Server Unit :=
  .constant (.array [.bulk (ascii "v")]) ⟨by decide, by simp [Reply.Sound, ascii]⟩

def hashConnection : RedisSock (Desk Unit) := .connected (connection () 3 [])

theorem rest_hashConnection : Rest hashServer hashConnection () [] :=
  rest_connected hashServer () 3 fun _ hw => (List.not_mem_nil hw).elim

def hmgetParams : List Zval := [.string (ascii "h"), .string (ascii "f")]

theorem fieldsForm_hmgetParams :
    FieldsForm (.string (ascii "h")) [.string (ascii "f")] hmgetParams :=
  .separate fun _ h => nomatch h

/-- Between other commands in a pipeline, and in its block. -/
theorem hmget_defers_never_first :
    DirectReturns (.hmget hmgetParams) (.array [.bulk (ascii "v")])
        (.array (zipFields [ascii "f"] [.string (ascii "v")])) ∧
      ¬DefersFaithfully hashServer hashConnection (.pipeline [.command .ping] [.command .ping])
        (.hmget hmgetParams) (.array [.bulk (ascii "v")]) ∧
      ¬DefersFaithfully hashServer hashConnection (.block [] [.ping] [] [.command .ping])
        (.hmget hmgetParams) (.array [.bulk (ascii "v")]) := by
  have hw : WritesFine [] := fun _ hw => (List.not_mem_nil hw).elim
  have hnever := fun p hreply => @hmget_defers_never Unit hashServer () 3 [] hw [] []
    hashConnection rfl _ _ _ fieldsForm_hmgetParams (List.cons_ne_nil _ _)
    [.bulk (ascii "v")] rfl p hreply
  have hpipeline := hnever (.pipeline [.command .ping] [.command .ping]) ⟨_, rfl, rfl⟩
  have hblock := hnever (.block [] [.ping] [] [.command .ping]) ⟨_, rfl, rfl⟩
  have hvalue : [Reply.bulk (ascii "v")].map Reply.value = [.string (ascii "v")] := by
    simp [Reply.value]
  rw [hvalue] at hpipeline
  exact ⟨hpipeline.1, hpipeline.2, hblock.2⟩

/-- In a pipeline of its own `hmget` is queued, and `send` follows `NULL`. -/
theorem not_defersFaithfully_hmget :
    (∃ rets s, runCalls hashServer.peer [.pipeline, .command (.hmget hmgetParams)]
        hashConnection = .ok (rets, s) ∧ Call.send.run hashServer.peer s = .fault .nullPointer) ∧
      ¬DefersFaithfully hashServer hashConnection (.pipeline [] []) (.hmget hmgetParams)
        (.array [.bulk (ascii "v")]) := by
  have hne : [Zval.string (ascii "f")] ≠ [] := List.cons_ne_nil _ _
  have hfit : (Command.hmget hmgetParams).Fits :=
    (fieldsForm_hmgetParams.vargArguments hne).1.room
  have hfault : Validator.zipClosure.apply (Reply.array [.bulk (ascii "v")]).value none =
      .fault .nullPointer := apply_zipClosure_none (List.cons_ne_nil _ _)
  constructor
  · obtain ⟨rets, s, hopen, hpiped⟩ := rest_hashConnection.pipeline_open
      (show ∀ i ∈ [Item.command (.hmget hmgetParams)], i.Fits by simpa [Item.Fits] using hfit)
    obtain ⟨s', -, hsend⟩ := hpiped.send (covers_items hashServer () _)
    refine ⟨rets, s, hopen, ?_⟩
    rw [hsend, ← List.append_nil [Item.command (.hmget hmgetParams)], List.singleton_append,
      replay_items_cons, replay_item_command]
    simp only [Item.slots, fieldsForm_hmgetParams.sent hne]
    rw [show (hashServer.execute () _).2 = .array [.bulk (ascii "v")] from rfl]
    rw [show (Command.hmget hmgetParams).validator = .zipClosure from rfl, hfault]
    rfl
  · rintro ⟨ret, s', z, hround, -⟩
    have hanswered : (Place.pipeline [] []).Answered hashServer () (.hmget hmgetParams)
        (.array [.bulk (ascii "v")]) := ⟨_, rfl, rfl⟩
    refine rest_hashConnection.not_returns_round (fieldsForm_hmgetParams.sent hne) hanswered ?_
      ⟨_, hround⟩
    rw [Command.validator, hfault]
    exact Outcome.not_returns_fault _

end PhpHiredis
