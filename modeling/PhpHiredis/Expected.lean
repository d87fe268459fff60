import PhpHiredis.Rounds

/-!
# What a round should return

Stated on the server alone: every command has its validator applied to the
reply to its own request, a pipeline returns these values in order, and a
transaction those of the elements of the reply to `EXEC`. Where an entry of the
main queue is replayed on its own reply, it contributes this value.
-/
namespace PhpHiredis

open Library

namespace Command

/-- The value of a command for the reply to its request. -/
def result (c : Command) (r : Reply) : Run Zval := do
  let (_, z) ← c.validator.apply r.value c.closureArgs
  return z

/-- The commands other than `hmget`, whose validator takes no arguments. -/
def Simple (c : Command) : Prop := c.validator ≠ .zipClosure

theorem Simple.closureArgs {c : Command} (h : c.Simple) : c.closureArgs = none := by
  cases c <;> first | rfl | exact absurd rfl h

end Command

/-- The values of some commands for their replies, up to the end of either. -/
def results : List Command → List Reply → Run (List Zval)
  | c :: cs, r :: rs => do
      let z ← c.result r
      let zs ← results cs rs
      return z :: zs
  | _, _ => .ok []

variable {δ : Type} (srv : Server δ)

/-- `FALSE` for a block without an array of replies. -/
def blockExpected (d : δ) (cs : List Command) : Run Zval :=
  match (srv.exec d (requests cs)).2 with
  | .array elems => do
      let vals ← results (sentOf cs) elems
      return .array (listTable vals)
  | _ => return .false

def Item.expected (d : δ) : Item → Run (List Zval)
  | .command c => match c.sent with
    | none => return []
    | some ws => do
        let z ← c.result (srv.execute d ws).2
        return [z]
  | .block cs => do
      let z ← blockExpected srv d cs
      return [z]

def expectedItems : δ → List Item → Run (List Zval)
  | _, [] => .ok []
  | d, i :: is => do
      let vals ← i.expected srv d
      let rest ← expectedItems (i.after srv d) is
      return vals ++ rest

def Round.expected (d : δ) : Round → Run Zval
  | .direct c => match c.sent with
    | none => return .false
    | some ws => c.result (srv.execute d ws).2
  | .pipeline is => do
      let vals ← expectedItems srv d is
      return .array (listTable vals)
  | .transaction cs => blockExpected srv d cs

def Round.after (d : δ) : Round → δ
  | .direct c => (Item.command c).after srv d
  | .pipeline is => afterItems srv d is
  | .transaction cs => (Item.block cs).after srv d

/-- Only the validator of confirmations keeps its value to itself. -/
theorem Validator.apply_keeps {fn : Validator} (h : fn ≠ .skip) (z : Zval)
    (z_args : Option (List Zval)) {α : Type} (f g : Zval → Run α) :
    (fn.apply z z_args >>= fun t => if t.1 = 0 then f t.2 else g t.2) =
      fn.apply z z_args >>= fun t => f t.2 := by
  cases hz : fn.apply z z_args with
  | ok t =>
      have hzero : t.1 = 0 := Validator.apply_zero h hz
      simp [hzero]
  | fault e => rfl
  | blocked => rfl

theorem replay_command {c : Command} (h : c.Simple) (r : Reply) :
    (Entry.reply c.validator).replay r.value = c.result r >>= fun z => .ok [z] := by
  have hkeep := Validator.apply_keeps c.validator_ne_skip r.value none
    (fun z => (Outcome.ok [z] : Run (List Zval))) fun _ => .ok []
  simp only [Entry.replay, Command.result, h.closureArgs, bind_assoc, Outcome.pure_eq,
    Outcome.ok_bind]
  rw [← hkeep]
  refine congrArg _ (funext fun t => ?_)
  split_ifs <;> rfl

theorem validated_eq_results {cs : List Command} (h : ∀ c ∈ cs, c.Simple) (rs : List Reply) :
    validated (cs.map Command.validator) (rs.map Reply.value) = results cs rs := by
  induction cs generalizing rs with
  | nil => simp [validated, results]
  | cons c cs ih =>
      cases rs with
      | nil => simp [validated, results]
      | cons r rs =>
          have hc := h c (by simp)
          have hkeep := Validator.apply_keeps c.validator_ne_skip r.value none
            (fun z => results cs rs >>= fun vals => Outcome.ok (z :: vals))
            fun _ => results cs rs
          simp only [List.map_cons, validated, results, ih fun c hc => h c (by simp [hc]),
            Command.result, hc.closureArgs, bind_assoc, Outcome.pure_eq, Outcome.ok_bind]
          rw [← hkeep]
          refine congrArg _ (funext fun t => ?_)
          split_ifs
          · rfl
          · exact bind_pure _

/-- Confirmations contribute nothing, whatever they are. -/
theorem replay_skips (cs : List Command) (zs : List Zval) : replay (skips cs) zs = .ok [] := by
  unfold skips
  induction sentOf cs generalizing zs with
  | nil => simp [replay]
  | cons c cs ih =>
      cases zs with
      | nil => simp [replay]
      | cons z zs =>
          simp only [List.map_cons, replay, ih]
          rfl

theorem replay_block (fns : List Validator) (hfns : fns ≠ []) (elems : List Reply) :
    (Entry.block fns).replay (Reply.array elems).value =
      validated fns (elems.map Reply.value) >>= fun vals => .ok [.array (listTable vals)] := by
  cases fns with
  | nil => exact absurd rfl hfns
  | cons fn fns =>
      rw [Reply.value_array]
      simp only [Entry.replay, Zval.arrval, Outcome.ok_bind, listTable_values, Outcome.pure_eq]

theorem replay_item_block (d : δ) (cs : List Command) :
    replay (Item.block cs).entries (((Item.block cs).replies srv d).map Reply.value) =
      (Entry.block (validators cs)).replay (srv.exec d (requests cs)).2.value := by
  have hlen : (skips cs).length = ((confirmations cs).map Reply.value).length := by
    simp [skips, confirmations]
  have hskip : (Entry.reply .skip).replay (Reply.status (ascii "OK")).value = .ok [] := rfl
  have hpure : ∀ x : Run (List Zval), (x >>= fun vals => .ok vals) = x := bind_pure
  simp only [Item.entries, Item.replies, List.map_append, List.map_cons, List.map_nil,
    List.cons_append, replay, hskip, replay_append hlen, replay_skips, Outcome.ok_bind,
    Outcome.pure_eq, List.nil_append, List.append_nil, hpure]

/-- The items whose entries contribute what they should: none of their commands
is an `hmget`, and a block has some command, and an array of replies. -/
def Item.Delivers (d : δ) : Item → Prop
  | .command c => c.Simple
  | .block cs => (∀ c ∈ cs, c.Simple) ∧ sentOf cs ≠ [] ∧
      ∃ elems, (srv.exec d (requests cs)).2 = .array elems

variable {srv}

theorem Item.replay_eq {d : δ} {i : Item} (h : i.Delivers srv d) :
    replay i.entries ((i.replies srv d).map Reply.value) = i.expected srv d := by
  cases i with
  | command c =>
      simp only [entries, replies, expected]
      cases hc : c.sent with
      | none =>
          rw [sentOf_cons_none hc]
          rfl
      | some ws =>
          have hsent : sentOf [c] = [c] := sentOf_cons_some hc
          simp only [hsent, List.map_cons, List.map_nil, replay, replay_command h, bind_assoc,
            Outcome.ok_bind, Outcome.pure_eq, List.append_nil]
  | block cs =>
      obtain ⟨hsimple, hne, elems, hreply⟩ := h
      have hfns : validators cs ≠ [] := fun h0 => hne (List.map_eq_nil_iff.mp h0)
      have hsent : ∀ c ∈ sentOf cs, c.Simple := fun c hc => hsimple c (List.mem_of_mem_filter hc)
      rw [replay_item_block, hreply, replay_block _ hfns, validators, validated_eq_results hsent]
      simp only [expected, blockExpected, hreply, bind_assoc, Outcome.ok_bind, Outcome.pure_eq]

/-- So does a list of items, each with the database that it finds. -/
def DeliverAll (srv : Server δ) : δ → List Item → Prop
  | _, [] => True
  | d, i :: is => i.Delivers srv d ∧ DeliverAll srv (i.after srv d) is

theorem replay_items {d : δ} {is : List Item} (h : DeliverAll srv d is) :
    replay (is.flatMap Item.entries) ((repliesOf srv d is).map Reply.value) =
      expectedItems srv d is := by
  induction is generalizing d with
  | nil => rfl
  | cons i is ih =>
      have hlen : i.entries.length = ((i.replies srv d).map Reply.value).length := by
        rw [List.length_map]
        exact (i.covers srv d).length_eq
      simp only [List.flatMap_cons, repliesOf, List.map_append, replay_append hlen,
        Item.replay_eq h.1, ih h.2, expectedItems]

end PhpHiredis
