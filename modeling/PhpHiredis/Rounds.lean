import PhpHiredis.Calls

/-!
# Rounds

A user of a connection works in rounds: one direct command, one pipeline, one
transaction. This module says what a round leaves on the queues and on the
wire, and what it should return: the validator of each command applied to the
reply to that very command.
-/
namespace PhpHiredis

open Library Reader

inductive Item where
  | command (c : Command)
  | block (cs : List Command)

inductive Round where
  | direct (c : Command)
  | pipeline (items : List Item)
  | transaction (cs : List Command)

def Item.calls : Item → List Call
  | .command c => [.command c]
  | .block cs => .multi :: cs.map .command ++ [.exec]

def Round.calls : Round → List Call
  | .direct c => [.command c]
  | .pipeline items => .pipeline :: items.flatMap Item.calls ++ [.send]
  | .transaction cs => .multi :: cs.map .command ++ [.exec]

/-- The result of a round is that of its last call. -/
def Round.run {σ : Type} (peer : Peer σ) (s : RedisSock σ) (r : Round) :
    Run (Returned × RedisSock σ) := do
  let (rets, s) ← runCalls peer r.calls s
  return (rets.getLast?.getD .self, s)

def runRounds {σ : Type} (peer : Peer σ) :
    List Round → RedisSock σ → Run (List Returned × RedisSock σ)
  | [], s => .ok ([], s)
  | r :: rs, s => do
      let (ret, s) ← r.run peer s
      let (rets, s) ← runRounds peer rs s
      return (ret :: rets, s)

/-- The commands of a list that make a request. -/
def sentOf (cs : List Command) : List Command := cs.filter fun c => c.sent.isSome

def requests (cs : List Command) : List Request := cs.filterMap Command.sent

def validators (cs : List Command) : List Validator := (sentOf cs).map Command.validator

section
variable {c : Command} {cs : List Command}

theorem sentOf_cons_none (h : c.sent = none) : sentOf (c :: cs) = sentOf cs := by
  rw [sentOf, List.filter_cons, h]
  rfl

theorem sentOf_cons_some {ws : Request} (h : c.sent = some ws) :
    sentOf (c :: cs) = c :: sentOf cs := by
  rw [sentOf, List.filter_cons, h]
  rfl

theorem sentOf_cons (c : Command) (cs : List Command) :
    sentOf (c :: cs) = sentOf [c] ++ sentOf cs := by
  rw [sentOf, sentOf, sentOf, ← List.filter_append]
  rfl

theorem validators_cons (c : Command) (cs : List Command) :
    validators (c :: cs) = validators [c] ++ validators cs := by
  rw [validators, validators, validators, sentOf_cons, List.map_append]

theorem length_requests (cs : List Command) : (requests cs).length = (sentOf cs).length := by
  induction cs with
  | nil => rfl
  | cons c cs ih =>
      cases h : c.sent with
      | none => rw [sentOf_cons_none h, requests, List.filterMap_cons_none h, ← requests, ih]
      | some ws =>
          rw [sentOf_cons_some h, requests, List.filterMap_cons_some h, List.length_cons,
            List.length_cons, ← requests, ih]

end

theorem Command.sent_keyword {c : Command} {ws : Request} (h : c.sent = some ws) :
    ws.head? = some c.keyword := by
  have htokens : ∀ (keyword : Bytes) (words : List Bytes), keyword ≠ [] →
      (tokens (keyword :: words)).head? = some keyword := by
    intro keyword words hk
    cases words with
    | nil => rfl
    | cons word words => simp [tokens, hk]
  have hformat : ∀ c : Command, c.keyword ≠ [] ∧ c.keyword ≠ ascii "MULTI" := by
    intro c
    cases c <;> (simp only [keyword, incrKeyword]; try split_ifs) <;> decide
  cases c with
  | hmget params | delete params | getmultiple params =>
      obtain ⟨strs, -, rfl⟩ := Option.map_eq_some_iff.mp h
      rfl
  | _ =>
      obtain rfl := Option.some.inj h
      exact htokens _ _ (hformat _).1

theorem Command.keyword_ne (c : Command) :
    c.keyword ≠ ascii "MULTI" ∧ c.keyword ≠ ascii "EXEC" := by
  cases c <;> (simp only [keyword, incrKeyword]; try split_ifs) <;> decide

theorem Command.sent_ne {c : Command} {ws : Request} (h : c.sent = some ws) :
    ws ≠ multiRequest ∧ ws ≠ execRequest := by
  have hk := sent_keyword h
  constructor
  · rintro rfl
    exact c.keyword_ne.1 (Option.some.inj hk).symm
  · rintro rfl
    exact c.keyword_ne.2 (Option.some.inj hk).symm

variable {δ : Type} (srv : Server δ)

theorem Server.answer_command (d : δ) {c : Command} {ws : Request} (h : c.sent = some ws) :
    srv.answer ⟨d, none⟩ ws = (⟨(srv.execute d ws).1, none⟩, (srv.execute d ws).2) := by
  obtain ⟨hm, he⟩ := Command.sent_ne h
  simp only [answer, hm, he, if_false]

theorem Server.answer_queued (d : δ) (wss : List Request) {c : Command} {ws : Request}
    (h : c.sent = some ws) :
    srv.answer ⟨d, some wss⟩ ws = (⟨d, some (wss ++ [ws])⟩, .status (ascii "QUEUED")) := by
  obtain ⟨hm, he⟩ := Command.sent_ne h
  simp only [answer, hm, he, if_false]

theorem Server.answer_multi (d : δ) :
    srv.answer ⟨d, none⟩ multiRequest = (⟨d, some []⟩, .status (ascii "OK")) := by
  simp only [answer, if_true]

theorem Server.answer_exec (d : δ) (wss : List Request) :
    srv.answer ⟨d, some wss⟩ execRequest = (⟨(srv.exec d wss).1, none⟩, (srv.exec d wss).2) := by
  simp only [answer, if_true]

def confirmations (cs : List Command) : List Reply :=
  (sentOf cs).map fun _ => .status (ascii "QUEUED")

def skips (cs : List Command) : List Entry := (sentOf cs).map fun _ => .reply .skip

theorem skips_cons (c : Command) (cs : List Command) : skips (c :: cs) = skips [c] ++ skips cs := by
  rw [skips, skips, skips, sentOf_cons, List.map_append]

namespace Item

def entries : Item → List Entry
  | command c => (sentOf [c]).map fun c => .reply c.validator
  | block cs => .reply .skip :: skips cs ++ [.block (validators cs)]

def after (d : δ) : Item → δ
  | command c => match c.sent with
    | none => d
    | some ws => (srv.execute d ws).1
  | block cs => (srv.exec d (requests cs)).1

def replies (d : δ) : Item → List Reply
  | command c => match c.sent with
    | none => []
    | some ws => [(srv.execute d ws).2]
  | block cs =>
      .status (ascii "OK") :: confirmations cs ++ [(srv.exec d (requests cs)).2]

def Fits : Item → Prop
  | command c => c.Fits
  | block cs => ∀ c ∈ cs, c.Fits

end Item

def afterItems : δ → List Item → δ
  | d, [] => d
  | d, i :: is => afterItems (i.after srv d) is

def repliesOf : δ → List Item → List Reply
  | _, [] => []
  | d, i :: is => i.replies srv d ++ repliesOf (i.after srv d) is

variable {srv} {s : RedisSock (Desk δ)}

theorem Shows.commands_queued {v : Picture δ} (h : Shows srv s v)
    (hq : ¬(v.pipeline = 0 ∧ v.multi = 0)) {cs : List Command} (hfit : ∀ c ∈ cs, c.Fits) :
    ∃ rets s', runCalls srv.peer (cs.map .command) s = .ok (rets, s') ∧
      Shows srv s' (cs.foldl (fun v c => v.queue srv c) v) := by
  induction cs generalizing s v with
  | nil => exact ⟨[], s, rfl, h⟩
  | cons c cs ih =>
      obtain ⟨s₁, hrun, h₁, -⟩ := h.command_queued hq (hfit c (by simp))
      have hq₁ : ¬((v.queue srv c).pipeline = 0 ∧ (v.queue srv c).multi = 0) := by
        unfold Picture.queue
        split <;> exact hq
      obtain ⟨rets, s₂, hruns, h₂⟩ := ih h₁ hq₁ fun c hc => hfit c (by simp [hc])
      refine ⟨(if c.sent = none then .value .false else .self) :: rets, s₂, ?_, h₂⟩
      simp only [List.map_cons, runCalls, Call.run, hrun, hruns, Outcome.ok_bind, Outcome.pure_eq]

theorem queue_commands (v : Picture δ) {d : δ} {wss : List Request}
    (hm : v.multi ≠ 0) (hs : v.session = ⟨d, some wss⟩) (cs : List Command) :
    cs.foldl (fun v c => v.queue srv c) v = { v with
      entries := v.entries ++ skips cs
      waiting := v.waiting ++ validators cs
      session := ⟨d, some (wss ++ requests cs)⟩
      owed := v.owed ++ confirmations cs } := by
  induction cs generalizing v wss with
  | nil => simp [skips, validators, sentOf, requests, confirmations, ← hs]
  | cons c cs ih =>
      cases hc : c.sent with
      | none =>
          have hv : v.queue srv c = v := by rw [Picture.queue, hc]
          rw [List.foldl_cons, hv, ih v hm hs]
          simp only [skips, validators, confirmations, sentOf_cons_none hc, requests,
            List.filterMap_cons_none hc]
      | some ws =>
          have hv : v.queue srv c = { v with
              entries := v.entries ++ [.reply .skip]
              waiting := v.waiting ++ [c.validator]
              session := ⟨d, some (wss ++ [ws])⟩
              owed := v.owed ++ [.status (ascii "QUEUED")] } := by
            simp only [Picture.queue, hc, Picture.enqueue, Picture.request, hm, if_false, hs,
              srv.answer_queued d wss hc]
          have hcs := @ih (v.queue srv c) (wss ++ [ws]) (by rw [hv]; exact hm) (by rw [hv])
          rw [List.foldl_cons, hcs, hv]
          simp only [skips, validators, confirmations, sentOf_cons_some hc, requests,
            List.filterMap_cons_some hc, List.map_cons, List.append_assoc, List.singleton_append]

/-- A connection between two rounds: the main queue may hold entries that no
one will ever replay. -/
def Rest (srv : Server δ) (s : RedisSock (Desk δ)) (d : δ) (es : List Entry) : Prop :=
  ∃ fns, Shows srv s ⟨.direct, 0, 0, es, fns, ⟨d, none⟩, []⟩

theorem rest_connected (srv : Server δ) (d : δ) (fd : ℕ) {writes : List WriteResult}
    (hw : WritesFine writes) : Rest srv (.connected (connection d fd writes)) d [] :=
  ⟨[], rfl, rfl, rfl, holds_connected _, talking_connection srv d fd hw, rfl⟩

/-- The database of the server, once it has seen everything, is the one in the picture. -/
theorem Rest.db {d : δ} {es : List Entry} (h : Rest srv s d es) :
    (s.ctx.settled srv.peer).session.db = d := by
  obtain ⟨fns, h⟩ := h
  exact congrArg (fun desk : Desk δ => desk.session.db) h.talking.settled

theorem Rest.head_eq_none {d : δ} {es : List Entry} (h : Rest srv s d es) :
    s.queue_head = none ↔ es = [] := by
  obtain ⟨fns, h⟩ := h
  exact h.holds.head_eq_none

/-- A pipeline between two items. -/
def Piped (srv : Server δ) (s : RedisSock (Desk δ)) (d : δ) (es : List Entry)
    (R : List Reply) : Prop :=
  ∃ fns, Shows srv s ⟨.direct, 1, 0, es, fns, ⟨d, none⟩, R⟩

theorem Piped.item {d : δ} {es : List Entry} {R : List Reply} (h : Piped srv s d es R) {i : Item}
    (hfit : i.Fits) :
    ∃ rets s', runCalls srv.peer i.calls s = .ok (rets, s') ∧
      Piped srv s' (i.after srv d) (es ++ i.entries) (R ++ i.replies srv d) := by
  obtain ⟨fns, h⟩ := h
  cases i with
  | command c =>
      obtain ⟨s', hrun, h', -⟩ := h.command_queued (by simp) hfit
      refine ⟨[if c.sent = none then .value .false else .self], s', ?_, ?_⟩
      · simp only [Item.calls, runCalls, Call.run, hrun, Outcome.ok_bind, Outcome.pure_eq]
      refine ⟨fns, ?_⟩
      unfold Picture.queue at h'
      simp only [Item.after, Item.entries, Item.replies]
      cases hc : c.sent with
      | none =>
          rw [sentOf_cons_none hc]
          simpa [hc, sentOf] using h'
      | some ws =>
          rw [sentOf_cons_some hc]
          simpa [hc, sentOf, Picture.enqueue, Picture.request, srv.answer_command d hc] using h'
  | block cs =>
      obtain ⟨s₁, hmulti, h₁, -⟩ := h.multi_pipelined rfl Nat.one_ne_zero
      obtain ⟨rets, s₂, hruns, h₂⟩ := h₁.commands_queued (by simp) hfit
      simp only [Picture.request, srv.answer_multi] at h₂
      rw [queue_commands _ (by exact Nat.one_ne_zero) rfl] at h₂
      obtain ⟨s₃, hexec, h₃, -⟩ := h₂.exec_pipelined Nat.one_ne_zero (by simp)
      refine ⟨.self :: rets ++ [.self], s₃, ?_, validators cs, ?_⟩
      · simp only [Item.calls, runCalls_append, runCalls, hmulti, hruns, hexec, Outcome.ok_bind,
          Outcome.pure_eq]
      · simpa [Picture.request, srv.answer_exec, Item.after, Item.entries, Item.replies] using h₃

theorem Piped.items {d : δ} {es : List Entry} {R : List Reply} (h : Piped srv s d es R)
    {is : List Item} (hfit : ∀ i ∈ is, i.Fits) :
    ∃ rets s', runCalls srv.peer (is.flatMap Item.calls) s = .ok (rets, s') ∧
      Piped srv s' (afterItems srv d is) (es ++ is.flatMap Item.entries)
        (R ++ repliesOf srv d is) := by
  induction is generalizing s d es R with
  | nil => exact ⟨[], s, rfl, by simpa [afterItems, repliesOf] using h⟩
  | cons i is ih =>
      obtain ⟨rets, s₁, hrun, h₁⟩ := h.item (hfit i (by simp))
      obtain ⟨rets', s₂, hruns, h₂⟩ := ih h₁ fun j hj => hfit j (by simp [hj])
      refine ⟨rets ++ rets', s₂, ?_, ?_⟩
      · simp only [List.flatMap_cons, runCalls_append, hrun, hruns, Outcome.ok_bind,
          Outcome.pure_eq]
      · simpa [afterItems, repliesOf] using h₂

theorem Server.exec_covers (srv : Server δ) (d : δ) (cs : List Command) :
    Entry.Covers (.block (validators cs)) (srv.exec d (requests cs)).2 := by
  unfold Entry.Covers
  split
  · rename_i fns elems hfns hreply
    cases hfns
    rw [srv.exec_length d _ elems hreply, length_requests, validators, List.length_map]
  · trivial

theorem Item.covers (srv : Server δ) (d : δ) (i : Item) :
    List.Forall₂ Entry.Covers i.entries (i.replies srv d) := by
  cases i with
  | command c =>
      simp only [entries, replies]
      cases hc : c.sent with
      | none =>
          rw [sentOf_cons_none hc]
          exact .nil
      | some ws =>
          rw [sentOf_cons_some hc]
          exact .cons trivial .nil
  | block cs =>
      refine .cons trivial (List.rel_append ?_ (.cons (srv.exec_covers d cs) .nil))
      unfold skips confirmations
      induction sentOf cs with
      | nil => exact .nil
      | cons c cs ih => exact .cons trivial ih

theorem covers_items (srv : Server δ) (d : δ) (is : List Item) :
    List.Forall₂ Entry.Covers (is.flatMap Item.entries) (repliesOf srv d is) := by
  induction is generalizing d with
  | nil => exact .nil
  | cons i is ih => exact List.rel_append (i.covers srv d) (ih _)

theorem Rest.direct {d : δ} {es : List Entry} (h : Rest srv s d es) {c : Command} (hfit : c.Fits)
    {ws : Request} (hc : c.sent = some ws) :
    ∃ s', Rest srv s' (srv.execute d ws).1 (es ++ [.reply c.validator]) ∧
      c.run srv.peer s = c.validator.apply (srv.execute d ws).2.value c.closureArgs >>= fun t =>
        .ok (.value t.2, s') := by
  obtain ⟨fns, h⟩ := h
  obtain ⟨s', h', hrun⟩ := h.command_direct ⟨rfl, rfl⟩ rfl hfit hc
  simp only [srv.answer_command d hc] at h' hrun
  exact ⟨s', ⟨fns, h'⟩, hrun⟩

theorem Rest.pipeline_open {d : δ} {es : List Entry} (h : Rest srv s d es) {is : List Item}
    (hfit : ∀ i ∈ is, i.Fits) :
    ∃ rets s', runCalls srv.peer (.pipeline :: is.flatMap Item.calls) s = .ok (rets, s') ∧
      Piped srv s' (afterItems srv d is) (is.flatMap Item.entries) (repliesOf srv d is) := by
  obtain ⟨fns, h⟩ := h
  obtain ⟨s₁, hpipe, h₁, -⟩ := h.pipeline_direct rfl rfl
  obtain ⟨rets, s', hitems, h'⟩ := Piped.items ⟨fns, h₁⟩ hfit
  refine ⟨.self :: rets, s', ?_, h'⟩
  simp only [runCalls, hpipe, hitems, Outcome.ok_bind, Outcome.pure_eq]

theorem Piped.send {d : δ} {es : List Entry} {R : List Reply} (h : Piped srv s d es R)
    (hcov : List.Forall₂ Entry.Covers es R) :
    ∃ s', Rest srv s' d [] ∧ Call.send.run srv.peer s =
      replay es (R.map Reply.value) >>= fun vals => .ok (.value (.array (listTable vals)), s') := by
  obtain ⟨fns, h⟩ := h
  obtain ⟨s', h', hsend⟩ := h.send_pipelined rfl Nat.one_ne_zero hcov
  exact ⟨s', ⟨fns, h'⟩, hsend⟩

theorem Rest.pipeline {d : δ} {es : List Entry} (h : Rest srv s d es) {is : List Item}
    (hfit : ∀ i ∈ is, i.Fits) :
    ∃ rets s', Rest srv s' (afterItems srv d is) [] ∧
      runCalls srv.peer (Round.pipeline is).calls s =
        replay (is.flatMap Item.entries) ((repliesOf srv d is).map Reply.value) >>= fun vals =>
          .ok (rets ++ [.value (.array (listTable vals))], s') := by
  obtain ⟨rets, s₁, hopen, h₁⟩ := h.pipeline_open hfit
  obtain ⟨s', h', hsend⟩ := h₁.send (covers_items srv d is)
  refine ⟨rets, s', h', ?_⟩
  rw [Round.calls, runCalls_append, hopen]
  simp only [runCalls, Outcome.ok_bind, Outcome.pure_eq, hsend, bind_assoc]

theorem Rest.transaction {d : δ} {es : List Entry} (h : Rest srv s d es) {cs : List Command}
    (hfit : ∀ c ∈ cs, c.Fits) :
    ∃ rets s', runCalls srv.peer (.multi :: cs.map .command) s = .ok (rets, s') ∧
      Shows srv s' ⟨.transaction, 0, 1, es ++ skips cs, validators cs, ⟨d, some (requests cs)⟩,
        confirmations cs⟩ := by
  obtain ⟨fns, h⟩ := h
  obtain ⟨s₁, hmulti, h₁⟩ := h.multi_direct rfl rfl rfl rfl
  obtain ⟨rets, s', hruns, h'⟩ := h₁.commands_queued (by simp) hfit
  rw [queue_commands _ (by exact Nat.one_ne_zero) rfl] at h'
  refine ⟨.self :: rets, s', ?_, h'⟩
  simp only [runCalls, hmulti, hruns, Outcome.ok_bind, Outcome.pure_eq]

end PhpHiredis
