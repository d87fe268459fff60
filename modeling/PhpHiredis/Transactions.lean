import PhpHiredis.Expected
import PhpHiredis.TypeSafety

/-!
# Transactions and their confirmations

`exec` outside a pipeline skips one reply for every node of the main queue.
That is the number of its own confirmations exactly when the main queue was
empty at `multi`; and direct commands and earlier transactions leave nodes
there, until the next pipeline empties it.
-/
namespace PhpHiredis

open Library

theorem commands_fit {σ : Type} {peer : Peer σ} {calls : List Call} {s s' : RedisSock σ}
    {rets : List Returned} (h : runCalls peer calls s = .ok (rets, s')) {c : Command}
    (hc : .command c ∈ calls) : c.Fits := by
  induction calls generalizing s rets with
  | nil => cases hc
  | cons call calls ih =>
      obtain ⟨⟨ret, s₁⟩, hcall, h₁⟩ := Outcome.bind_eq_ok.mp h
      obtain ⟨⟨rets', s₂⟩, hcalls, h₂⟩ := Outcome.bind_eq_ok.mp h₁
      cases h₂
      rcases List.mem_cons.mp hc with rfl | hc
      · exact Command.fits_of_returns ⟨_, hcall⟩
      · exact ih hcalls hc

def Item.commands : Item → List Command
  | .command c => [c]
  | .block cs => cs

def Round.commands : Round → List Command
  | .direct c => [c]
  | .pipeline is => is.flatMap Item.commands
  | .transaction cs => cs

theorem Round.command_mem_calls {r : Round} {c : Command} (h : c ∈ r.commands) :
    .command c ∈ r.calls := by
  have hitem : ∀ {i : Item}, c ∈ i.commands → .command c ∈ i.calls := by
    intro i hi
    cases i with
    | command c' =>
        obtain rfl := List.mem_singleton.mp hi
        exact List.mem_singleton_self _
    | block cs =>
        have hcs : c ∈ cs := hi
        simp [Item.calls, hcs]
  cases r with
  | direct c' =>
      obtain rfl := List.mem_singleton.mp h
      exact List.mem_singleton_self _
  | pipeline is =>
      obtain ⟨i, hi, hc⟩ := List.mem_flatMap.mp h
      simp only [calls, List.mem_append, List.mem_cons, List.mem_flatMap]
      exact Or.inl (Or.inr ⟨i, hi, hitem hc⟩)
  | transaction cs =>
      have hcs : c ∈ cs := h
      simp [calls, hcs]

theorem Round.commands_fit {σ : Type} {peer : Peer σ} {s s' : RedisSock σ} {r : Round}
    {ret : Returned} (h : r.run peer s = .ok (ret, s')) : ∀ c ∈ r.commands, c.Fits := by
  obtain ⟨⟨rets, s₁⟩, hcalls, -⟩ := Outcome.bind_eq_ok.mp h
  exact fun c hc => PhpHiredis.commands_fit hcalls (command_mem_calls hc)

theorem Item.fits_of_commands {i : Item} (h : ∀ c ∈ i.commands, c.Fits) : i.Fits := by
  cases i with
  | command c => exact h c (List.mem_singleton_self c)
  | block cs => exact h

theorem Round.items_fit {σ : Type} {peer : Peer σ} {s s' : RedisSock σ} {is : List Item}
    {ret : Returned} (h : (Round.pipeline is).run peer s = .ok (ret, s')) : ∀ i ∈ is, i.Fits :=
  fun i hi => Item.fits_of_commands fun c hc =>
    Round.commands_fit h c (List.mem_flatMap.mpr ⟨i, hi, hc⟩)

variable {δ : Type} {srv : Server δ} {s s' : RedisSock (Desk δ)}

theorem Rest.round {d : δ} {es : List Entry} (h : Rest srv s d es) {r : Round} {ret : Returned}
    (hrun : r.run srv.peer s = .ok (ret, s')) :
    ∃ d' es', Rest srv s' d' es' := by
  have hfit := Round.commands_fit hrun
  have hrun' := hrun
  obtain ⟨⟨rets, s₁⟩, hcalls, h₁⟩ := Outcome.bind_eq_ok.mp hrun
  cases h₁
  cases r with
  | direct c =>
      have hfit := hfit c (List.mem_singleton_self c)
      obtain ⟨⟨ret, s₂⟩, hcall, h₂⟩ := Outcome.bind_eq_ok.mp hcalls
      cases h₂
      cases hc : c.sent with
      | none =>
          rw [Call.run, Shows.command_unsent srv.peer s hfit hc] at hcall
          cases hcall
          exact ⟨d, es, h⟩
      | some ws =>
          obtain ⟨s₃, h₃, hdirect⟩ := h.direct hfit hc
          rw [Call.run, hdirect] at hcall
          obtain ⟨t, -, ht⟩ := Outcome.bind_eq_ok.mp hcall
          cases ht
          exact ⟨_, _, h₃⟩
  | pipeline is =>
      obtain ⟨rets', s₂, h₂, hpipe⟩ := h.pipeline (Round.items_fit hrun')
      rw [hpipe] at hcalls
      obtain ⟨vals, -, ht⟩ := Outcome.bind_eq_ok.mp hcalls
      cases ht
      exact ⟨_, _, h₂⟩
  | transaction cs =>
      obtain ⟨rets', s₂, hopen, h₂⟩ := h.transaction (show ∀ c ∈ cs, c.Fits from hfit)
      have hlen : (skips cs).length = (confirmations cs).length := by simp [skips, confirmations]
      rw [Round.calls, runCalls_append, hopen] at hcalls
      simp only [Outcome.ok_bind, runCalls, bind_assoc, Outcome.pure_eq] at hcalls
      by_cases hes : es = []
      · subst hes
        obtain ⟨s₃, h₃, hexec⟩ := h₂.exec_direct rfl (by simpa using hlen.symm)
        rw [hexec] at hcalls
        simp only [bind_assoc, Outcome.ok_bind] at hcalls
        obtain ⟨elems, -, h₄⟩ := Outcome.bind_eq_ok.mp hcalls
        obtain ⟨vals, -, ht⟩ := Outcome.bind_eq_ok.mp h₄
        cases ht
        simp only [srv.answer_exec] at h₃
        exact ⟨_, _, [], h₃⟩
      · have hpos := List.length_pos_of_ne_nil hes
        rw [h₂.exec_blocked rfl (by simp only [List.length_append]; omega)] at hcalls
        cases hcalls

theorem Rest.rounds {d : δ} {es : List Entry} (h : Rest srv s d es) {rs : List Round}
    {rets : List Returned} (hrun : runRounds srv.peer rs s = .ok (rets, s')) : ∃ d' es',
    Rest srv s' d' es' := by
  induction rs generalizing s d es rets with
  | nil =>
      cases hrun
      exact ⟨d, es, h⟩
  | cons r rs ih =>
      obtain ⟨⟨ret, s₁⟩, hround, h₁⟩ := Outcome.bind_eq_ok.mp hrun
      obtain ⟨⟨rets', s₂⟩, hrounds, h₂⟩ := Outcome.bind_eq_ok.mp h₁
      cases h₂
      obtain ⟨d₁, es₁, hrest⟩ := h.round hround
      exact ih hrest hrounds

/-- Nothing is unread, and nothing unwritten. -/
def NothingLeft (s : RedisSock (Desk δ)) : Prop :=
  s.ctx.reader.unread = [] ∧ received s.ctx.sock.inbox = [] ∧ s.ctx.obuf = []

theorem Shows.nothingLeft {v : Picture δ} (h : Shows srv s v) (hv : v.owed = []) :
    NothingLeft s := by
  have ht := h.talking
  rw [hv] at ht
  exact ht.drained

/-- `s` is the connection after the commands `cs` of a transaction, and `elems`
are the elements of the reply to `EXEC`. The server owes a confirmation for
each command; `exec` reads these and the reply to `EXEC`, and no more, and
returns an array with the value of each command for its own element. -/
def ExecContract (srv : Server δ) (cs : List Command) (elems : List Reply)
    (s : RedisSock (Desk δ)) : Prop :=
  s.ctx.stream srv.peer = Reply.encodeAll (confirmations cs) ∧
    elems.length = (sentOf cs).length ∧
    ∃ vals s', results (sentOf cs) elems = .ok vals ∧ vals.length = (sentOf cs).length ∧
      Call.exec.run srv.peer s = .ok (.value (.array (listTable vals)), s') ∧ NothingLeft s'

theorem results_length {cs : List Command} {rs : List Reply} (hlen : rs.length = cs.length)
    {vals : List Zval} (h : results cs rs = .ok vals) : vals.length = cs.length := by
  induction cs generalizing rs vals with
  | nil =>
      cases h
      rfl
  | cons c cs ih =>
      cases rs with
      | nil => cases hlen
      | cons r rs =>
          obtain ⟨z, -, hrest⟩ := Outcome.bind_eq_ok.mp h
          obtain ⟨vals', hvals, heq⟩ := Outcome.bind_eq_ok.mp hrest
          cases heq
          exact congrArg Nat.succ (ih (Nat.succ.inj hlen) hvals)

/-- A block returns exactly when each of its validators handles the element at its
own position. -/
theorem validated_returns_iff (fns : List Validator) (rs : List Reply) :
    (validated fns (rs.map Reply.value)).Returns ↔
      ∀ p ∈ fns.zip rs, p.1.Handles p.2.value 0 := by
  induction fns generalizing rs with
  | nil => simp [validated]
  | cons fn fns ih =>
      cases rs with
      | nil => simp [validated]
      | cons r rs =>
          rw [List.zip_cons_cons, List.forall_mem_cons, ← ih, ← fn.returns_iff r.value_ne_undef]
          simp only [List.map_cons, validated]
          cases fn.apply r.value none with
          | ok t => simpa using Outcome.returns_map_iff
          | fault e => simp
          | blocked => simp

theorem Rest.exec_contract {d : δ} {es : List Entry} (h : Rest srv s d es) {cs : List Command}
    (hcs : ∀ c ∈ cs, c.Simple) {rets : List Returned}
    (hopen : runCalls srv.peer (.multi :: cs.map .command) s = .ok (rets, s'))
    {elems : List Reply} (hexec : (srv.exec d (requests cs)).2 = .array elems) :
    ExecContract srv cs elems s' ↔
      es = [] ∧ ∀ p ∈ (validators cs).zip elems, p.1.Handles p.2.value 0 := by
  have hfit : ∀ c ∈ cs, c.Fits := fun c hc =>
    commands_fit hopen (List.mem_cons_of_mem _ (List.mem_map_of_mem hc))
  obtain ⟨rets', s₂, hopen', h₂⟩ := h.transaction hfit
  rw [hopen'] at hopen
  cases hopen
  have hlen : (skips cs).length = (confirmations cs).length := by simp [skips, confirmations]
  have hsent : ∀ c ∈ sentOf cs, c.Simple := fun c hc => hcs c (List.mem_of_mem_filter hc)
  rw [← validated_returns_iff, validators, validated_eq_results hsent]
  constructor
  · rintro ⟨-, -, vals, s₃, hvals, -, hrun, -⟩
    refine ⟨?_, vals, hvals⟩
    by_contra hes
    have hpos := List.length_pos_of_ne_nil hes
    rw [h₂.exec_blocked rfl (by simp only [List.length_append]; omega)] at hrun
    cases hrun
  · rintro ⟨rfl, vals, hvals⟩
    obtain ⟨s₃, h₃, hrun⟩ := h₂.exec_direct rfl (by simpa using hlen.symm)
    have helems : elems.length = (sentOf cs).length := by
      rw [srv.exec_length d _ elems hexec, length_requests]
    refine ⟨h₂.talking.stream, helems, vals, s₃, hvals, results_length helems hvals, ?_,
      h₃.nothingLeft rfl⟩
    rw [hrun]
    simp only [srv.answer_exec, hexec, Reply.value_array, Zval.arrval, Outcome.ok_bind,
      listTable_values]
    rw [validators, validated_eq_results hsent, hvals]
    rfl

/-- The contract of `exec` holds for a transaction exactly when the main queue was
empty at `multi` and its validators handle the elements of the reply to `EXEC`,
whatever completed rounds came before. -/
theorem exec_contract_iff {d₀ : δ} {fd : ℕ} {writes : List WriteResult} (hw : WritesFine writes)
    {rounds : List Round} {rets : List Returned}
    (hrun : runRounds srv.peer rounds (.connected (connection d₀ fd writes)) = .ok (rets, s))
    {cs : List Command} (hcs : ∀ c ∈ cs, c.Simple) {rets' : List Returned}
    (hopen : runCalls srv.peer (.multi :: cs.map .command) s = .ok (rets', s'))
    {elems : List Reply}
    (hexec : (srv.exec (s.ctx.settled srv.peer).session.db (requests cs)).2 = .array elems) :
    ExecContract srv cs elems s' ↔
      s.queue_head = none ∧ ∀ p ∈ (validators cs).zip elems, p.1.Handles p.2.value 0 := by
  obtain ⟨d, es, h⟩ := (rest_connected srv d₀ fd hw).rounds hrun
  rw [h.db] at hexec
  rw [h.head_eq_none]
  exact h.exec_contract hcs hopen hexec

def okServer : Server Unit := .constant (.status (ascii "OK")) (by decide : findCRLF _ = none)

def okConnection : RedisSock (Desk Unit) := .connected (connection () 3 [])

theorem rest_okConnection : Rest okServer okConnection () [] :=
  rest_connected okServer () 3 fun _ hw => (List.not_mem_nil hw).elim

/-- The first transaction of a connection, with two commands. -/
theorem exec_contract_iff_first :
    ∃ rets s', runCalls okServer.peer [.multi, .command (.set [1] [2]), .command .ping]
        okConnection = .ok (rets, s') ∧
      ExecContract okServer [.set [1] [2], .ping] [.status (ascii "OK"), .status (ascii "OK")]
        s' := by
  have hfit : ∀ c ∈ [Command.set [1] [2], .ping], c.Fits := by simp [Command.Fits]
  have hsimple : ∀ c ∈ [Command.set [1] [2], .ping], c.Simple := by
    simp [Command.Simple, Command.validator]
  obtain ⟨rets, s', hopen, -⟩ := rest_okConnection.transaction hfit
  have hiff := @exec_contract_iff Unit okServer okConnection s' () 3 [] (by simp [WritesFine]) []
    [] rfl [.set [1] [2], .ping] hsimple rets hopen
    [.status (ascii "OK"), .status (ascii "OK")] rfl
  refine ⟨rets, s', hopen, hiff.mpr ⟨rfl, ?_⟩⟩
  simp [validators, sentOf, Command.sent, Command.validator, Validator.Handles]

/-- After one direct command the next transaction waits for ever. -/
theorem not_exec_contract_after_get :
    ∃ rets s rets' s', runRounds okServer.peer [.direct (.get [107])] okConnection = .ok (rets, s) ∧
      runCalls okServer.peer [.multi, .command .ping] s = .ok (rets', s') ∧
      Call.exec.run okServer.peer s' = .blocked ∧
      ¬ExecContract okServer [.ping] [.status (ascii "OK")] s' := by
  obtain ⟨s, hrest, hget⟩ :=
    rest_okConnection.direct (show (Command.get [107]).Fits from trivial) rfl
  have hfit : ∀ c ∈ [Command.ping], c.Fits := by simp [Command.Fits]
  obtain ⟨rets', s', hopen, h'⟩ := hrest.transaction hfit
  have hblocked := h'.exec_blocked rfl (by decide)
  refine ⟨[.value .false], s, rets', s', ?_, hopen, hblocked, ?_⟩
  · simp only [runRounds, Round.run, Round.calls, runCalls, Call.run, hget]
    rfl
  · rintro ⟨-, -, vals, s₃, -, -, hrun, -⟩
    rw [hblocked] at hrun
    cases hrun

end PhpHiredis
