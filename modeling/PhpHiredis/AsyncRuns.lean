import PhpHiredis.Async
import PhpHiredis.DefaultObjects

/-!
# Runs of the asynchronous interface

Every handler, and every callback inside it, changes a context by the moves below and
in no other way. What holds in every run, with any events, any callbacks and any object
functions, is kept by each move: callbacks are run once each and in the order of their
commands, commands are sent in their order, and a context ends once.
-/
namespace PhpHiredis.Async

open Library Reader Objects Relation

variable {κ ω μ υ : Type}

/-- One change of a context. `quits` says that somebody asks for the end of the connection. -/
inductive Move (quits : Prop) : RedisAsyncContext κ ω μ υ → RedisAsyncContext κ ω μ υ → Prop
  | command {ac : RedisAsyncContext κ ω μ υ} (cb : Option κ) (cmd : Bytes) :
      ac.disconnecting = false →
      Move quits ac { ac with
        obuf := ac.obuf ++ cmd
        replies := ac.replies ++ [cb]
        hooks := ac.hooks ++ [.addWrite]
        accepted := ac.accepted ++ [(cb, cmd)] }
  | disconnect {ac : RedisAsyncContext κ ω μ υ} : quits ∨ ac.err ≠ none →
      Move quits ac { ac with disconnecting := true }
  | setDisconnectCallback {ac : RedisAsyncContext κ ω μ υ} :
      Move quits ac { ac with onDisconnect := true }
  | read {ac : RedisAsyncContext κ ω μ υ} (reader : RedisReader ω μ) :
      Move quits ac { ac with reader := reader }
  | listen {ac : RedisAsyncContext κ ω μ υ} :
      Move quits ac { ac with hooks := ac.hooks ++ [.addRead] }
  | answer {ac : RedisAsyncContext κ ω μ υ} {cb : Option κ} {replies : List (Option κ)}
      (obj : ω) (user : υ) (reader : RedisReader ω μ) :
      ac.replies = cb :: replies → ac.err = none →
      Move quits ac { ac with
        replies := replies
        calls := ac.calls ++ [(cb, some obj)]
        user := user
        reader := reader }
  | fail {ac : RedisAsyncContext κ ω μ υ} (err : ErrType × Bytes) (reader : RedisReader ω μ) :
      Move quits ac { ac with err := some err, reader := reader }
  | giveUp {ac : RedisAsyncContext κ ω μ υ} {cb : Option κ} {replies : List (Option κ)} (user : υ) :
      ac.replies = cb :: replies → ac.err ≠ none →
      Move quits ac { ac with replies := replies, calls := ac.calls ++ [(cb, none)], user := user }
  | write {ac : RedisAsyncContext κ ω μ υ} (n : ℕ) :
      Move quits ac { ac with
        obuf := ac.obuf.drop n
        sent := ac.sent ++ ac.obuf.take n
        hooks := ac.hooks ++ [if ac.obuf.drop n = [] then .delWrite else .addWrite, .addRead] }
  | close {ac : RedisAsyncContext κ ω μ υ} (reader : RedisReader ω μ) :
      ac.replies = [] → ac.disconnecting = true → (ac.err = none → ac.obuf = []) →
      Move quits ac { ac with
        hooks := ac.hooks ++ [.cleanup]
        disconnects :=
          if ac.onDisconnect then ac.disconnects ++ [if ac.err = none then .ok else .err]
          else ac.disconnects
        reader := reader
        freed := true }

/-- A sequence of moves of a context that is not freed before the last of them. -/
def Moves (quits : Prop) : RedisAsyncContext κ ω μ υ → RedisAsyncContext κ ω μ υ → Prop :=
  ReflTransGen fun ac ac' => ac.freed = false ∧ Move quits ac ac'

variable {quits : Prop}

theorem Moves.one {ac ac' : RedisAsyncContext κ ω μ υ} (h : ac.freed = false)
    (hm : Move quits ac ac') : Moves quits ac ac' := .single ⟨h, hm⟩

theorem Moves.invariant {I : RedisAsyncContext κ ω μ υ → Prop}
    (hstep : ∀ {ac ac'}, ac.freed = false → Move quits ac ac' → I ac → I ac')
    {ac ac' : RedisAsyncContext κ ω μ υ} (h : Moves quits ac ac') (hac : I ac) : I ac' := by
  induction h with
  | refl => exact hac
  | tail _ hm ih => exact hstep hm.1 hm.2 ih

def User.Asks (user : User κ ω μ υ) (quits : Prop) : Prop :=
  ∀ state cb reply mem, CallbackAction.disconnect ∈ (user.react state cb reply mem).2 → quits

theorem act_eq (actions : List (CallbackAction κ)) (ac : RedisAsyncContext κ ω μ υ) :
    ∃ disconnecting obuf replies hooks accepted, act ac actions =
      { ac with
        disconnecting := disconnecting
        obuf := obuf
        replies := replies
        hooks := hooks
        accepted := accepted } := by
  induction actions generalizing ac with
  | nil => exact ⟨_, _, _, _, _, rfl⟩
  | cons action actions ih =>
      cases action with
      | command fn cmd =>
          rw [act]
          unfold redisAsyncCommand
          split_ifs
          · exact ih ac
          · obtain ⟨d, o, r, w, a, h⟩ := ih { ac with
              obuf := ac.obuf ++ cmd
              replies := ac.replies ++ [fn]
              hooks := ac.hooks ++ [.addWrite]
              accepted := ac.accepted ++ [(fn, cmd)] }
            exact ⟨d, o, r, w, a, h⟩
      | disconnect =>
          rw [act]
          obtain ⟨d, o, r, w, a, h⟩ := ih (redisAsyncDisconnect ac)
          exact ⟨d, o, r, w, a, h⟩

/-- A callback can do nothing to a connection that is being closed. -/
theorem act_disconnecting (actions : List (CallbackAction κ)) {ac : RedisAsyncContext κ ω μ υ}
    (h : ac.disconnecting = true) : act ac actions = ac := by
  induction actions with
  | nil => rfl
  | cons action actions ih =>
      cases action with
      | command fn cmd => rw [act, redisAsyncCommand, if_pos h, ih]
      | disconnect =>
          have hsame : redisAsyncDisconnect ac = ac := by
            rw [redisAsyncDisconnect, ← h]
          rw [act, hsame, ih]

theorem act_moves {actions : List (CallbackAction κ)}
    (hasks : CallbackAction.disconnect ∈ actions → quits)
    {ac : RedisAsyncContext κ ω μ υ} (h : ac.freed = false) : Moves quits ac (act ac actions) := by
  induction actions generalizing ac with
  | nil => exact .refl
  | cons action actions ih =>
      have hrest : CallbackAction.disconnect ∈ actions → quits := fun hmem =>
        hasks (List.mem_cons_of_mem _ hmem)
      cases action with
      | command fn cmd =>
          rw [act]
          unfold redisAsyncCommand
          split_ifs with hd
          · exact ih hrest h
          · exact (Moves.one h (.command fn cmd (eq_false_of_ne_true hd))).trans (ih hrest h)
      | disconnect =>
          exact (Moves.one h (.disconnect (.inl (hasks List.mem_cons_self)))).trans (ih hrest h)

section
variable {fn : RedisReplyObjectFunctions ω μ} {user : User κ ω μ υ}
  {ac ac' : RedisAsyncContext κ ω μ υ}

theorem callback_act (user : User κ ω μ υ) (ac : RedisAsyncContext κ ω μ υ) (cb : κ)
    (reply : Option ω) :
    callback user ac cb reply = act
      { ac with
        user := (user.react ac.user cb reply ac.reader.mem).1
        calls := ac.calls ++ [(some cb, reply)] }
      (user.react ac.user cb reply ac.reader.mem).2 := rfl

theorem callback_eq (user : User κ ω μ υ) (ac : RedisAsyncContext κ ω μ υ) (cb : κ)
    (reply : Option ω) :
    ∃ disconnecting obuf replies hooks accepted, callback user ac cb reply =
      { ac with
        disconnecting := disconnecting
        obuf := obuf
        replies := replies
        hooks := hooks
        accepted := accepted
        user := (user.react ac.user cb reply ac.reader.mem).1
        calls := ac.calls ++ [(some cb, reply)] } :=
  act_eq _ _

theorem answer_moves (huser : user.Asks quits) {cb : κ} {replies : List (Option κ)}
    (hreplies : ac.replies = some cb :: replies)
    (herr : ac.err = none) (h : ac.freed = false) (obj : ω) (reader : RedisReader ω μ) :
    Moves quits ac (callback user { ac with replies := replies, reader := reader } cb
      (some obj)) := by
  refine (Moves.one h (.answer obj (user.react ac.user cb (some obj) reader.mem).1 reader
    hreplies herr)).trans ?_
  exact act_moves (huser _ _ _ _) h

theorem failCallbacks_moves (user : User κ ω μ υ) (ac : RedisAsyncContext κ ω μ υ) {n : ℕ}
    (hn : ac.replies.length = n) (herr : ac.err ≠ none)
    (hd : ac.disconnecting = true) (h : ac.freed = false) :
    Moves quits ac (failCallbacks user n ac) ∧ (failCallbacks user n ac).replies = [] ∧
      (failCallbacks user n ac).err = ac.err ∧ (failCallbacks user n ac).disconnecting = true ∧
      (failCallbacks user n ac).freed = false := by
  induction n generalizing ac with
  | zero => exact ⟨.refl, List.eq_nil_of_length_eq_zero hn, rfl, hd, h⟩
  | succ n ih =>
      cases hreplies : ac.replies with
      | nil => simp [hreplies] at hn
      | cons cb replies =>
          have hlen : replies.length = n := by simpa [hreplies] using hn
          cases cb with
          | none =>
              simp only [failCallbacks, hreplies]
              obtain ⟨hm, hrest⟩ := ih { ac with
                replies := replies
                calls := ac.calls ++ [(none, none)] } hlen herr hd h
              exact ⟨(Moves.one h (.giveUp ac.user hreplies herr)).trans hm, hrest⟩
          | some cb =>
              simp only [failCallbacks, hreplies]
              rw [callback_act, act_disconnecting _ (by exact hd)]
              obtain ⟨hm, hrest⟩ := ih { ac with
                replies := replies
                user := (user.react ac.user cb none ac.reader.mem).1
                calls := ac.calls ++ [(some cb, none)] } hlen herr hd h
              exact ⟨(Moves.one h (.giveUp _ hreplies herr)).trans hm, hrest⟩

theorem cleanup_moves {status : Status} (hrun : cleanup fn ac status = .ok ac')
    (hstatus : status = if ac.err = none then .ok else .err) (hreplies : ac.replies = [])
    (hd : ac.disconnecting = true) (hobuf : ac.err = none → ac.obuf = []) (h : ac.freed = false) :
    Moves quits ac ac' ∧ ac'.freed = true := by
  obtain ⟨mem, -, hac⟩ := Outcome.bind_eq_ok.mp hrun
  rw [hstatus] at hac
  cases hac
  exact ⟨Moves.one h (.close _ hreplies hd hobuf), rfl⟩

theorem disconnectNow_moves (hrun : disconnectNow fn user ac = .ok ac') (h : ac.freed = false)
    (hclean : ac.err = none → ac.disconnecting = true ∧ ac.obuf = []) :
    Moves quits ac ac' ∧ ac'.freed = true := by
  unfold disconnectNow at hrun
  cases herr : ac.err with
  | none =>
      simp only [herr] at hrun
      split_ifs at hrun with hreplies
      obtain ⟨hd, hobuf⟩ := hclean herr
      exact cleanup_moves hrun (by simp [herr]) hreplies hd (fun _ => hobuf) h
  | some e =>
      simp only [herr] at hrun
      have hmove : Moves quits ac { ac with disconnecting := true, err := some e } := by
        rw [← herr]
        exact Moves.one h (.disconnect (.inr (by rw [herr]; exact nofun)))
      obtain ⟨hm, hreplies, herr', hd, hfreed⟩ := failCallbacks_moves user
        { ac with disconnecting := true, err := some e } rfl nofun rfl h
      obtain ⟨hc, hend⟩ := cleanup_moves hrun (by simp [herr']) hreplies hd
        (fun hnone => by rw [herr'] at hnone; cases hnone) hfreed
      exact ⟨(hmove.trans hm).trans hc, hend⟩

theorem failed_moves {err : ErrType × Bytes} {r : RedisReader ω μ}
    (hrun : disconnectNow fn user { ac with err := some err, reader := r } = .ok ac')
    (h : ac.freed = false) : Moves quits ac ac' ∧ ac'.freed = true := by
  obtain ⟨hm, hend⟩ := disconnectNow_moves hrun h nofun
  exact ⟨(Moves.one h (.fail err r)).trans hm, hend⟩

theorem received_moves (h : ac.freed = false) (r : RedisReader ω μ) :
    Moves quits ac { ac with reader := r, hooks := ac.hooks ++ [.addRead] } :=
  (Moves.one h (.read r)).trans (Moves.one h .listen)

theorem processCallbacksFor_moves (huser : user.Asks quits) {n : ℕ}
    (hrun : processCallbacksFor fn user n ac = .ok ac') (h : ac.freed = false)
    (herr : ac.err = none) :
    Moves quits ac ac' ∧ (ac'.freed = true ∨ ac'.err = none) := by
  induction n generalizing ac with
  | zero => cases hrun
  | succ n ih =>
      obtain ⟨⟨status, reply, reader⟩, -, hrun⟩ := Outcome.bind_eq_ok.mp hrun
      cases status with
      | err =>
          have hfailed : Moves quits ac ac' ∧ ac'.freed = true := failed_moves hrun h
          exact ⟨hfailed.1, .inl hfailed.2⟩
      | ok =>
          cases reply with
          | none =>
              have hread : Moves quits ac { ac with reader := reader } := Moves.one h (.read reader)
              simp only at hrun
              split_ifs at hrun with hclose
              · obtain ⟨hm, hend⟩ := disconnectNow_moves hrun h fun _ => hclose
                exact ⟨hread.trans hm, .inl hend⟩
              · cases hrun
                exact ⟨hread, .inr herr⟩
          | some obj =>
              cases hreplies : ac.replies with
              | nil => simp [hreplies] at hrun
              | cons cb replies =>
                  cases cb with
                  | some cb =>
                      simp only [hreplies] at hrun
                      have hm := answer_moves huser hreplies herr h obj reader
                      obtain ⟨d, o, r, w, a, heq⟩ := callback_eq user
                        { ac with replies := replies, reader := reader } cb (some obj)
                      rw [heq] at hm hrun
                      obtain ⟨hm', hend⟩ := ih hrun h herr
                      exact ⟨hm.trans hm', hend⟩
                  | none =>
                      simp only [hreplies] at hrun
                      obtain ⟨mem, -, hrun⟩ := Outcome.bind_eq_ok.mp hrun
                      obtain ⟨hm, hend⟩ := ih hrun h herr
                      exact ⟨(Moves.one h (.answer obj ac.user { reader with mem := mem }
                        hreplies herr)).trans hm, hend⟩

/-- Every event makes moves, and a context that is still there has no error. -/
theorem handle_moves (huser : user.Asks quits) {e : Event κ} (hasks : e = .disconnect → quits)
    (hrun : handle fn user ac e = .ok ac') (h : ac.freed = false) (herr : ac.err = none) :
    Moves quits ac ac' ∧ (ac'.freed = true ∨ ac'.err = none) := by
  cases e with
  | command cb cmd =>
      cases hrun
      unfold redisAsyncCommand
      split_ifs with hd
      · exact ⟨.refl, .inr herr⟩
      · exact ⟨Moves.one h (.command cb cmd (eq_false_of_ne_true hd)), .inr herr⟩
  | disconnect =>
      cases hrun
      exact ⟨Moves.one h (.disconnect (.inl (hasks rfl))), .inr herr⟩
  | setDisconnectCallback =>
      cases hrun
      unfold redisAsyncSetDisconnectCallback
      split_ifs
      · exact ⟨.refl, .inr herr⟩
      · exact ⟨Moves.one h .setDisconnectCallback, .inr herr⟩
  | readable result =>
      cases result with
      | data chunk =>
          obtain ⟨hm, hend⟩ := processCallbacksFor_moves huser hrun h herr
          exact ⟨(received_moves h _).trans hm, hend⟩
      | again =>
          obtain ⟨hm, hend⟩ := processCallbacksFor_moves huser hrun h herr
          exact ⟨(Moves.one h .listen).trans hm, hend⟩
      | error msg =>
          obtain ⟨hm, hend⟩ := failed_moves (r := ac.reader) hrun h
          exact ⟨hm, .inl hend⟩
      | eof =>
          obtain ⟨hm, hend⟩ := failed_moves (r := ac.reader) hrun h
          exact ⟨hm, .inl hend⟩
  | writable result =>
      simp only [handle, redisAsyncHandleWrite] at hrun
      split_ifs at hrun with hobuf
      · cases hrun
        refine ⟨?_, .inr herr⟩
        simpa [hobuf] using Moves.one h (Move.write 0)
      · cases result with
        | wrote n =>
            cases hrun
            exact ⟨Moves.one h (.write _), .inr herr⟩
        | again =>
            cases hrun
            refine ⟨?_, .inr herr⟩
            simpa [hobuf] using Moves.one h (Move.write 0)
        | error msg =>
            obtain ⟨hm, hend⟩ := failed_moves (r := ac.reader) hrun h
            exact ⟨hm, .inl hend⟩

/-- Runs, by induction on the events. -/
theorem run_moves (huser : user.Asks quits) {events : List (Event κ)}
    (hasks : Event.disconnect ∈ events → quits) (hrun : run fn user ac events = .ok ac')
    (h : ac.freed = true ∨ ac.err = none) :
    Moves quits ac ac' ∧ (ac'.freed = true ∨ ac'.err = none) := by
  induction events generalizing ac with
  | nil =>
      cases hrun
      exact ⟨.refl, h⟩
  | cons e events ih =>
      rw [run] at hrun
      split_ifs at hrun with hfreed
      obtain ⟨ac₁, hhandle, hrun⟩ := Outcome.bind_eq_ok.mp hrun
      obtain ⟨hm, h₁⟩ := handle_moves huser
        (fun he => hasks (he ▸ List.mem_cons_self)) hhandle (eq_false_of_ne_true hfreed)
          (h.resolve_left hfreed)
      obtain ⟨hm', h₂⟩ := ih (fun hmem => hasks (List.mem_cons_of_mem _ hmem)) hrun h₁
      exact ⟨hm.trans hm', h₂⟩

end
/-- Callbacks and bytes are in their order, none is lost and none comes twice; as long as the
context is there, the event library was asked for what is left to do. -/
structure Orderly (ac : RedisAsyncContext κ ω μ υ) : Prop where
  queue : ac.calls.map Prod.fst ++ ac.replies = ac.accepted.map Prod.fst
  output : ac.sent ++ ac.obuf = (ac.accepted.map Prod.snd).flatten
  writing : ac.freed = false → ac.obuf ≠ [] → ac.interest.writing = true
  reading : ac.freed = false → ac.sent ≠ [] → ac.interest.reading = true

/-- Callbacks without a reply are the last ones, and come after an error; the context ends
once, when nothing is left to do, or with an error. -/
structure Lively (ac : RedisAsyncContext κ ω μ υ) : Prop where
  answered : ac.err = none → ∀ call ∈ ac.calls, call.2 ≠ none
  split : ∃ given lost, ac.calls = given ++ lost ∧ (∀ call ∈ given, call.2 ≠ none) ∧
    ∀ call ∈ lost, call.2 = none
  here : ac.freed = false → .cleanup ∉ ac.hooks ∧ ac.disconnects = []
  gone : ac.freed = true → ac.replies = [] ∧ (ac.err = none → ac.obuf = []) ∧
    (∃ before, ac.hooks = before ++ [.cleanup] ∧ .cleanup ∉ before) ∧
    ac.disconnects = if ac.onDisconnect then [if ac.err = none then .ok else .err] else []

theorem forall_mem_snoc {α : Type} {p : α → Prop} {l : List α} {a : α} (hl : ∀ x ∈ l, p x)
    (ha : p a) :
    ∀ x ∈ l ++ [a], p x := by
  intro x hx
  rcases List.mem_append.mp hx with hx | hx
  · exact hl x hx
  · exact List.mem_singleton.mp hx ▸ ha

theorem orderly_connect (mem : μ) (state : υ) :
    Orderly (redisAsyncConnect mem state : RedisAsyncContext κ ω μ υ) where
  queue := rfl
  output := rfl
  writing := fun _ h => absurd rfl h
  reading := fun _ h => absurd rfl h

theorem lively_connect (mem : μ) (state : υ) :
    Lively (redisAsyncConnect mem state : RedisAsyncContext κ ω μ υ) where
  answered := fun _ => nofun
  split := ⟨[], [], rfl, nofun, nofun⟩
  here := fun _ => ⟨List.not_mem_nil, rfl⟩
  gone := nofun

section
variable {ac ac' : RedisAsyncContext κ ω μ υ}

theorem interest_append {hooks : List EventHook} (h : ac'.hooks = ac.hooks ++ hooks) :
    ac'.interest = hooks.foldl Interest.after ac.interest := by
  rw [RedisAsyncContext.interest, h, List.foldl_append]
  rfl

theorem Orderly.move (h : Orderly ac) (hm : Move quits ac ac') : Orderly ac' := by
  have hqueue := h.queue
  have houtput := h.output
  cases hm with
  | command cb cmd hd =>
      refine ⟨?_, ?_, ?_, ?_⟩
      · simp [← hqueue]
      · simp [← houtput]
      · intro _ _
        rw [interest_append rfl]
        rfl
      · rw [interest_append rfl]
        exact h.reading
  | disconnect | setDisconnectCallback | read => exact ⟨hqueue, houtput, h.writing, h.reading⟩
  | listen =>
      refine ⟨hqueue, houtput, ?_, ?_⟩
      · rw [interest_append rfl]
        exact h.writing
      · intro _ _
        rw [interest_append rfl]
        rfl
  | answer obj user reader hreplies herr =>
      refine ⟨?_, houtput, h.writing, h.reading⟩
      rw [← hqueue, hreplies]
      simp
  | fail err reader => exact ⟨hqueue, houtput, h.writing, h.reading⟩
  | giveUp user hreplies herr =>
      refine ⟨?_, houtput, h.writing, h.reading⟩
      rw [← hqueue, hreplies]
      simp
  | write n =>
      refine ⟨hqueue, ?_, ?_, ?_⟩
      · rw [← houtput, List.append_assoc, List.take_append_drop]
      · intro _ hne
        have hadd : (if ac.obuf.drop n = [] then EventHook.delWrite else .addWrite) = .addWrite :=
          if_neg hne
        rw [interest_append rfl, hadd]
        rfl
      · intro _ _
        rw [interest_append rfl]
        rfl
  | close reader hreplies hd hobuf => exact ⟨hqueue, houtput, nofun, nofun⟩

theorem Lively.move (h : Lively ac) (hfreed : ac.freed = false) (hm : Move quits ac ac') :
    Lively ac' := by
  have hgone : ∀ {p : Prop}, ac.freed = true → p := fun htrue => by
    rw [hfreed] at htrue
    cases htrue
  obtain ⟨hcleanup, hdisconnects⟩ := h.here hfreed
  cases hm with
  | disconnect | setDisconnectCallback | read => exact ⟨h.answered, h.split, h.here, hgone⟩
  | command | listen =>
      exact ⟨h.answered, h.split, fun _ => ⟨by simp [hcleanup], hdisconnects⟩, hgone⟩
  | write n =>
      refine ⟨h.answered, h.split, fun _ => ⟨?_, hdisconnects⟩, hgone⟩
      split_ifs <;> simp [hcleanup]
  | @answer cb replies obj user reader hreplies herr =>
      have hall : ∀ call ∈ ac.calls ++ [(cb, some obj)], call.2 ≠ none :=
        forall_mem_snoc (h.answered herr) nofun
      exact ⟨fun _ => hall, ⟨_, [], (List.append_nil _).symm, hall, nofun⟩, h.here, hgone⟩
  | fail err reader => exact ⟨nofun, h.split, h.here, hgone⟩
  | @giveUp cb replies user hreplies herr =>
      obtain ⟨given, lost, hcalls, hgiven, hlost⟩ := h.split
      refine ⟨fun hnone => absurd hnone herr, ⟨given, lost ++ [(cb, none)], ?_, hgiven, ?_⟩,
        h.here, hgone⟩
      · rw [hcalls, List.append_assoc]
      · exact forall_mem_snoc hlost rfl
  | close reader hreplies hd hobuf =>
      refine ⟨h.answered, h.split, nofun, fun _ => ⟨hreplies, hobuf, ⟨_, rfl, hcleanup⟩, ?_⟩⟩
      simp only [hdisconnects, List.nil_append]

/-- Once `redisAsyncDisconnect` was called, only the commands of before are left. -/
structure Leaving (ac ac' : RedisAsyncContext κ ω μ υ) : Prop where
  disconnecting : ac'.disconnecting = true
  accepted : ac'.accepted = ac.accepted
  calls : ac.calls <+: ac'.calls
  queue : ac'.calls.map Prod.fst ++ ac'.replies = ac.calls.map Prod.fst ++ ac.replies
  obuf : ac.obuf = [] → ac'.obuf = []

theorem Leaving.move {ac'' : RedisAsyncContext κ ω μ υ} (h : Leaving ac ac')
    (hm : Move quits ac' ac'') : Leaving ac ac'' := by
  have hqueue := h.queue
  cases hm with
  | command cb cmd hnot => exact absurd h.disconnecting (by simp [hnot])
  | disconnect => exact ⟨rfl, h.accepted, h.calls, hqueue, h.obuf⟩
  | setDisconnectCallback | read | listen | fail | close =>
      exact ⟨h.disconnecting, h.accepted, h.calls, hqueue, h.obuf⟩
  | write n =>
      refine ⟨h.disconnecting, h.accepted, h.calls, hqueue, fun hobuf => ?_⟩
      simp only [h.obuf hobuf, List.drop_nil]
  | answer obj user reader hreplies herr =>
      refine ⟨h.disconnecting, h.accepted, h.calls.trans (List.prefix_append _ _), ?_, h.obuf⟩
      rw [← hqueue, hreplies]
      simp
  | giveUp user hreplies herr =>
      refine ⟨h.disconnecting, h.accepted, h.calls.trans (List.prefix_append _ _), ?_, h.obuf⟩
      rw [← hqueue, hreplies]
      simp

theorem Moves.leaving (h : Moves quits ac ac') (hd : ac.disconnecting = true) : Leaving ac ac' :=
  h.invariant (fun _ hm hl => hl.move hm) ⟨hd, rfl, List.prefix_refl _, rfl, id⟩

theorem Moves.accepted_le (h : Moves quits ac ac') : ac.accepted.length ≤ ac'.accepted.length := by
  refine h.invariant (I := fun ac' => ac.accepted.length ≤ ac'.accepted.length) ?_ (Nat.le_refl _)
  intro ac₁ ac₂ _ hm hle
  cases hm with
  | command cb cmd hd =>
      rw [List.length_append]
      exact Nat.le_add_right_of_le hle
  | disconnect | setDisconnectCallback | read | listen | answer | fail | giveUp | write | close =>
      exact hle

/-- The connection ends when somebody asks for it, or after an error. -/
theorem Moves.asked (h : Moves quits ac ac')
    (hac : ac.disconnecting = true → quits ∨ ac.err ≠ none) :
    ac'.disconnecting = true → quits ∨ ac'.err ≠ none := by
  refine h.invariant (I := fun ac => ac.disconnecting = true → quits ∨ ac.err ≠ none) ?_ hac
  intro ac₁ ac₂ _ hm hac₁
  cases hm with
  | disconnect hwhy => exact fun _ => hwhy
  | fail => exact fun _ => .inr nofun
  | command | setDisconnectCallback | read | listen | answer | giveUp | write | close => exact hac₁

end

section
variable {fn : RedisReplyObjectFunctions ω μ} {user : User κ ω μ υ} {mem : μ} {state : υ}
  {events : List (Event κ)} {ac : RedisAsyncContext κ ω μ υ}

theorem run_moves_any {events : List (Event κ)} {ac ac' : RedisAsyncContext κ ω μ υ}
    (hrun : run fn user ac events = .ok ac') (h : ac.freed = true ∨ ac.err = none) :
    Moves True ac ac' ∧ (ac'.freed = true ∨ ac'.err = none) :=
  run_moves (fun _ _ _ _ _ => trivial) (fun _ => trivial) hrun h

theorem run_orderly (hrun : run fn user (redisAsyncConnect mem state) events = .ok ac) :
    Orderly ac :=
  (run_moves_any hrun (.inr rfl)).1.invariant (fun _ hm h => h.move hm) (orderly_connect mem state)

theorem run_lively (hrun : run fn user (redisAsyncConnect mem state) events = .ok ac) :
    Lively ac ∧ (ac.freed = true ∨ ac.err = none) :=
  have hmoves := run_moves_any hrun (.inr rfl)
  ⟨hmoves.1.invariant (fun hfreed hm h => h.move hfreed hm) (lively_connect mem state), hmoves.2⟩

/-- In every run the callbacks are run once each, in the order of their commands. Those
that get `NULL` are the last, and come with the end after an error. -/
theorem callbacks_in_order (hrun : run fn user (redisAsyncConnect mem state) events = .ok ac) :
    ac.calls.map Prod.fst ++ ac.replies = ac.accepted.map Prod.fst ∧
      ∃ given lost, ac.calls = given ++ lost ∧ (∀ call ∈ given, call.2 ≠ none) ∧
        (∀ call ∈ lost, call.2 = none) ∧ (lost ≠ [] → ac.freed = true ∧ ac.err ≠ none) := by
  obtain ⟨hlively, hend⟩ := run_lively hrun
  obtain ⟨given, lost, hcalls, hgiven, hlost⟩ := hlively.split
  refine ⟨(run_orderly hrun).queue, given, lost, hcalls, hgiven, hlost, fun hne => ?_⟩
  have herr : ac.err ≠ none := by
    intro hnone
    obtain ⟨call, hcall⟩ := List.exists_mem_of_ne_nil lost hne
    exact hlively.answered hnone call (hcalls ▸ List.mem_append_right given hcall)
      (hlost call hcall)
  exact ⟨hend.resolve_right herr, herr⟩

def chaining : User ℕ ℕ ReplyHeap Unit :=
  ⟨fun _ cb _ _ => ((), if cb = 0 then [.command (some 1) (ascii "INCR b")] else [])⟩

/-- The answer to a command comes, and then the end of the stream. -/
def cutShort : List (Event ℕ) :=
  [.command (some 0) (ascii "INCR a"), .writable (.wrote 4),
    .readable (.data ⟨ascii ":1\r\n", by decide⟩), .readable .eof]

theorem callbacks_in_order_chaining :
    ∃ ac, run defaultFunctions chaining (redisAsyncConnect Trees.Heap.empty ()) cutShort = .ok ac ∧
      ac.calls.map Prod.snd = [some 0, none] ∧
      ac.calls.map Prod.fst ++ ac.replies = ac.accepted.map Prod.fst :=
  ⟨_, rfl, rfl, (callbacks_in_order
    (rfl : run defaultFunctions chaining (redisAsyncConnect Trees.Heap.empty ()) cutShort =
      .ok _)).1⟩

/-- In every run the socket takes the commands in their order. As long as the context is
there, the event library was asked for writes when bytes are left, and for reads
after the first byte that the socket took. -/
theorem output_in_order (hrun : run fn user (redisAsyncConnect mem state) events = .ok ac) :
    ac.sent ++ ac.obuf = (ac.accepted.map Prod.snd).flatten ∧
      (ac.freed = false → (ac.obuf ≠ [] → ac.interest.writing = true) ∧
        (ac.sent ≠ [] → ac.interest.reading = true)) :=
  have h := run_orderly hrun
  ⟨h.output, fun hhere => ⟨h.writing hhere, h.reading hhere⟩⟩

theorem output_in_order_chaining :
    ∃ ac, run defaultFunctions chaining (redisAsyncConnect Trees.Heap.empty ()) cutShort = .ok ac ∧
      ac.sent = ascii "INCR" ∧ ac.sent ++ ac.obuf = (ac.accepted.map Prod.snd).flatten :=
  ⟨_, rfl, rfl, (output_in_order
    (rfl : run defaultFunctions chaining (redisAsyncConnect Trees.Heap.empty ()) cutShort =
      .ok _)).1⟩

/-- In every run a context that is still there has no error and has told nobody that it
ends. One that is freed has told the event library once, with its last call, and the
disconnect callback, if there is one, once with its status; no callback is left. If there
was no error, all commands were sent and all were answered. -/
theorem closed_once (hrun : run fn user (redisAsyncConnect mem state) events = .ok ac) :
    (ac.freed = false → ac.err = none ∧ .cleanup ∉ ac.hooks ∧ ac.disconnects = []) ∧
      (ac.freed = true → ac.replies = [] ∧
        (∃ before, ac.hooks = before ++ [.cleanup] ∧ .cleanup ∉ before) ∧
        (ac.disconnects = if ac.onDisconnect then [if ac.err = none then .ok else .err] else []) ∧
        (ac.err = none → ac.sent = (ac.accepted.map Prod.snd).flatten ∧
          ac.calls.map Prod.fst = ac.accepted.map Prod.fst ∧
          ∀ call ∈ ac.calls, call.2 ≠ none)) := by
  obtain ⟨hlively, hend⟩ := run_lively hrun
  have horderly := run_orderly hrun
  refine ⟨fun hhere => ⟨hend.resolve_left (by simp [hhere]), hlively.here hhere⟩, fun hgone => ?_⟩
  obtain ⟨hreplies, hobuf, hcleanups, hdisconnects⟩ := hlively.gone hgone
  refine ⟨hreplies, hcleanups, hdisconnects, fun herr => ⟨?_, ?_, hlively.answered herr⟩⟩
  · rw [← horderly.output, hobuf herr, List.append_nil]
  · rw [← horderly.queue, hreplies, List.append_nil]

/-- The end is asked for before the answer comes. -/
def askedFor : List (Event ℕ) :=
  [.setDisconnectCallback, .command (some 1) (ascii "INCR a"), .disconnect, .writable (.wrote 6),
    .readable (.data ⟨ascii ":1\r\n", by decide⟩)]

theorem closed_once_chaining :
    ∃ ac, run defaultFunctions chaining (redisAsyncConnect Trees.Heap.empty ()) askedFor = .ok ac ∧
      ac.freed = true ∧ ac.disconnects = [.ok] ∧ (ac.freed = true → ac.replies = []) :=
  ⟨_, rfl, rfl, rfl, fun h => ((closed_once
    (rfl : run defaultFunctions chaining (redisAsyncConnect Trees.Heap.empty ()) askedFor =
      .ok _)).2 h).1⟩

/-- After `redisAsyncDisconnect` no command is accepted, from the user or from a callback,
whatever happens; the callbacks that are run from then on are those that were waiting, in
their order. -/
theorem nothing_accepted {events' : List (Event κ)} {ac' : RedisAsyncContext κ ω μ υ}
    (hrun : run fn user (redisAsyncConnect mem state) events = .ok ac)
    (hrun' : run fn user (redisAsyncDisconnect ac) events' = .ok ac') :
    ac'.accepted = ac.accepted ∧ ac.calls <+: ac'.calls ∧
      ac'.calls.map Prod.fst ++ ac'.replies = ac.calls.map Prod.fst ++ ac.replies := by
  obtain ⟨-, hend⟩ := run_moves_any hrun (.inr rfl)
  obtain ⟨hm, -⟩ := run_moves_any hrun' (by exact hend)
  have hleaving := hm.leaving rfl
  exact ⟨hleaving.accepted, hleaving.calls, hleaving.queue⟩

theorem nothing_accepted_chaining :
    ∃ ac ac', run defaultFunctions chaining (redisAsyncConnect Trees.Heap.empty ())
        [.command (some 0) (ascii "INCR a"), .writable (.wrote 6)] = .ok ac ∧
      run defaultFunctions chaining (redisAsyncDisconnect ac)
        [.command none (ascii "INCR b"), .readable (.data ⟨ascii ":1\r\n", by decide⟩)] = .ok ac' ∧
      ac'.accepted = ac.accepted ∧ ac.calls <+: ac'.calls ∧
      ac'.calls.map Prod.fst ++ ac'.replies = ac.calls.map Prod.fst ++ ac.replies := by
  obtain ⟨ac, hrun⟩ : ∃ ac, run defaultFunctions chaining (redisAsyncConnect Trees.Heap.empty ())
      [.command (some 0) (ascii "INCR a"), .writable (.wrote 6)] = .ok ac := ⟨_, rfl⟩
  obtain ⟨ac', hrun'⟩ : ∃ ac', run defaultFunctions chaining (redisAsyncDisconnect ac)
      [.command none (ascii "INCR b"), .readable (.data ⟨ascii ":1\r\n", by decide⟩)] =
        .ok ac' := by
    cases hrun
    exact ⟨_, rfl⟩
  exact ⟨ac, ac', hrun, hrun', nothing_accepted hrun hrun'⟩

end
end PhpHiredis.Async
