import PhpHiredis.AsyncRuns
import PhpHiredis.Receiving

/-!
# Replies and their callbacks

The asynchronous interface over the library's own objects. However the bytes of the
replies are cut, and whatever commands and callbacks come in between, the callback of
each command gets the object of the reply with the same number; the objects without a
callback are freed, and so is what the reader holds when the context ends.
-/
namespace PhpHiredis.Async

open Library Library.Incremental Library.Trees Reader Objects

variable {κ υ : Type}

def arrived : List (Event κ) → Bytes
  | [] => []
  | .readable (.data chunk) :: events => chunk.1 ++ arrived events
  | _ :: events => arrived events

/-- The callbacks have the objects of their replies, and only the cells in `F` are in use
beside these. -/
def Holding (es : List Reply) (ac : RedisAsyncContext κ ℕ ReplyHeap υ) (F : Finset ℕ) : Prop :=
  Keeps es ac.reader.mem ac.calls F

/-- The loop over the replies has read what it can. -/
structure Stops (es : List Reply) (future : Bytes) (quits : Prop)
    (ac ac₁ : RedisAsyncContext κ ℕ ReplyHeap υ) : Prop where
  moves : Moves quits ac ac₁
  freed : ac₁.freed = false
  err : ac₁.err = none
  receives : ∃ m, Receives es m ac₁.reader ac₁.calls future ∧ Settled m

/-- How the loop over the replies ends. The assertions fail where a reply comes that
no command waits for, and where the end was asked for and nothing is left to be sent but
a callback still waits. -/
inductive Processed (es : List Reply) (future : Bytes) (quits : Prop)
    (ac : RedisAsyncContext κ ℕ ReplyHeap υ) : Run (RedisAsyncContext κ ℕ ReplyHeap υ) → Prop
  | waiting {ac₁ : RedisAsyncContext κ ℕ ReplyHeap υ} (stops : Stops es future quits ac ac₁)
      (more : ¬(ac₁.disconnecting = true ∧ ac₁.obuf = [])) : Processed es future quits ac (.ok ac₁)
  | closed {ac₁ ac' : RedisAsyncContext κ ℕ ReplyHeap υ} (stops : Stops es future quits ac ac₁)
      (cue : ac₁.disconnecting = true ∧ ac₁.obuf = []) (replies : ac₁.replies = [])
      (freed : ac'.freed = true) (err : ac'.err = none) (calls : ac'.calls = ac₁.calls)
      (holding : Holding es ac' ∅) : Processed es future quits ac (.ok ac')
  | hasty {ac₁ : RedisAsyncContext κ ℕ ReplyHeap υ} (stops : Stops es future quits ac ac₁)
      (cue : ac₁.disconnecting = true ∧ ac₁.obuf = []) (replies : ac₁.replies ≠ []) :
      Processed es future quits ac (.fault .assertion)
  | unsolicited {ac₁ : RedisAsyncContext κ ℕ ReplyHeap υ} {ys : Bytes} (moves : Moves quits ac ac₁)
      (replies : ac₁.replies = []) (next : ac₁.calls.length < es.length)
      (rest : ys ++ future = Reply.encodeAll (es.drop (ac₁.calls.length + 1))) :
      Processed es future quits ac (.fault .assertion)

section
variable {user : User κ ℕ ReplyHeap υ} {quits : Prop} {es : List Reply} {future : Bytes}
  {ac ac₁ : RedisAsyncContext κ ℕ ReplyHeap υ}

theorem Processed.after {x : Run (RedisAsyncContext κ ℕ ReplyHeap υ)} (hm : Moves quits ac ac₁)
    (h : Processed es future quits ac₁ x) : Processed es future quits ac x := by
  cases h with
  | waiting stops more => exact .waiting { stops with moves := hm.trans stops.moves } more
  | closed stops cue replies freed err calls holding =>
      exact .closed { stops with moves := hm.trans stops.moves } cue replies freed err calls holding
  | hasty stops cue replies => exact .hasty { stops with moves := hm.trans stops.moves } cue replies
  | unsolicited moves replies next rest => exact .unsolicited (hm.trans moves) replies next rest

theorem cleanup_holding (ac : RedisAsyncContext κ ℕ ReplyHeap υ) {m : Progress} {r : ObjectReader}
    {calls : List (Option κ × Option ℕ)}
    (h : Receives es m r calls future) (status : Status) (hr : ac.reader = r)
    (hcalls : handed ac.calls = handed calls) (hof : handedOf es ac.calls = handedOf es calls) :
    ∃ ac', cleanup defaultFunctions ac status = .ok ac' ∧ ac'.freed = true ∧ ac'.err = ac.err ∧
      ac'.calls = ac.calls ∧ Holding es ac' ∅ := by
  obtain ⟨F, out, hfollows⟩ := h.follows
  obtain ⟨mem, hfree, hholds, hused⟩ := hfollows.readerFree
  subst hr
  refine ⟨{ ac with
      hooks := ac.hooks ++ [.cleanup]
      disconnects := if ac.onDisconnect then ac.disconnects ++ [status] else ac.disconnects
      reader := { ac.reader with mem := mem }
      freed := true }, by rw [cleanup, hfree]; rfl, rfl, rfl, rfl, out, ?_,
    Finset.disjoint_empty_left _, ?_⟩
  · rw [hcalls, hof, ← h.held]
    exact hholds
  · intro a
    rw [Finset.empty_union]
    exact hused a

theorem failCallbacks_frame (user : User κ ℕ ReplyHeap υ) (n : ℕ)
    (ac : RedisAsyncContext κ ℕ ReplyHeap υ) :
    (failCallbacks user n ac).reader = ac.reader ∧ (failCallbacks user n ac).err = ac.err ∧
      ∃ lost, (failCallbacks user n ac).calls = ac.calls ++ lost ∧
        ∀ call ∈ lost, call.2 = none := by
  induction n generalizing ac with
  | zero => exact ⟨rfl, rfl, [], (List.append_nil _).symm, nofun⟩
  | succ n ih =>
      rw [failCallbacks]
      split
      · exact ⟨rfl, rfl, [], (List.append_nil _).symm, nofun⟩
      · rename_i cb replies _
        obtain ⟨d, o, q, w, a, heq⟩ := callback_eq user { ac with replies := replies } cb none
        obtain ⟨hreader, herr, lost, hcalls, hlost⟩ :=
          ih (callback user { ac with replies := replies } cb none)
        refine ⟨hreader.trans (by rw [heq]), herr.trans (by rw [heq]), (some cb, none) :: lost, ?_,
          List.forall_mem_cons.mpr ⟨rfl, hlost⟩⟩
        rw [hcalls, heq, List.append_cons ac.calls _ lost]
      · rename_i replies _
        obtain ⟨hreader, herr, lost, hcalls, hlost⟩ :=
          ih { ac with replies := replies, calls := ac.calls ++ [(none, none)] }
        refine ⟨hreader, herr, (none, none) :: lost, ?_, List.forall_mem_cons.mpr ⟨rfl, hlost⟩⟩
        rw [hcalls, List.append_cons ac.calls _ lost]

/-- After an error the callbacks keep what they have. -/
theorem disconnectNow_failed (user : User κ ℕ ReplyHeap υ) {m : Progress} (err : ErrType × Bytes)
    (h : Receives es m ac.reader ac.calls future) :
    ∃ ac', disconnectNow defaultFunctions user { ac with err := some err } = .ok ac' ∧
      ac'.freed = true ∧ ac'.err = some err ∧ Holding es ac' ∅ := by
  obtain ⟨hreader, herr, lost, hcalls, hlost⟩ := failCallbacks_frame user ac.replies.length
    { ac with disconnecting := true, err := some err }
  obtain ⟨hhanded, hof⟩ := handed_lost hlost ac.calls es
  obtain ⟨ac', hrun, hfreed, herr', -, hholding⟩ := cleanup_holding _ h .err hreader
    (by rw [hcalls, hhanded]) (by rw [hcalls, hof])
  exact ⟨ac', hrun, hfreed, herr'.trans herr, hholding⟩

/-- The loop over the replies, by induction on their number. -/
theorem processCallbacksFor_processed (hes : ∀ e ∈ es, e.Sound 2) (huser : user.Asks quits) {n : ℕ}
    {m : Progress} (hn : m.unread.length < n) (hfreed : ac.freed = false) (herr : ac.err = none)
    (h : Receives es m ac.reader ac.calls future) :
    Processed es future quits ac (processCallbacksFor defaultFunctions user n ac) := by
  induction n generalizing ac m with
  | zero => exact absurd hn (Nat.not_lt_zero _)
  | succ n ih =>
      rw [processCallbacksFor]
      rcases h.getReply hes with ⟨m', r', hrun, h', hsettled⟩ |
        ⟨hnext, m', obj, r', hrun, hlt, hrest, hcall, mem, hfree, hnone⟩
      · rw [hrun]
        have hmoves : Moves quits ac { ac with reader := r' } := Moves.one hfreed (.read r')
        have hstops : Stops es future quits ac { ac with reader := r' } :=
          ⟨hmoves, hfreed, herr, m', h', hsettled⟩
        simp only [Outcome.ok_bind]
        split_ifs with hcue
        · simp only [disconnectNow, herr]
          split_ifs with hreplies
          · obtain ⟨ac', hcleanup, hfreed', herr', hcalls, hholding⟩ :=
              cleanup_holding { ac with reader := r' } h' .ok rfl rfl rfl
            rw [← herr, hcleanup]
            exact .closed hstops hcue hreplies hfreed' (herr'.trans herr) hcalls hholding
          · exact .hasty hstops hcue hreplies
        · exact .waiting hstops hcue
      · rw [hrun]
        simp only [Outcome.ok_bind]
        cases hreplies : ac.replies with
        | nil => exact .unsolicited .refl hreplies hnext hrest
        | cons cb replies =>
            cases cb with
            | some cb =>
                have hmoves := answer_moves huser hreplies herr hfreed obj r'
                simp only
                obtain ⟨d, o, q, w, a, heq⟩ := callback_eq user
                  { ac with replies := replies, reader := r' } cb (some obj)
                rw [heq] at hmoves ⊢
                exact Processed.after hmoves (ih (by omega) hfreed herr (hcall cb))
            | none =>
                simp only [defaultFunctions, hfree, Outcome.ok_bind]
                exact Processed.after
                  (Moves.one hfreed (.answer obj ac.user { r' with mem := mem } hreplies herr))
                  (ih (by change m'.unread.length < n; omega) hfreed herr hnone)

end

/-- Events without an error of the socket, and without a call that ends the connection. -/
def Event.Smooth : Event κ → Prop
  | .command _ _ | .setDisconnectCallback | .readable (.data _) | .readable .again
  | .writable (.wrote _) | .writable .again => True
  | .disconnect | .readable (.error _) | .readable .eof | .writable (.error _) => False

inductive EventEnds (es : List Reply) (future : Bytes) (quits : Prop)
    (ac : RedisAsyncContext κ ℕ ReplyHeap υ) (e : Event κ) :
    Run (RedisAsyncContext κ ℕ ReplyHeap υ) → Prop
  | processed {x : Run (RedisAsyncContext κ ℕ ReplyHeap υ)} (h : Processed es future quits ac x) :
      EventEnds es future quits ac e x
  | passed {ac₁ : RedisAsyncContext κ ℕ ReplyHeap υ} (stops : Stops es future quits ac ac₁) :
      EventEnds es future quits ac e (.ok ac₁)
  | failed {ac₁ : RedisAsyncContext κ ℕ ReplyHeap υ} (rough : ¬e.Smooth) (freed : ac₁.freed = true)
      (err : ac₁.err ≠ none) (holding : Holding es ac₁ ∅) : EventEnds es future quits ac e (.ok ac₁)

section
variable {user : User κ ℕ ReplyHeap υ} {quits : Prop} {es : List Reply} {future : Bytes}
  {ac ac₁ : RedisAsyncContext κ ℕ ReplyHeap υ}

theorem Stops.move (h : Stops es future quits ac ac) (hm : Moves quits ac ac₁)
    (hfreed : ac₁.freed = ac.freed) (herr : ac₁.err = ac.err) (hreader : ac₁.reader = ac.reader)
    (hcalls : ac₁.calls = ac.calls) : Stops es future quits ac ac₁ :=
  ⟨hm, hfreed.trans h.freed, herr.trans h.err, by rw [hreader, hcalls]; exact h.receives⟩

theorem Stops.failed (h : Stops es future quits ac ac) {e : Event κ} (he : ¬e.Smooth)
    (err : ErrType × Bytes) :
    EventEnds es future quits ac e
      (disconnectNow defaultFunctions user { ac with err := some err }) := by
  obtain ⟨m, hreceives, -⟩ := h.receives
  obtain ⟨ac', hrun, hfreed, herr, hholding⟩ := disconnectNow_failed user err hreceives
  rw [hrun]
  exact .failed he hfreed (by rw [herr]; exact nofun) hholding

theorem handle_handled (hes : ∀ e ∈ es, e.Sound 2) (huser : user.Asks quits) {e : Event κ}
    (hasks : e = .disconnect → quits) (h : Stops es (arrived [e] ++ future) quits ac ac) :
    EventEnds es future quits ac e (handle defaultFunctions user ac e) := by
  obtain ⟨m, hreceives, hsettled⟩ := h.receives
  cases e with
  | command cb cmd =>
      refine .passed ?_
      unfold redisAsyncCommand
      split_ifs with hd
      · exact h
      · exact h.move (Moves.one h.freed (.command cb cmd (eq_false_of_ne_true hd))) rfl rfl rfl rfl
  | disconnect =>
      exact .passed (h.move (Moves.one h.freed (.disconnect (.inl (hasks rfl)))) rfl rfl rfl rfl)
  | setDisconnectCallback =>
      refine .passed ?_
      unfold redisAsyncSetDisconnectCallback
      split_ifs
      · exact h
      · exact h.move (Moves.one h.freed .setDisconnectCallback) rfl rfl rfl rfl
  | readable result =>
      cases result with
      | data chunk =>
          have hreceives' : Receives es m ac.reader ac.calls (chunk.1 ++ future) := by
            simpa [arrived] using hreceives
          have hfeed := hreceives'.feed
          refine .processed (Processed.after
            (received_moves h.freed (redisReplyReaderFeed ac.reader chunk.1)) ?_)
          exact processCallbacksFor_processed hes huser (Nat.lt_succ_of_le hfeed.len) h.freed h.err
            hfeed
      | again =>
          have hreceives' : Receives es m ac.reader ac.calls future := hreceives
          refine .processed (Processed.after (Moves.one h.freed .listen) ?_)
          exact processCallbacksFor_processed hes huser (Nat.lt_succ_of_le hreceives'.len) h.freed
            h.err hreceives'
      | error msg => exact h.failed id _
      | eof => exact h.failed id _
  | writable result =>
      simp only [handle, redisAsyncHandleWrite]
      split_ifs with hobuf
      · refine .passed (h.move ?_ rfl rfl rfl rfl)
        simpa [hobuf] using Moves.one h.freed (Move.write 0)
      · cases result with
        | wrote n => exact .passed (h.move (Moves.one h.freed (.write _)) rfl rfl rfl rfl)
        | again =>
            refine .passed (h.move ?_ rfl rfl rfl rfl)
            simpa [hobuf] using Moves.one h.freed (Move.write 0)
        | error msg => exact h.failed id _

end

/-- At every event the bytes that have come are within the replies to the commands that
were accepted. -/
def Solicited (user : User κ ℕ ReplyHeap υ) (es : List Reply) :
    RedisAsyncContext κ ℕ ReplyHeap υ → Bytes → List (Event κ) → Prop
  | _, _, [] => True
  | ac, received, e :: events =>
      received ++ arrived [e] <+: Reply.encodeAll (es.take ac.accepted.length) ∧
        ∀ ac', handle defaultFunctions user ac e = .ok ac' →
          Solicited user es ac' (received ++ arrived [e]) events

theorem arrived_cons (e : Event κ) (events : List (Event κ)) :
    arrived (e :: events) = arrived [e] ++ arrived events := by
  cases e with
  | readable result => cases result <;> simp [arrived]
  | command | disconnect | setDisconnectCallback | writable => rfl

theorem take_le_of_prefix {es : List Reply} {k n : ℕ} (hk : k ≤ es.length)
    (h : Reply.encodeAll (es.take k) <+: Reply.encodeAll (es.take n)) : k ≤ n := by
  by_contra hlt
  obtain ⟨d, hd⟩ : ∃ d, k = n + (d + 1) := ⟨k - n - 1, by omega⟩
  have hn : n < es.length := by omega
  have hsplit : es.take k = es.take n ++ (es.drop n).take (d + 1) := by
    rw [hd, List.take_add]
  have hlen := h.length_le
  rw [hsplit, Reply.encodeAll_append, List.length_append, List.drop_eq_getElem_cons hn,
    List.take_succ_cons, Reply.encodeAll_cons, List.length_append] at hlen
  have hpos : 0 < (Reply.encode es[n]).length := by
    rw [Reply.encode, List.length_cons]
    omega
  omega

section
variable {user : User κ ℕ ReplyHeap υ} {quits : Prop} {es : List Reply} {future : Bytes}
  {state : υ} {events : List (Event κ)} {ac ac' : RedisAsyncContext κ ℕ ReplyHeap υ}

theorem stops_connect (es : List Reply) (state : υ) :
    Stops es (Reply.encodeAll es) quits
      (redisAsyncConnect Heap.empty state : RedisAsyncContext κ ℕ ReplyHeap υ)
      (redisAsyncConnect Heap.empty state) :=
  ⟨.refl, rfl, rfl, newProgress, receives_new es, settled_new⟩

theorem Stops.here {ac₀ : RedisAsyncContext κ ℕ ReplyHeap υ} (h : Stops es future quits ac₀ ac) :
    Stops es future quits ac ac := { h with moves := .refl }

theorem Stops.holding {ac₀ : RedisAsyncContext κ ℕ ReplyHeap υ} (h : Stops es future quits ac₀ ac) :
    ∃ F, Holding es ac F := by
  obtain ⟨m, hreceives, -⟩ := h.receives
  exact hreceives.keeps

theorem Stops.all {ac₀ : RedisAsyncContext κ ℕ ReplyHeap υ} (hes : ∀ e ∈ es, e.Sound 2)
    (h : Stops es future quits ac₀ ac) (hfuture : future = []) : ac.calls.length = es.length := by
  subst hfuture
  obtain ⟨m, hreceives, hsettled⟩ := h.receives
  exact hreceives.all hes hsettled

/-- A run, by induction on its events: it goes on, or the context is freed at its last event. -/
theorem run_stops (hes : ∀ e ∈ es, e.Sound 2) (h : Stops es (arrived events ++ future) True ac ac)
    (hrun : run defaultFunctions user ac events = .ok ac') :
    Stops es future True ac ac' ∨ (ac'.freed = true ∧ Holding es ac' ∅ ∧
      (ac'.err = none → future = [] → ac'.calls.length = es.length)) := by
  induction events generalizing ac with
  | nil =>
      cases hrun
      exact .inl h
  | cons e events ih =>
      rw [run] at hrun
      split_ifs at hrun with hfreed
      obtain ⟨ac₁, hhandle, hrun⟩ := Outcome.bind_eq_ok.mp hrun
      rw [arrived_cons, List.append_assoc] at h
      have hhandled : EventEnds es (arrived events ++ future) True ac e
          (handle defaultFunctions user ac e) :=
        handle_handled hes (fun _ _ _ _ _ => trivial) (fun _ => trivial) h
      -- a context that is freed has no other event
      have hlast : ac₁.freed = true → events = [] ∧ ac' = ac₁ := by
        intro hgone
        cases events with
        | nil =>
            cases hrun
            exact ⟨rfl, rfl⟩
        | cons e' events =>
            rw [run, if_pos hgone] at hrun
            cases hrun
      have hgo : Stops es (arrived events ++ future) True ac ac₁ → _ := fun hstops =>
        (ih hstops.here hrun).imp_left fun h' => { h' with moves := hstops.moves.trans h'.moves }
      rw [hhandle] at hhandled
      cases hhandled with
      | passed stops => exact hgo stops
      | failed rough freed err holding =>
          obtain ⟨rfl, rfl⟩ := hlast freed
          exact .inr ⟨freed, holding, fun hnone => absurd hnone err⟩
      | processed hprocessed =>
          cases hprocessed with
          | waiting stops more => exact hgo stops
          | closed stops cue replies freed err calls holding =>
              obtain ⟨rfl, rfl⟩ := hlast freed
              exact .inr ⟨freed, holding, fun _ hfuture => calls ▸ stops.all hes hfuture⟩

/-- However the bytes of the replies are cut, and whatever commands, callbacks, writes and
errors come in between: in every run the callback with the number `k` gets the object of
the reply with the number `k`, each in cells of its own; objects that no callback gets
are freed, and in the end nothing else is in use. When all bytes have come, all
replies are delivered. -/
theorem run_replies (hes : ∀ e ∈ es, e.Sound 2)
    (hin : arrived events ++ future = Reply.encodeAll es)
    (hrun : run defaultFunctions user (redisAsyncConnect Heap.empty state) events = .ok ac) :
    ∃ F, Holding es ac F ∧ (ac.freed = true → F = ∅) ∧
      (ac.err = none → future = [] → ac.calls.length = es.length) := by
  have hstart : Stops es (arrived events ++ future) True
    (redisAsyncConnect Heap.empty state : RedisAsyncContext κ ℕ ReplyHeap υ)
      (redisAsyncConnect Heap.empty state) := hin ▸ stops_connect es state
  rcases run_stops hes hstart hrun with hstops | ⟨hfreed, hholding, hall⟩
  · obtain ⟨F, hF⟩ := hstops.holding
    refine ⟨F, hF, fun hfreed => ?_, fun _ hfuture => hstops.all hes hfuture⟩
    rw [hstops.freed] at hfreed
    cases hfreed
  · exact ⟨∅, hholding, fun _ => rfl, hall⟩

/-- Where the peer only answers what was accepted and nobody ends the connection, every
event is handled. -/
theorem run_solicited (hes : ∀ e ∈ es, e.Sound 2) (huser : user.Asks False) {received : Bytes}
    (hsmooth : ∀ e ∈ events, e.Smooth)
    (hin : received ++ (arrived events ++ future) = Reply.encodeAll es)
    (hsol : Solicited user es ac received events) (horderly : Orderly ac)
    (hd : ac.disconnecting = false) (h : Stops es (arrived events ++ future) False ac ac) :
    ∃ ac', run defaultFunctions user ac events = .ok ac' ∧ Stops es future False ac ac' := by
  induction events generalizing ac received with
  | nil => exact ⟨ac, rfl, h⟩
  | cons e events ih =>
      obtain ⟨hwithin, hnext⟩ := hsol
      have hnot : e = .disconnect → False := by
        rintro rfl
        exact hsmooth _ List.mem_cons_self
      rw [arrived_cons, List.append_assoc] at h hin
      have hquiet : ∀ {ac₁}, Moves False ac ac₁ → ac₁.err = none → ac₁.disconnecting = true →
          False := by
        intro ac₁ hm herr hd₁
        have := hm.asked (by simp [hd]) hd₁
        simp [herr] at this
      have hgo : ∀ {ac₁}, handle defaultFunctions user ac e = .ok ac₁ →
          Stops es (arrived events ++ future) False ac ac₁ →
          ∃ ac', run defaultFunctions user ac (e :: events) = .ok ac' ∧
            Stops es future False ac ac' := by
        intro ac₁ hhandle hstops
        obtain ⟨ac', hrun, h'⟩ := ih (fun e' he' => hsmooth e' (List.mem_cons_of_mem _ he'))
          (by rw [List.append_assoc]; exact hin) (hnext ac₁ hhandle)
          (hstops.moves.invariant (fun _ hm ho => ho.move hm) horderly)
          (eq_false_of_ne_true fun hd₁ => hquiet hstops.moves hstops.err hd₁) hstops.here
        refine ⟨ac', ?_, { h' with moves := hstops.moves.trans h'.moves }⟩
        rw [run, h.freed, if_neg Bool.false_ne_true, hhandle, Outcome.ok_bind, hrun]
      have hhandled := handle_handled hes huser hnot h
      generalize hhandle : handle defaultFunctions user ac e = x at hhandled
      cases hhandled with
      | passed stops => exact hgo hhandle stops
      | failed rough freed err holding => exact absurd (hsmooth _ List.mem_cons_self) rough
      | processed hprocessed =>
          cases hprocessed with
          | waiting stops more => exact hgo hhandle stops
          | closed stops cue replies freed err calls holding =>
              exact (hquiet stops.moves stops.err cue.1).elim
          | hasty stops cue replies => exact (hquiet stops.moves stops.err cue.1).elim
          | @unsolicited ac₁ ys moves replies next rest =>
              -- the reply would be beyond those of the commands
              have hlen : ac₁.calls.length = ac₁.accepted.length := by
                have hqueue := (moves.invariant (fun _ hm ho => ho.move hm) horderly).queue
                rw [replies, List.append_nil] at hqueue
                rw [← List.length_map Prod.fst, hqueue, List.length_map]
              have hbytes : received ++ arrived [e] =
                  Reply.encodeAll (es.take (ac₁.calls.length + 1)) ++ ys := by
                have hall : received ++ arrived [e] ++ (arrived events ++ future) =
                    Reply.encodeAll (es.take (ac₁.calls.length + 1)) ++ ys ++
                      (arrived events ++ future) := by
                  rw [List.append_assoc, hin, List.append_assoc, rest, ← Reply.encodeAll_append,
                    List.take_append_drop]
                exact List.append_cancel_right hall
              have hle := take_le_of_prefix next
                (List.IsPrefix.trans ⟨ys, hbytes.symm⟩ hwithin)
              have := moves.accepted_le
              omega

def oneTwo : List Reply := [.integer 1, .integer 2]

theorem oneTwo_sound : ∀ e ∈ oneTwo, e.Sound 2 := by
  simp [oneTwo, Reply.Sound]

/-- The second command is sent by the callback of the first; the first answer comes in two
pieces. -/
def pieces : List (Event ℕ) :=
  [.command (some 0) (ascii "INCR a"), .writable (.wrote 4),
    .readable (.data ⟨ascii ":1\r", by decide⟩), .readable (.data ⟨ascii "\n", by decide⟩),
    .readable (.data ⟨ascii ":2\r\n", by decide⟩)]

theorem run_replies_pieces :
    ∃ ac, run defaultFunctions chaining (redisAsyncConnect Heap.empty ()) pieces = .ok ac ∧
      ac.calls.map Prod.fst = [some 0, some 1] ∧ ∃ F, Holding oneTwo ac F := by
  have hin : arrived pieces ++ [] = Reply.encodeAll oneTwo := by decide
  have h := run_replies oneTwo_sound hin
    (rfl : run defaultFunctions chaining (redisAsyncConnect Heap.empty ()) pieces = .ok _)
  exact ⟨_, rfl, rfl, h.imp fun _ hF => hF.1⟩

/-- Where the peer answers the accepted commands and no others, nobody ends the connection
and the socket makes no error, every run goes on: no assertion fails, the callbacks that
were run are those of the first commands, the one with the number `k` got the object
of the reply with the number `k`, and when all replies have come all are delivered and
nothing else is in use. -/
theorem replies_delivered (hes : ∀ e ∈ es, e.Sound 2) (huser : user.Asks False)
    (hsmooth : ∀ e ∈ events, e.Smooth) (hin : arrived events ++ future = Reply.encodeAll es)
    (hsol : Solicited user es (redisAsyncConnect Heap.empty state) [] events) :
    ∃ ac F, run defaultFunctions user (redisAsyncConnect Heap.empty state) events = .ok ac ∧
      ac.freed = false ∧ ac.calls.map Prod.fst ++ ac.replies = ac.accepted.map Prod.fst ∧
      (∀ call ∈ ac.calls, call.2 ≠ none) ∧ Holding es ac F ∧
      (future = [] → ac.calls.length = es.length ∧ F = ∅) := by
  obtain ⟨ac, hrun, hstops⟩ := run_solicited hes huser hsmooth hin hsol (orderly_connect _ _) rfl
    (hin ▸ stops_connect es state)
  have hqueue := (run_orderly hrun).queue
  have hanswered := (run_lively hrun).1.answered hstops.err
  by_cases hfuture : future = []
  · obtain ⟨m, hreceives, -⟩ := hstops.receives
    have hall := hstops.all hes hfuture
    exact ⟨ac, ∅, hrun, hstops.freed, hqueue, hanswered, hreceives.keepsOnly hall, fun _ =>
      ⟨hall, rfl⟩⟩
  · obtain ⟨F, hF⟩ := hstops.holding
    exact ⟨ac, F, hrun, hstops.freed, hqueue, hanswered, hF, fun h => absurd h hfuture⟩

theorem chaining_asks : chaining.Asks False := by
  intro state cb reply mem h
  simp only [chaining] at h
  split at h <;> simp at h

theorem pieces_solicited :
    Solicited chaining oneTwo (redisAsyncConnect Heap.empty ()) [] pieces := by
  refine ⟨by decide, ?_⟩
  rintro _ ⟨⟩
  refine ⟨by decide, ?_⟩
  rintro _ ⟨⟩
  refine ⟨by decide, ?_⟩
  rintro _ ⟨⟩
  refine ⟨by decide, ?_⟩
  rintro _ ⟨⟩
  exact ⟨by decide, fun _ _ => trivial⟩

theorem replies_delivered_pieces :
    ∃ ac F, run defaultFunctions chaining (redisAsyncConnect Heap.empty ()) pieces = .ok ac ∧
      ac.calls.length = 2 ∧ Holding oneTwo ac F := by
  have hin : arrived pieces ++ [] = Reply.encodeAll oneTwo := by decide
  obtain ⟨ac, F, hrun, -, -, -, hholding, hall⟩ := replies_delivered oneTwo_sound chaining_asks
    (by simp [pieces, Event.Smooth]) hin pieces_solicited
  exact ⟨ac, F, hrun, (hall rfl).1, hholding⟩

/-- The end of a connection with everything sent and an answer on its way to each command:
it is clean if what is left of the answers comes with one read. If only a part of it
does, the assertion that no callback is left fails, although the comment of
`redisAsyncDisconnect` says that the remaining replies are waited for. -/
theorem disconnect_one_read (hes : ∀ e ∈ es, e.Sound 2) {chunk : Chunk}
    (hin : arrived events ++ (chunk.1 ++ future) = Reply.encodeAll es)
    (hrun : run defaultFunctions user (redisAsyncConnect Heap.empty state) events = .ok ac)
    (hfreed : ac.freed = false) (hd : ac.disconnecting = true) (hobuf : ac.obuf = [])
    (hall : ac.accepted.length = es.length) :
    (future = [] → ∃ ac', handle defaultFunctions user ac (.readable (.data chunk)) = .ok ac' ∧
      ac'.freed = true ∧ ac'.err = none ∧ ac'.calls.length = es.length ∧ Holding es ac' ∅) ∧
    (future ≠ [] →
      handle defaultFunctions user ac (.readable (.data chunk)) = .fault .assertion) := by
  have hstart : Stops es (arrived events ++ (chunk.1 ++ future)) True
      (redisAsyncConnect Heap.empty state : RedisAsyncContext κ ℕ ReplyHeap υ)
      (redisAsyncConnect Heap.empty state) := hin ▸ stops_connect es state
  have hstops : Stops es (chunk.1 ++ future) True ac ac := by
    rcases run_stops hes hstart hrun with hstops | ⟨hgone, -⟩
    · exact hstops.here
    · rw [hfreed] at hgone
      cases hgone
  obtain ⟨m, hreceives, -⟩ := hstops.receives
  have hfeed := hreceives.feed
  have hprocessed : Processed es future True ac
      (handle defaultFunctions user ac (.readable (.data chunk))) :=
    Processed.after (received_moves hfreed (redisReplyReaderFeed ac.reader chunk.1))
      (processCallbacksFor_processed hes (fun _ _ _ _ _ => trivial) (Nat.lt_succ_of_le hfeed.len)
        hfreed hstops.err hfeed)
  have horderly := run_orderly hrun
  -- no command comes, and nothing is left to be sent
  have hcue : ∀ {ac₁}, Moves True ac ac₁ → ac₁.disconnecting = true ∧ ac₁.obuf = [] := fun hm =>
    ⟨(hm.leaving hd).disconnecting, (hm.leaving hd).obuf hobuf⟩
  have hcount : ∀ {ac₁}, Moves True ac ac₁ → ac₁.calls.length + ac₁.replies.length = es.length := by
    intro ac₁ hm
    have hqueue := (hm.leaving hd).queue.trans horderly.queue
    have haccepted : (ac.accepted.map Prod.fst).length = es.length := by rw [List.length_map, hall]
    rw [← haccepted, ← hqueue, List.length_append, List.length_map]
  -- a reply that is not there yet is waited for
  have hopen : ∀ {ac₁}, Stops es future True ac ac₁ → (future = [] ↔ ac₁.replies = []) := by
    intro ac₁ hs
    have hlen := hcount hs.moves
    constructor
    · intro hfuture
      have := hs.all hes hfuture
      exact List.eq_nil_of_length_eq_zero (by omega)
    · intro hreplies
      obtain ⟨m₁, hreceives₁, -⟩ := hs.receives
      have hsuffix := hreceives₁.suffix
      rw [hreplies, List.length_nil, Nat.add_zero] at hlen
      rw [hlen, List.drop_length, Reply.encodeAll_nil, List.suffix_nil] at hsuffix
      exact (List.append_eq_nil_iff.mp hsuffix).2
  generalize handle defaultFunctions user ac (.readable (.data chunk)) = x at hprocessed
  cases hprocessed with
  | waiting stops more => exact absurd (hcue stops.moves) more
  | @closed ac₁ ac' stops cue replies freed err calls holding =>
      have hfuture := (hopen stops).mpr replies
      refine ⟨fun _ => ⟨ac', rfl, freed, err, ?_, holding⟩, fun hne => absurd hfuture hne⟩
      rw [calls, stops.all hes hfuture]
  | hasty stops cue replies =>
      exact ⟨fun hfuture => absurd ((hopen stops).mp hfuture) replies, fun _ => rfl⟩
  | unsolicited moves replies next rest =>
      have hlen := hcount moves
      rw [replies, List.length_nil] at hlen
      omega

theorem disconnect_one_read_pieces :
    ∃ ac : RedisAsyncContext ℕ ℕ ReplyHeap Unit,
      run defaultFunctions chaining (redisAsyncConnect Heap.empty ())
        [.command (some 1) (ascii "INCR a"), .command (some 2) (ascii "INCR b"), .disconnect,
          .writable (.wrote 12)] = .ok ac ∧
      handle defaultFunctions chaining ac (.readable (.data ⟨ascii ":1\r\n:", by decide⟩)) =
        .fault .assertion := by
  obtain ⟨ac, hrun⟩ : ∃ ac, run defaultFunctions chaining (redisAsyncConnect Heap.empty ())
      [.command (some 1) (ascii "INCR a"), .command (some 2) (ascii "INCR b"), .disconnect,
        .writable (.wrote 12)] = .ok ac := ⟨_, rfl⟩
  have hstate : ac.freed = false ∧ ac.disconnecting = true ∧ ac.obuf = [] ∧
      ac.accepted.length = oneTwo.length := by
    cases hrun
    exact ⟨rfl, rfl, rfl, rfl⟩
  have hin : arrived [.command (some 1) (ascii "INCR a"), .command (some 2) (ascii "INCR b"),
      .disconnect, .writable (.wrote 12)] ++ (ascii ":1\r\n:" ++ ascii "2\r\n") =
      Reply.encodeAll oneTwo := by decide
  obtain ⟨hfreed, hd, hobuf, hall⟩ := hstate
  exact ⟨ac, hrun, (disconnect_one_read oneTwo_sound hin hrun hfreed hd hobuf hall).2 (by decide)⟩

end
end PhpHiredis.Async
