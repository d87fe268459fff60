import PhpHiredis.AsyncRuns
import PhpHiredis.Library.InStep

/-!
# Adapters for event libraries

`adapters/libev.h` and `adapters/libevent.h` connect a context to the loop of an event
library: the functions that the context calls start and stop two watchers, and an
event of a watcher calls a handler of the context. An event of `libevent` leaves its
watcher stopped, one of `libev` does not. It makes no difference: with both the loop
reports what the context asked for, and nothing to a context that was freed.
-/
namespace PhpHiredis.Async

open Library Reader Objects

variable {κ ω μ υ σ ε : Type}

inductive Direction where
  | read
  | write
  deriving DecidableEq, Repr

/-- A watcher of an event library. `report` is what an event does to a watcher, before the
function of the watcher is called. -/
structure EventLibrary (σ : Type) where
  start : σ → σ
  stop : σ → σ
  report : σ → σ
  active : σ → Bool

/-- Starting an active watcher and stopping one that is not active are allowed. -/
structure EventLibrary.Documented (l : EventLibrary σ) : Prop where
  start : ∀ w, l.active (l.start w) = true
  stop : ∀ w, l.active (l.stop w) = false

/-- Events do not stop their watchers. -/
def EventLibrary.Persistent (l : EventLibrary σ) : Prop :=
  ∀ w, l.active w = true → l.active (l.report w) = true

structure RedisLibevEvents (σ : Type) where
  reading : Bool
  writing : Bool
  rev : σ
  wev : σ

section
variable (l : EventLibrary σ) (e : RedisLibevEvents σ)

def redisLibevAddRead : RedisLibevEvents σ :=
  if e.reading then e else { e with reading := true, rev := l.start e.rev }

def redisLibevDelRead : RedisLibevEvents σ :=
  if e.reading then { e with reading := false, rev := l.stop e.rev } else e

def redisLibevAddWrite : RedisLibevEvents σ :=
  if e.writing then e else { e with writing := true, wev := l.start e.wev }

def redisLibevDelWrite : RedisLibevEvents σ :=
  if e.writing then { e with writing := false, wev := l.stop e.wev } else e

def redisLibevCleanup : RedisLibevEvents σ := redisLibevDelWrite l (redisLibevDelRead l e)

/-- `w` is a watcher after `ev_io_init`. -/
def redisLibevAttach (w : σ) (data : Option (RedisLibevEvents σ)) :
    Status × Option (RedisLibevEvents σ) :=
  match data with
  | some e => (.err, some e)
  | none => (.ok, some ⟨false, false, w, w⟩)

end

structure RedisLibeventEvents (σ : Type) where
  rev : σ
  wev : σ

section
variable (l : EventLibrary σ) (e : RedisLibeventEvents σ)

def redisLibeventAddRead : RedisLibeventEvents σ := { e with rev := l.start e.rev }

def redisLibeventDelRead : RedisLibeventEvents σ := { e with rev := l.stop e.rev }

def redisLibeventAddWrite : RedisLibeventEvents σ := { e with wev := l.start e.wev }

def redisLibeventDelWrite : RedisLibeventEvents σ := { e with wev := l.stop e.wev }

def redisLibeventCleanup : RedisLibeventEvents σ := ⟨l.stop e.rev, l.stop e.wev⟩

/-- `w` is a watcher after `event_set`. -/
def redisLibeventAttach (w : σ) (data : Option (RedisLibeventEvents σ)) :
    Status × Option (RedisLibeventEvents σ) :=
  match data with
  | some e => (.err, some e)
  | none => (.ok, some ⟨w, w⟩)

end

/-- What an adapter puts into a context, and what the event library has of it. -/
structure Adapter (ε : Type) where
  hook : EventHook → ε → ε
  active : Direction → ε → Bool
  report : Direction → ε → ε

def libev (l : EventLibrary σ) : Adapter (RedisLibevEvents σ) where
  hook
    | .addRead => redisLibevAddRead l
    | .delRead => redisLibevDelRead l
    | .addWrite => redisLibevAddWrite l
    | .delWrite => redisLibevDelWrite l
    | .cleanup => redisLibevCleanup l
  active
    | .read => fun e => l.active e.rev
    | .write => fun e => l.active e.wev
  report
    | .read => fun e => { e with rev := l.report e.rev }
    | .write => fun e => { e with wev := l.report e.wev }

def libevent (l : EventLibrary σ) : Adapter (RedisLibeventEvents σ) where
  hook
    | .addRead => redisLibeventAddRead l
    | .delRead => redisLibeventDelRead l
    | .addWrite => redisLibeventAddWrite l
    | .delWrite => redisLibeventDelWrite l
    | .cleanup => redisLibeventCleanup l
  active
    | .read => fun e => l.active e.rev
    | .write => fun e => l.active e.wev
  report
    | .read => fun e => { e with rev := l.report e.rev }
    | .write => fun e => { e with wev := l.report e.wev }

/-- A context with its `data`; `released` says that the adapter has freed it. -/
structure Attached (κ ω μ υ ε : Type) where
  ac : RedisAsyncContext κ ω μ υ
  data : ε
  released : Bool

def Attached.callHooks (a : Adapter ε) : List EventHook → Attached κ ω μ υ ε →
    Run (Attached κ ω μ υ ε)
  | [], s => return s
  | h :: hooks, s =>
      if s.released then .fault .useAfterFree
      else callHooks a hooks { s with data := a.hook h s.data, released := h = .cleanup }

def Event.direction : Event κ → Option Direction
  | .readable _ => some .read
  | .writable _ => some .write
  | .command _ _ | .disconnect | .setDisconnectCallback => none

section
variable (fn : RedisReplyObjectFunctions ω μ) (user : User κ ω μ υ)

/-- A call of the context; the functions of the adapter are called in their order. -/
def Attached.handle (a : Adapter ε) (s : Attached κ ω μ υ ε) (e : Event κ) :
    Run (Attached κ ω μ υ ε) :=
  if s.ac.freed then .fault .useAfterFree
  else do
    let ac ← Async.handle fn user s.ac e
    callHooks a (ac.hooks.drop s.ac.hooks.length) { s with ac := ac }

/-- The library reports an event if its watcher is active. A call of the user is made in
any case. -/
def Attached.turn (a : Adapter ε) (s : Attached κ ω μ υ ε) (e : Event κ) :
    Run (Attached κ ω μ υ ε) :=
  match e.direction with
  | some d =>
      if a.active d s.data then handle fn user a { s with data := a.report d s.data } e
      else return s
  | none => handle fn user a s e

def Attached.run (a : Adapter ε) (s : Attached κ ω μ υ ε) : List (Event κ) →
    Run (Attached κ ω μ υ ε)
  | [] => return s
  | e :: events => do
      let s ← turn fn user a s e
      run a s events

end

def Interest.on (i : Interest) : Direction → Bool
  | .read => i.reading
  | .write => i.writing

def EventHook.Sets (h : EventHook) : Direction → Prop
  | .read => h = .addRead ∨ h = .delRead ∨ h = .cleanup
  | .write => h = .addWrite ∨ h = .delWrite ∨ h = .cleanup

/-- An adapter keeps the watchers as the context asks. After an event of a watcher this
is left open for it, until it is started or stopped again. -/
structure Adapter.Serves (a : Adapter ε) (rep : Interest → ε → Prop)
    (reported : Direction → Interest → ε → Prop) : Prop where
  active : ∀ {i e}, rep i e → ∀ d, a.active d e = i.on d
  hook : ∀ {i e}, rep i e → ∀ h, rep (i.after h) (a.hook h e)
  report : ∀ {i e d}, rep i e → i.on d = true → reported d i (a.report d e)
  set : ∀ {i e d h}, reported d i e → h.Sets d → rep (i.after h) (a.hook h e)
  other : ∀ {i e d h}, reported d i e → ¬h.Sets d → reported d (i.after h) (a.hook h e)

section
variable {l : EventLibrary σ}

/-- The flags are needed to be those of the watchers. -/
structure LibevWatches (l : EventLibrary σ) (i : Interest) (e : RedisLibevEvents σ) : Prop where
  reading : e.reading = i.reading
  writing : e.writing = i.writing
  rev : l.active e.rev = i.reading
  wev : l.active e.wev = i.writing

theorem LibevWatches.hook (hl : l.Documented) {i : Interest} {e : RedisLibevEvents σ}
    (h : LibevWatches l i e) (k : EventHook) : LibevWatches l (i.after k) ((libev l).hook k e) := by
  obtain ⟨hreading, hwriting, hrev, hwev⟩ := h
  cases k with
  | addRead =>
      simp only [libev, redisLibevAddRead]
      split_ifs with hon
      · exact ⟨hon, hwriting, hrev.trans (hreading.symm.trans hon), hwev⟩
      · exact ⟨rfl, hwriting, hl.start _, hwev⟩
  | delRead =>
      simp only [libev, redisLibevDelRead]
      split_ifs with hon
      · exact ⟨rfl, hwriting, hl.stop _, hwev⟩
      · have hoff := eq_false_of_ne_true hon
        exact ⟨hoff, hwriting, hrev.trans (hreading.symm.trans hoff), hwev⟩
  | addWrite =>
      simp only [libev, redisLibevAddWrite]
      split_ifs with hon
      · exact ⟨hreading, hon, hrev, hwev.trans (hwriting.symm.trans hon)⟩
      · exact ⟨hreading, rfl, hrev, hl.start _⟩
  | delWrite =>
      simp only [libev, redisLibevDelWrite]
      split_ifs with hon
      · exact ⟨hreading, rfl, hrev, hl.stop _⟩
      · have hoff := eq_false_of_ne_true hon
        exact ⟨hreading, hoff, hrev, hwev.trans (hwriting.symm.trans hoff)⟩
  | cleanup =>
      simp only [libev, redisLibevCleanup, redisLibevDelRead, redisLibevDelWrite]
      split_ifs with hr hw hw
      · exact ⟨rfl, rfl, hl.stop _, hl.stop _⟩
      · have hoff := eq_false_of_ne_true hw
        exact ⟨rfl, hoff, hl.stop _, hwev.trans (hwriting.symm.trans hoff)⟩
      · have hoff := eq_false_of_ne_true hr
        exact ⟨hoff, rfl, hrev.trans (hreading.symm.trans hoff), hl.stop _⟩
      · have hoff := eq_false_of_ne_true hr
        have hoff' := eq_false_of_ne_true hw
        exact ⟨hoff, hoff', hrev.trans (hreading.symm.trans hoff),
          hwev.trans (hwriting.symm.trans hoff')⟩

/-- The flags of `libev.h` are right because an event leaves its watcher active. -/
theorem libev_serves (hl : l.Documented) (hp : l.Persistent) :
    (libev l).Serves (LibevWatches l) (fun _ => LibevWatches l) where
  active h d := by
    cases d with
    | read => exact h.rev
    | write => exact h.wev
  hook h k := h.hook hl k
  report {i e d} h hon := by
    cases d with
    | read =>
        have hrev : l.active (l.report e.rev) = i.reading := (hp _ (h.rev.trans hon)).trans hon.symm
        exact ⟨h.reading, h.writing, hrev, h.wev⟩
    | write =>
        have hwev : l.active (l.report e.wev) = i.writing := (hp _ (h.wev.trans hon)).trans hon.symm
        exact ⟨h.reading, h.writing, h.rev, hwev⟩
  set h _ := h.hook hl _
  other h _ := h.hook hl _

structure LibeventWatches (l : EventLibrary σ) (i : Interest) (e : RedisLibeventEvents σ) :
    Prop where
  rev : l.active e.rev = i.reading
  wev : l.active e.wev = i.writing

/-- The other watcher, after an event. -/
def LibeventReported (l : EventLibrary σ) : Direction → Interest → RedisLibeventEvents σ → Prop
  | .read, i, e => l.active e.wev = i.writing
  | .write, i, e => l.active e.rev = i.reading

/-- The watchers of `libevent.h` may stop with an event. -/
theorem libevent_serves (hl : l.Documented) :
    (libevent l).Serves (LibeventWatches l) (LibeventReported l) where
  active h d := by
    cases d with
    | read => exact h.rev
    | write => exact h.wev
  hook h k := by
    cases k with
    | addRead => exact ⟨hl.start _, h.wev⟩
    | delRead => exact ⟨hl.stop _, h.wev⟩
    | addWrite => exact ⟨h.rev, hl.start _⟩
    | delWrite => exact ⟨h.rev, hl.stop _⟩
    | cleanup => exact ⟨hl.stop _, hl.stop _⟩
  report {i e d} h _ := by
    cases d with
    | read => exact h.wev
    | write => exact h.rev
  set {i e d k} h hset := by
    cases d with
    | read =>
        rcases hset with rfl | rfl | rfl
        · exact ⟨hl.start _, h⟩
        · exact ⟨hl.stop _, h⟩
        · exact ⟨hl.stop _, hl.stop _⟩
    | write =>
        rcases hset with rfl | rfl | rfl
        · exact ⟨h, hl.start _⟩
        · exact ⟨h, hl.stop _⟩
        · exact ⟨hl.stop _, hl.stop _⟩
  other {i e d k} h hnot := by
    cases d with
    | read =>
        cases k with
        | addRead | delRead | cleanup => simp [EventHook.Sets] at hnot
        | addWrite => exact hl.start _
        | delWrite => exact hl.stop _
    | write =>
        cases k with
        | addWrite | delWrite | cleanup => simp [EventHook.Sets] at hnot
        | addRead => exact hl.start _
        | delRead => exact hl.stop _

end

section
variable {fn : RedisReplyObjectFunctions ω μ} {user : User κ ω μ υ}
  {ac ac' : RedisAsyncContext κ ω μ υ} {quits : Prop}

/-- The adapter is told of the end last, and once. -/
theorem Moves.hooks (h : Moves quits ac ac') (hfreed : ac.freed = false) :
    ∃ hooks, ac'.hooks = ac.hooks ++ (hooks ++ if ac'.freed then [.cleanup] else []) ∧
      .cleanup ∉ hooks := by
  refine h.invariant (I := fun ac' => ∃ hooks,
    ac'.hooks = ac.hooks ++ (hooks ++ if ac'.freed then [.cleanup] else []) ∧ .cleanup ∉ hooks) ?_
    ⟨[], by simp [hfreed], List.not_mem_nil⟩
  intro ac₁ ac₂ hfreed₁ hm ⟨hooks, heq, hnot⟩
  simp only [hfreed₁, Bool.false_eq_true, if_false, List.append_nil] at heq
  cases hm with
  | disconnect | setDisconnectCallback | read | answer | fail | giveUp =>
      exact ⟨hooks, by simp [heq, hfreed₁], hnot⟩
  | command => exact ⟨hooks ++ [.addWrite], by simp [heq, hfreed₁], by simp [hnot]⟩
  | listen => exact ⟨hooks ++ [.addRead], by simp [heq, hfreed₁], by simp [hnot]⟩
  | write n =>
      refine ⟨hooks ++ [if ac₁.obuf.drop n = [] then .delWrite else .addWrite, .addRead], ?_, ?_⟩
      · simp [heq, hfreed₁]
      · split_ifs <;> simp [hnot]
  | close => exact ⟨hooks, by simp [heq], hnot⟩

/-- Whatever comes after it, a call of a function stays one of the calls. -/
theorem Moves.called {ac₁ : RedisAsyncContext κ ω μ υ} {hook : EventHook} (h : Moves quits ac₁ ac')
    (hfreed : ac₁.freed = false) (hcall : ac₁.hooks = ac.hooks ++ [hook]) :
    hook ∈ ac'.hooks.drop ac.hooks.length := by
  obtain ⟨hooks, heq, -⟩ := h.hooks hfreed
  rw [heq, hcall, List.append_assoc, List.drop_left]
  exact List.mem_append_left _ List.mem_cons_self

theorem Moves.cleaned (h : Moves quits ac ac') (hfreed : ac.freed = false)
    (hgone : ac'.freed = true) :
    .cleanup ∈ ac'.hooks.drop ac.hooks.length := by
  obtain ⟨hooks, heq, -⟩ := h.hooks hfreed
  rw [heq, hgone, List.drop_left]
  simp

theorem handle_moves_any {e : Event κ} (hrun : Async.handle fn user ac e = .ok ac')
    (hfreed : ac.freed = false) (herr : ac.err = none) :
    Moves True ac ac' ∧ (ac'.freed = true ∨ ac'.err = none) :=
  handle_moves (fun _ _ _ _ _ => trivial) (fun _ => trivial) hrun hfreed herr

theorem failed_sets {err : ErrType × Bytes} {d : Direction}
    (hrun : disconnectNow fn user { ac with err := some err } = .ok ac')
    (hfreed : ac.freed = false) :
    ∃ hook ∈ ac'.hooks.drop ac.hooks.length, hook.Sets d := by
  have hfailed : Moves True ac ac' ∧ ac'.freed = true := failed_moves (r := ac.reader) hrun hfreed
  refine ⟨.cleanup, hfailed.1.cleaned hfreed hfailed.2, ?_⟩
  cases d with
  | read => exact .inr (.inr rfl)
  | write => exact .inr (.inr rfl)

theorem received_sets {ac₁ : RedisAsyncContext κ ω μ υ} {n : ℕ}
    (hrun : processCallbacksFor fn user n ac₁ = .ok ac') (hfreed : ac₁.freed = false)
    (herr : ac₁.err = none) (hcall : ac₁.hooks = ac.hooks ++ [.addRead]) :
    ∃ hook ∈ ac'.hooks.drop ac.hooks.length, hook.Sets .read := by
  have hmoves : Moves True ac₁ ac' ∧ (ac'.freed = true ∨ ac'.err = none) :=
    processCallbacksFor_moves (fun _ _ _ _ _ => trivial) hrun hfreed herr
  exact ⟨.addRead, hmoves.1.called hfreed hcall, .inl rfl⟩

theorem handle_sets {e : Event κ} {d : Direction} (hd : e.direction = some d)
    (hrun : Async.handle fn user ac e = .ok ac') (hfreed : ac.freed = false)
    (herr : ac.err = none) :
    ∃ hook ∈ ac'.hooks.drop ac.hooks.length, hook.Sets d := by
  cases e with
  | command | disconnect | setDisconnectCallback => cases hd
  | readable result =>
      cases hd
      cases result with
      | data chunk => exact received_sets hrun hfreed herr rfl
      | again => exact received_sets hrun hfreed herr rfl
      | error msg => exact failed_sets hrun hfreed
      | eof => exact failed_sets hrun hfreed
  | writable result =>
      cases hd
      simp only [Async.handle, redisAsyncHandleWrite] at hrun
      split_ifs at hrun
      · cases hrun
        exact ⟨.delWrite, by simp, .inr (.inl rfl)⟩
      · cases result with
        | error msg => exact failed_sets hrun hfreed
        | again =>
            cases hrun
            exact ⟨.addWrite, by simp, .inl rfl⟩
        | wrote n =>
            cases hrun
            refine
              ⟨if ac.obuf.drop (min n ac.obuf.length) = [] then .delWrite else .addWrite, ?_, ?_⟩
            · rw [List.drop_left]
              exact List.mem_cons_self
            · split_ifs
              · exact .inr (.inl rfl)
              · exact .inl rfl

end

section
variable {a : Adapter ε} {rep : Interest → ε → Prop} {reported : Direction → Interest → ε → Prop}

theorem Adapter.Serves.hooks (ha : a.Serves rep reported) {i : Interest} {e : ε} (h : rep i e)
    (hooks : List EventHook) :
    rep (hooks.foldl Interest.after i) (hooks.foldl (fun e h => a.hook h e) e) := by
  induction hooks generalizing i e with
  | nil => exact h
  | cons hook hooks ih => exact ih (ha.hook h hook)

theorem Adapter.Serves.settled (ha : a.Serves rep reported) {i : Interest} {e : ε} {d : Direction}
    (h : reported d i e) {hooks : List EventHook} (hset : ∃ hook ∈ hooks, hook.Sets d) :
    rep (hooks.foldl Interest.after i) (hooks.foldl (fun e h => a.hook h e) e) := by
  induction hooks generalizing i e with
  | nil => simp at hset
  | cons hook hooks ih =>
      by_cases hhook : hook.Sets d
      · exact ha.hooks (ha.set h hhook) hooks
      · apply ih (ha.other h hhook)
        simpa [hhook] using hset

/-- Nothing is called after `cleanup`. -/
theorem callHooks_eq (hooks : List EventHook) (s : Attached κ ω μ υ ε) (released : Bool)
    (hnot : .cleanup ∉ hooks) (hs : s.released = false) :
    Attached.callHooks a (hooks ++ if released then [.cleanup] else []) s = .ok { s with
      data := (hooks ++ if released then [EventHook.cleanup] else []).foldl
        (fun e h => a.hook h e) s.data
      released := released } := by
  induction hooks generalizing s with
  | nil =>
      cases released with
      | false =>
          obtain ⟨ac, data, released⟩ := s
          subst hs
          rfl
      | true => simp [Attached.callHooks, hs]
  | cons hook hooks ih =>
      rw [List.mem_cons, not_or] at hnot
      have hhook : (decide (hook = .cleanup)) = false := decide_eq_false (Ne.symm hnot.1)
      rw [List.cons_append, Attached.callHooks, hs, if_neg Bool.false_ne_true, hhook]
      exact ih _ hnot.2 rfl

/-- A context that was freed has no error that is left, and asks for nothing. -/
structure Settles (ac : RedisAsyncContext κ ω μ υ) : Prop where
  here : ac.freed = true ∨ ac.err = none
  gone : ac.freed = true → ac.interest = ⟨false, false⟩

structure Attends (a : Adapter ε) (rep : Interest → ε → Prop) (s : Attached κ ω μ υ ε)
    (ac : RedisAsyncContext κ ω μ υ) : Prop where
  context : s.ac = ac
  released : s.released = ac.freed
  data : rep ac.interest s.data
  settles : Settles ac

/-- The state in which the handler of an event is called. -/
def Called (rep : Interest → ε → Prop) (reported : Direction → Interest → ε → Prop) (e : Event κ)
    (i : Interest) (data : ε) : Prop :=
  (e.direction = none ∧ rep i data) ∨ ∃ d, e.direction = some d ∧ reported d i data

variable {fn : RedisReplyObjectFunctions ω μ} {user : User κ ω μ υ}
  {s : Attached κ ω μ υ ε} {ac : RedisAsyncContext κ ω μ υ}

theorem handle_settles {e : Event κ} {ac' : RedisAsyncContext κ ω μ υ}
    (hrun : Async.handle fn user ac e = .ok ac') (hfreed : ac.freed = false)
    (herr : ac.err = none) :
    Settles ac' := by
  obtain ⟨hm, hhere⟩ := handle_moves_any hrun hfreed herr
  refine ⟨hhere, fun hgone => ?_⟩
  obtain ⟨hooks, heq, -⟩ := hm.hooks hfreed
  rw [hgone, if_pos rfl] at heq
  rw [interest_append heq, List.foldl_append]
  rfl

/-- One call of a context, with its adapter and without. -/
theorem Adapter.Serves.handle (ha : a.Serves rep reported) {e : Event κ} (hac : s.ac = ac)
    (hreleased : s.released = false) (hfreed : ac.freed = false) (herr : ac.err = none)
    (hdata : Called rep reported e ac.interest s.data) :
    InStep (Attends a rep) (s.handle fn user a e) (Async.handle fn user ac e) := by
  subst hac
  rw [Attached.handle, hfreed, if_neg Bool.false_ne_true]
  generalize hrun : Async.handle fn user s.ac e = x
  cases x with
  | fault f => exact .fault f
  | blocked => exact .blocked
  | ok ac' =>
      obtain ⟨hm, -⟩ := handle_moves_any hrun hfreed herr
      obtain ⟨hooks, heq, hnot⟩ := hm.hooks hfreed
      have hdrop : ac'.hooks.drop s.ac.hooks.length =
          hooks ++ if ac'.freed then [.cleanup] else [] := by
        rw [heq, List.drop_left]
      rw [Outcome.ok_bind, hdrop, callHooks_eq hooks { s with ac := ac' } ac'.freed hnot hreleased]
      refine .ok ⟨rfl, rfl, ?_, handle_settles hrun hfreed herr⟩
      rw [interest_append heq]
      rcases hdata with ⟨-, hrep⟩ | ⟨d, hd, hreported⟩
      · exact ha.hooks hrep _
      · apply ha.settled hreported
        rw [← hdrop]
        exact handle_sets hd hrun hfreed herr

/-- The loop reports an event that was asked for; a call of the user is made in any case. -/
def RedisAsyncContext.hears (ac : RedisAsyncContext κ ω μ υ) (e : Event κ) : Bool :=
  match e.direction with
  | some d => ac.interest.on d
  | none => true

/-- What a context hears of: the calls of its user, and the events that it has asked for
when they happen. After a fault nothing is heard. -/
def heard (fn : RedisReplyObjectFunctions ω μ) (user : User κ ω μ υ)
    (ac : RedisAsyncContext κ ω μ υ) :
    List (Event κ) → List (Event κ)
  | [] => []
  | e :: events =>
      if ac.hears e then
        e :: match Async.run fn user ac [e] with
          | .ok ac => heard fn user ac events
          | _ => []
      else heard fn user ac events

/-- The user calls the context only while it is there. -/
def Careful (fn : RedisReplyObjectFunctions ω μ) (user : User κ ω μ υ)
    (ac : RedisAsyncContext κ ω μ υ) (events : List (Event κ)) : Prop :=
  ∀ before e after, events = before ++ e :: after → e.direction = none →
    ∀ ac', Async.run fn user ac (heard fn user ac before) = .ok ac' → ac'.freed = false

theorem heard_sublist (ac : RedisAsyncContext κ ω μ υ) (events : List (Event κ)) :
    (heard fn user ac events).Sublist events := by
  induction events generalizing ac with
  | nil => exact List.Sublist.slnil
  | cons e events ih =>
      rw [heard]
      split_ifs
      · apply List.Sublist.cons_cons
        split
        · exact ih _
        · exact List.nil_sublist _
      · exact (ih ac).cons e

theorem run_one {e : Event κ} (hfreed : ac.freed = false) :
    Async.run fn user ac [e] = Async.handle fn user ac e := by
  rw [Async.run, hfreed, if_neg Bool.false_ne_true]
  exact bind_pure _

theorem run_cons (e : Event κ) (events : List (Event κ)) :
    Async.run fn user ac (e :: events) =
      Async.run fn user ac [e] >>= fun ac => Async.run fn user ac events := by
  cases hfreed : ac.freed with
  | true => rw [Async.run, Async.run, hfreed, if_pos rfl, if_pos rfl, Outcome.fault_bind]
  | false => rw [run_one hfreed, Async.run, hfreed, if_neg Bool.false_ne_true]

theorem run_heard_cons {e : Event κ} (hhears : ac.hears e = true) (events : List (Event κ)) :
    Async.run fn user ac (heard fn user ac (e :: events)) =
      Async.run fn user ac [e] >>= fun ac => Async.run fn user ac (heard fn user ac events) := by
  rw [heard, if_pos hhears, run_cons]
  cases Async.run fn user ac [e] with
  | ok ac₁ => rfl
  | fault f => rfl
  | blocked => rfl

theorem Settles.hears (h : Settles ac) {e : Event κ} {d : Direction} (hd : e.direction = some d)
    (he : ac.hears e = true) : ac.freed = false := by
  by_contra hgone
  rw [Bool.not_eq_false] at hgone
  unfold RedisAsyncContext.hears at he
  rw [hd, h.gone hgone] at he
  cases d <;> cases he

theorem Careful.next {e : Event κ} {events : List (Event κ)} (h : Careful fn user ac (e :: events))
    (hhears : ac.hears e = true) {ac₁ : RedisAsyncContext κ ω μ υ}
    (hrun : Async.run fn user ac [e] = .ok ac₁) : Careful fn user ac₁ events := by
  intro before e' after heq hd ac' hbefore
  refine h (e :: before) e' after (by rw [heq]; rfl) hd ac' ?_
  rw [run_heard_cons hhears, hrun]
  exact hbefore

theorem Careful.skip {e : Event κ} {events : List (Event κ)} (h : Careful fn user ac (e :: events))
    (hhears : ¬ac.hears e = true) : Careful fn user ac events := by
  intro before e' after heq hd ac' hbefore
  refine h (e :: before) e' after (by rw [heq]; rfl) hd ac' ?_
  rw [heard, if_neg hhears]
  exact hbefore

theorem Careful.here {e : Event κ} {events : List (Event κ)} (h : Careful fn user ac (e :: events))
    (hsettles : Settles ac) (hhears : ac.hears e = true) : ac.freed = false := by
  cases hd : e.direction with
  | none => exact h [] e events rfl hd ac rfl
  | some d => exact hsettles.hears hd hhears

theorem Adapter.Serves.turn (ha : a.Serves rep reported) (fn : RedisReplyObjectFunctions ω μ)
    (user : User κ ω μ υ) (h : Attends a rep s ac) (e : Event κ) :
    InStep (Attends a rep) (s.turn fn user a e)
      (if ac.hears e then Async.run fn user ac [e] else .ok ac) := by
  have hcontext := h.context
  subst hcontext
  have hgo : ∀ {data : ε}, s.ac.freed = false → Called rep reported e s.ac.interest data →
      InStep (Attends a rep) ({ s with data := data }.handle fn user a e)
        (Async.run fn user s.ac [e]) := by
    intro data hfreed hdata
    rw [run_one hfreed]
    exact ha.handle rfl (h.released.trans hfreed) hfreed
      (h.settles.here.resolve_left (by simp [hfreed])) hdata
  unfold Attached.turn RedisAsyncContext.hears
  cases hd : e.direction with
  | none =>
      rw [if_pos rfl]
      cases hfreed : s.ac.freed with
      | false => exact hgo hfreed (.inl ⟨hd, h.data⟩)
      | true =>
          simp only [Attached.handle, Async.run, hfreed, if_true]
          exact .fault Fault.useAfterFree
  | some d =>
      simp only [ha.active h.data]
      by_cases hon : s.ac.interest.on d = true
      · have hfreed : s.ac.freed = false := h.settles.hears hd (by
          rw [RedisAsyncContext.hears, hd]
          exact hon)
        rw [if_pos hon, if_pos hon]
        exact hgo hfreed (.inr ⟨d, hd, ha.report h.data hon⟩)
      · rw [if_neg hon, if_neg hon]
        exact .ok h

/-- A loop, and the context alone with the events that it hears of. -/
theorem Adapter.Serves.run (ha : a.Serves rep reported) (h : Attends a rep s ac)
    (events : List (Event κ)) :
    InStep (Attends a rep) (s.run fn user a events)
      (Async.run fn user ac (heard fn user ac events)) := by
  induction events generalizing s ac with
  | nil => exact .ok h
  | cons e events ih =>
      have hturn := ha.turn fn user h e
      rw [Attached.run]
      by_cases hhears : ac.hears e = true
      · rw [if_pos hhears] at hturn
        rw [run_heard_cons hhears]
        exact hturn.bind fun _ _ => ih
      · rw [if_neg hhears] at hturn
        rw [heard, if_neg hhears]
        exact hturn.bind (g := fun ac => Async.run fn user ac (heard fn user ac events))
          fun _ _ => ih

/-- A fault is the handler's own: the context was there when it was called. -/
theorem heard_fault {f : Fault} {events : List (Event κ)} (h : Settles ac)
    (hcareful : Careful fn user ac events)
    (hrun : Async.run fn user ac (heard fn user ac events) = .fault f) :
    ∃ before e after ac', heard fn user ac events = before ++ e :: after ∧
      Async.run fn user ac before = .ok ac' ∧ ac'.freed = false ∧
      Async.handle fn user ac' e = .fault f := by
  induction events generalizing ac with
  | nil => cases hrun
  | cons e events ih =>
      by_cases hhears : ac.hears e = true
      · have hfreed := hcareful.here h hhears
        rw [run_heard_cons hhears] at hrun
        rw [heard, if_pos hhears]
        cases hone : Async.run fn user ac [e] with
        | fault f' =>
            rw [hone] at hrun
            cases hrun
            exact ⟨[], e, _, ac, rfl, rfl, hfreed, (run_one hfreed).symm.trans hone⟩
        | blocked =>
            rw [hone] at hrun
            cases hrun
        | ok ac₁ =>
            rw [hone, Outcome.ok_bind] at hrun
            have hhandle := (run_one hfreed).symm.trans hone
            have hsettles := handle_settles hhandle hfreed (h.here.resolve_left (by simp [hfreed]))
            obtain ⟨before, e', after, ac', heq, hbefore, hthere, hfault⟩ :=
              ih hsettles (hcareful.next hhears hone) hrun
            refine ⟨e :: before, e', after, ac', ?_, ?_, hthere, hfault⟩
            · simp only [heq, List.cons_append]
            · rw [run_cons, hone]
              exact hbefore
      · rw [heard, if_neg hhears] at hrun ⊢
        exact ih h (hcareful.skip hhears) hrun

end

/-- The watchers of a context in a loop. As long as the context is there, what is left to be
sent and, after the first bytes, what comes from the peer will be heard of. -/
structure Tended (a : Adapter ε) (s : Attached κ ω μ υ ε) (ac : RedisAsyncContext κ ω μ υ) :
    Prop where
  context : s.ac = ac
  active : ∀ d, a.active d s.data = ac.interest.on d
  released : s.released = ac.freed
  gone : ac.freed = true → ∀ d, a.active d s.data = false
  writes : ac.freed = false → ac.obuf ≠ [] → a.active .write s.data = true
  reads : ac.freed = false → ac.sent ≠ [] → a.active .read s.data = true

section
variable {a : Adapter ε} {rep : Interest → ε → Prop} {reported : Direction → Interest → ε → Prop}
  {fn : RedisReplyObjectFunctions ω μ} {user : User κ ω μ υ}

theorem Adapter.Serves.tended (ha : a.Serves rep reported) {s : Attached κ ω μ υ ε}
    {ac : RedisAsyncContext κ ω μ υ} (h : Attends a rep s ac) (horderly : Orderly ac) :
    Tended a s ac := by
  have hactive := ha.active h.data
  refine ⟨h.context, hactive, h.released, fun hgone d => ?_, fun hhere hobuf => ?_,
    fun hhere hsent => ?_⟩
  · rw [hactive, h.settles.gone hgone]
    cases d <;> rfl
  · rw [hactive]
    exact horderly.writing hhere hobuf
  · rw [hactive]
    exact horderly.reading hhere hsent

theorem settles_connect (mem : μ) (state : υ) :
    Settles (redisAsyncConnect mem state : RedisAsyncContext κ ω μ υ) :=
  ⟨.inr rfl, nofun⟩

theorem Adapter.Serves.loop (ha : a.Serves rep reported) {data : ε}
    (hdata : rep ⟨false, false⟩ data)
    (mem : μ) (state : υ) (events : List (Event κ)) :
    InStep (Tended a) (Attached.run fn user a ⟨redisAsyncConnect mem state, data, false⟩ events)
      (Async.run fn user (redisAsyncConnect mem state)
        (heard fn user (redisAsyncConnect mem state) events)) := by
  have hstart : Attends a rep (⟨redisAsyncConnect mem state, data, false⟩ : Attached κ ω μ υ ε)
      (redisAsyncConnect mem state) := ⟨rfl, rfl, hdata, settles_connect mem state⟩
  apply (ha.run hstart events).imp
  intro s ac hrun h
  exact ha.tended h (run_orderly hrun)

/-- The two adapters, each in the loop of its library, with the same events: both contexts
hear of those that `heard` names, whether the library stops a watcher with its event or
not, and do what the context does alone. In each state the active watchers are
those that the context asked for, so no byte is left unsent or unread for want of a
watcher; none is active after the end. If the user does not call a context that was
freed, neither a context nor the data of an adapter is used after it was freed: what
fails is a handler that was called for a context that was there. -/
theorem adapters_run {τ : Type} {l : EventLibrary σ} {l' : EventLibrary τ} (hl : l.Documented)
    (hp : l.Persistent) (hl' : l'.Documented) {w : σ} {w' : τ} (hw : l.active w = false)
    (hw' : l'.active w' = false) (mem : μ) (state : υ) (events : List (Event κ)) :
    ∃ e e' told, redisLibevAttach w none = (.ok, some e) ∧
      redisLibeventAttach w' none = (.ok, some e') ∧
      told = heard fn user (redisAsyncConnect mem state) events ∧ told.Sublist events ∧
      InStep (Tended (libev l))
        (Attached.run fn user (libev l) ⟨redisAsyncConnect mem state, e, false⟩ events)
        (Async.run fn user (redisAsyncConnect mem state) told) ∧
      InStep (Tended (libevent l'))
        (Attached.run fn user (libevent l') ⟨redisAsyncConnect mem state, e', false⟩ events)
        (Async.run fn user (redisAsyncConnect mem state) told) ∧
      (Careful fn user (redisAsyncConnect mem state) events →
        ∀ f, Async.run fn user (redisAsyncConnect mem state) told = .fault f →
          ∃ before e after ac, told = before ++ e :: after ∧
            Async.run fn user (redisAsyncConnect mem state) before = .ok ac ∧ ac.freed = false ∧
            Async.handle fn user ac e = .fault f) := by
  refine ⟨_, _, _, rfl, rfl, rfl, heard_sublist _ events, ?_, ?_, ?_⟩
  · exact (libev_serves hl hp).loop ⟨rfl, rfl, hw, hw⟩ mem state events
  · exact (libevent_serves hl').loop ⟨hw', hw'⟩ mem state events
  · intro hcareful f hrun
    exact heard_fault (settles_connect mem state) hcareful hrun

/-- Watchers that stay active, and watchers that stop with their event. -/
def persistent : EventLibrary Bool := ⟨fun _ => true, fun _ => false, id, id⟩

def oneShot : EventLibrary Bool := ⟨fun _ => true, fun _ => false, fun _ => false, id⟩

theorem careful_cutShort :
    Careful defaultFunctions chaining (redisAsyncConnect Trees.Heap.empty ()) cutShort := by
  intro before e after heq hd ac' hrun
  cases before with
  | nil =>
      cases hrun
      rfl
  | cons first before =>
      have hrest : ∀ x ∈ cutShort.tail, x.direction ≠ none := by
        simp [cutShort, Event.direction]
      have hmem : e ∈ cutShort.tail := by
        rw [heq]
        simp
      exact absurd hd (hrest e hmem)

theorem adapters_run_cutShort :
    ∃ e e' told, redisLibevAttach false none = (.ok, some e) ∧
      redisLibeventAttach false none = (.ok, some e') ∧
      told = heard defaultFunctions chaining (redisAsyncConnect Trees.Heap.empty ()) cutShort ∧
      InStep (Tended (libev persistent))
        (Attached.run defaultFunctions chaining (libev persistent)
          ⟨redisAsyncConnect Trees.Heap.empty (), e, false⟩ cutShort)
        (Async.run defaultFunctions chaining (redisAsyncConnect Trees.Heap.empty ()) told) ∧
      InStep (Tended (libevent oneShot))
        (Attached.run defaultFunctions chaining (libevent oneShot)
          ⟨redisAsyncConnect Trees.Heap.empty (), e', false⟩ cutShort)
        (Async.run defaultFunctions chaining (redisAsyncConnect Trees.Heap.empty ()) told) ∧
      ∀ f,
        Async.run defaultFunctions chaining (redisAsyncConnect Trees.Heap.empty ()) told =
            .fault f →
        ∃ before e after ac, told = before ++ e :: after ∧
          Async.run defaultFunctions chaining (redisAsyncConnect Trees.Heap.empty ()) before =
            .ok ac ∧ ac.freed = false ∧ Async.handle defaultFunctions chaining ac e = .fault f := by
  have hpersistent : persistent.Documented := ⟨fun _ => rfl, fun _ => rfl⟩
  have honeShot : oneShot.Documented := ⟨fun _ => rfl, fun _ => rfl⟩
  have hstays : persistent.Persistent := fun _ h => h
  have hoff : persistent.active false = false := rfl
  have hoff' : oneShot.active false = false := rfl
  obtain ⟨e, e', told, hattach, hattach', htold, -, hrun, hrun', hfaults⟩ :=
    @adapters_run _ _ _ _ _ defaultFunctions chaining _ _ _ hpersistent hstays honeShot _ _ hoff
      hoff' Trees.Heap.empty () cutShort
  exact ⟨e, e', told, hattach, hattach', htold, hrun, hrun', hfaults careful_cutShort⟩

end
end PhpHiredis.Async
