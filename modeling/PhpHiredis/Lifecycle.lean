import PhpHiredis.Modes

/-!
# The life of a connection

A `HiRedis` object finds its connection through the property "socket", which
names an entry of the list of resources. `close` frees the context of that
entry, and leaves the entry where it is; and it closes the descriptor only when
the context is marked as connected, which no connect ever does. Using a freed
context is a fault, so a call that returns has not used one.
-/
namespace PhpHiredis

open Library Reader

variable {σ : Type}

/-- What is done to the descriptor and to the context of a connection, which goes
under the number of its resource. -/
inductive Action where
  | closed (id fd : ℕ)
  | freed (id : ℕ)
  deriving DecidableEq

/-- An entry of the resource list; `freed` tells that the context has been freed. -/
structure Resource (σ : Type) where
  redis_sock : RedisSock σ
  freed : Bool

/-- An object, the list of resources, and all that was done so far. -/
structure World (σ : Type) where
  socket : Option ℕ
  list : ℕ → Option (Resource σ)
  next : ℕ
  log : List Action

def World.start : World σ := ⟨none, fun _ => none, 0, []⟩

namespace World

/-- `redis_sock_get`: the resource is looked up, and its context gets a new reader. -/
def redisSockGet (w : World σ) : Run (Option (ℕ × RedisSock σ)) :=
  match w.socket with
  | none => return none
  | some id =>
      match w.list id with
      | none => return none
      | some r =>
          if r.freed then .fault .useAfterFree
          else return some (id, PhpHiredis.redisSockGet r.redis_sock)

def store (w : World σ) (id : ℕ) (r : Option (Resource σ)) : World σ :=
  { w with list := Function.update w.list id r }

/-- A new resource. The one the property named before leaves the list; its
destructor does nothing. -/
def connect (w : World σ) (fd : ℕ) (sock : Socket σ) : World σ :=
  let dropped := match w.socket with
    | none => w
    | some id => w.store id none
  { dropped.store w.next (some ⟨.connected (redisConnect fd sock), false⟩) with
    socket := some w.next
    next := w.next + 1 }

def redisFree (w : World σ) (id : ℕ) (s : RedisSock σ) : World σ :=
  { w.store id (some ⟨s, true⟩) with
    log := w.log ++ (if s.ctx.connected then [.closed id s.ctx.fd] else []) ++ [.freed id] }

end World

/-- What a method does before `redis_sock_get`; `false` when it returns there. -/
def Call.prepare : Call → Run Bool
  | command (.hmget params) => do
      let request ← vargArgv (ascii "HMGET") true params
      return request.isSome
  | command (.delete params) => do
      let request ← vargArgv (ascii "DEL") false params
      return request.isSome
  | command (.getmultiple params) => do
      let request ← vargArgv (ascii "MGET") false params
      return request.isSome
  | _ => return true

/-- The methods of an object. A `connect` that succeeds has a descriptor and a
socket; one that fails closes what it opened, and changes nothing here. -/
inductive Op (σ : Type) where
  | connect (link : Option (ℕ × Socket σ))
  | close
  | call (c : Call)

def Op.Connects : Op σ → Prop
  | connect link => link.isSome
  | _ => False

def Op.run (peer : Peer σ) (w : World σ) : Op σ → Run (Returned × World σ)
  | connect none => return (.value .false, w)
  | connect (some (fd, sock)) => return (.value .true, w.connect fd sock)
  | close => do
      match ← w.redisSockGet with
      | none => return (.value .false, w)
      -- the pointer to the context is never `NULL`
      | some (id, s) => return (.value .true, w.redisFree id s)
  | call c => do
      if ← c.prepare then
        match ← w.redisSockGet with
        | none => return (.value .false, w)
        | some (id, s) => do
            let (ret, s) ← c.run peer s
            return (ret, w.store id (some ⟨s, false⟩))
      else return (.value .false, w)

def runOps (peer : Peer σ) : List (Op σ) → World σ → Run (World σ)
  | [], w => .ok w
  | op :: ops, w => do
      let (_, w) ← op.run peer w
      runOps peer ops w

theorem runOps_append (peer : Peer σ) (ops ops' : List (Op σ)) (w : World σ) :
    runOps peer (ops ++ ops') w = runOps peer ops w >>= runOps peer ops' := by
  induction ops generalizing w with
  | nil => rfl
  | cons op ops ih => simp only [List.cons_append, runOps, ih, bind_assoc]

/-- The descriptor of the connection in `w` has been closed exactly once in `w'`,
and its context freed exactly once. -/
def Released (w w' : World σ) : Prop :=
  ∃ id r, w.socket = some id ∧ w.list id = some r ∧
    w'.log.count (.closed id r.redis_sock.ctx.fd) = 1 ∧ w'.log.count (.freed id) = 1

/-- Up to the next successful `connect` every call returns `FALSE`. -/
def Refuses (peer : Peer σ) : World σ → List (Op σ) → Prop
  | _, [] => True
  | w, op :: ops =>
      op.Connects ∨ ∃ w', op.run peer w = .ok (.value .false, w') ∧ Refuses peer w' ops

/-- Every `close` of the sequence that returns `TRUE` releases the connection, and
the calls after it are refused. -/
def LifeCycle (peer : Peer σ) (ops : List (Op σ)) : Prop :=
  ∀ xs ys, ops = xs ++ .close :: ys → ∀ w, runOps peer xs .start = .ok w →
    ∀ w', Op.close.run peer w = .ok (.value .true, w') → Released w w' ∧ Refuses peer w' ys

section
variable {peer : Peer σ}

theorem redisBufferWrite_connected (c : ExtContext σ) (w : WriteResult) :
    (redisBufferWrite peer c w).2.2.connected = c.connected := by
  unfold redisBufferWrite
  cases w <;> simp only [] <;> split_ifs <;> rfl

theorem flush_connected (ws : List WriteResult) (c : ExtContext σ) :
    (flush peer ws c).2.connected = c.connected := by
  induction ws generalizing c with
  | nil =>
      exact redisBufferWrite_connected { c with sock := { c.sock with writes := [] } }
        (.wrote c.obuf.length)
  | cons w ws ih =>
      have hwrite := @redisBufferWrite_connected σ peer
        { c with sock := { c.sock with writes := ws } } w
      unfold flush
      split_ifs
      · rfl
      · generalize redisBufferWrite peer { c with sock := { c.sock with writes := ws } } w = r
          at hwrite ⊢
        obtain ⟨st, done, c'⟩ := r
        cases st with
        | err => exact hwrite
        | ok =>
            cases done with
            | true => exact hwrite
            | false => exact (ih c').trans hwrite

theorem redisGetReplyFromReader_connected {c c' : ExtContext σ} {st : Status}
    {reply : Option Loc} (h : redisGetReplyFromReader c = .ok (st, reply, c')) :
    c'.connected = c.connected := by
  obtain ⟨⟨st', reply', reader⟩, -, h⟩ := Outcome.bind_eq_ok.mp h
  cases st' <;> cases h <;> rfl

theorem redisBufferRead_connected {c c' : ExtContext σ} {st : Status}
    (h : redisBufferRead c = .ok (st, c')) : c'.connected = c.connected := by
  unfold redisBufferRead at h
  split at h <;> cases h <;> rfl

theorem readReply_connected {n : ℕ} {c c' : ExtContext σ} {st : Status} {reply : Option Loc}
    (h : readReply n c = .ok (st, reply, c')) : c'.connected = c.connected := by
  induction n generalizing c with
  | zero => cases h
  | succ n ih =>
      obtain ⟨⟨st₁, c₁⟩, hread, h⟩ := Outcome.bind_eq_ok.mp h
      have h₁ := redisBufferRead_connected hread
      cases st₁ with
      | err =>
          cases h
          exact h₁
      | ok =>
          obtain ⟨⟨st₂, reply₂, c₂⟩, hget, h⟩ := Outcome.bind_eq_ok.mp h
          have h₂ := (redisGetReplyFromReader_connected hget).trans h₁
          cases st₂ with
          | err =>
              cases h
              exact h₂
          | ok =>
              cases reply₂ with
              | none => exact (ih h).trans h₂
              | some obj =>
                  cases h
                  exact h₂

theorem redisGetReply_connected {c c' : ExtContext σ} {st : Status} {reply : Option Loc}
    (h : redisGetReply peer c = .ok (st, reply, c')) : c'.connected = c.connected := by
  obtain ⟨⟨st₁, reply₁, c₁⟩, hget, h⟩ := Outcome.bind_eq_ok.mp h
  have h₁ := redisGetReplyFromReader_connected hget
  cases st₁ with
  | err =>
      cases h
      exact h₁
  | ok =>
      cases reply₁ with
      | some obj =>
          cases h
          exact h₁
      | none =>
          have hflush := @flush_connected σ peer c₁.sock.writes c₁
          simp only [] at h
          generalize flush peer c₁.sock.writes c₁ = r at h hflush
          obtain ⟨st₂, c₂⟩ := r
          cases st₂ with
          | err =>
              cases h
              exact hflush.trans h₁
          | ok => exact (readReply_connected h).trans (hflush.trans h₁)

theorem readInto_connected {c c' : ExtContext σ} {x : ℕ} {z : Zval}
    (h : readInto peer c x = .ok (z, c')) : c'.connected = c.connected := by
  obtain ⟨⟨st, reply, c₁⟩, hget, h⟩ := Outcome.bind_eq_ok.mp h
  have h₁ := redisGetReply_connected hget
  simp only [] at h
  split at h
  · cases h
  · cases h
    exact h₁

theorem skipLoop_connected {heap : Heap} {n : ℕ} {p : Option ℕ} {c c' : ExtContext σ}
    (h : skipLoop peer heap n p c = .ok c') : c'.connected = c.connected := by
  induction n generalizing p c with
  | zero =>
      cases p <;> cases h
      rfl
  | succ n ih =>
      cases p with
      | none =>
          cases h
          rfl
      | some a =>
          obtain ⟨⟨z, c₁⟩, hread, h⟩ := Outcome.bind_eq_ok.mp h
          have h₁ := readInto_connected hread
          exact (ih h).trans h₁

theorem sendLoop_connected {heap : Heap} {n : ℕ} {p : Option ℕ} {c c' : ExtContext σ}
    {ret ret' : HashTable} (h : sendLoop peer heap n p c ret = .ok (ret', c')) :
    c'.connected = c.connected := by
  induction n generalizing p c ret with
  | zero =>
      cases p <;> cases h
      rfl
  | succ n ih =>
      cases p with
      | none =>
          cases h
          rfl
      | some a =>
          obtain ⟨⟨z, c₁⟩, hread, h⟩ := Outcome.bind_eq_ok.mp h
          have h₁ := readInto_connected hread
          simp only [] at h
          split at h
          · obtain ⟨es, -, h⟩ := Outcome.bind_eq_ok.mp h
            obtain ⟨tab, -, h⟩ := Outcome.bind_eq_ok.mp h
            exact (ih h).trans h₁
          · obtain ⟨t, -, h⟩ := Outcome.bind_eq_ok.mp h
            exact (ih h).trans h₁

variable {s s' : RedisSock σ} {ret : Returned}

theorem redisRunEnd_connected {fn : Validator} {closureArgs : Option (List Zval)}
    (h : redisRunEnd peer s fn closureArgs = .ok (ret, s')) :
    s'.ctx.connected = s.ctx.connected := by
  by_cases hq : s.pipeline = 0 ∧ s.multi = 0
  · rw [redisRunEnd_direct peer hq] at h
    obtain ⟨⟨z, ctx⟩, hread, h⟩ := Outcome.bind_eq_ok.mp h
    obtain ⟨t, -, h⟩ := Outcome.bind_eq_ok.mp h
    cases h
    exact readInto_connected hread
  · rw [redisRunEnd_queued peer hq] at h
    cases h
    rw [redisEnqueue_ctx]

theorem Command.run_connected {c : Command} (h : c.run peer s = .ok (ret, s')) :
    s'.ctx.connected = s.ctx.connected := by
  rw [Command.run_eq peer s (Command.fits_of_returns ⟨_, h⟩), Command.spec] at h
  cases hc : c.sent with
  | none =>
      rw [hc] at h
      cases h
      rfl
  | some ws =>
      rw [hc] at h
      let s₁ : RedisSock σ := { redisSockGet s with
        ctx := redisAppend (redisSockGet s).ctx (encodeRequest ws) }
      have hrun : redisRunEnd peer s₁ c.validator c.closureArgs = .ok (ret, s') := h
      have h₁ := redisRunEnd_connected hrun
      exact h₁

theorem Call.run_connected {call : Call} (h : call.run peer s = .ok (ret, s')) :
    s'.ctx.connected = s.ctx.connected := by
  cases call with
  | command c => exact Command.run_connected h
  | pipeline =>
      obtain ⟨-, -, rfl⟩ | ⟨-, -, rfl⟩ := pipeline_cases h
      · rfl
      · rfl
  | send =>
      obtain ⟨-, tab, ctx, hloop, -, rfl⟩ | ⟨-, -, rfl⟩ := send_cases h
      · have hctx := sendLoop_connected hloop
        exact hctx
      · rfl
  | multi =>
      obtain ⟨-, -, z, ctx, hread, hend⟩ | ⟨-, -, -, rfl⟩ | ⟨-, -, rfl⟩ := multi_cases h
      · have hctx := readInto_connected hread
        obtain ⟨-, -, rfl⟩ | ⟨-, -, rfl⟩ := multiEnd_cases hend
        · exact hctx
        · exact hctx
      · rw [opened, redisEnqueue_ctx]
        rfl
      · rfl
  | exec =>
      obtain ⟨-, ctx₁, z, ctx₂, es, tab, hskip, hread, -, -, -, rfl⟩ | ⟨-, -, -, rfl⟩ :=
        exec_cases h
      · have h₁ := skipLoop_connected hskip
        have h₂ := readInto_connected hread
        exact h₂.trans h₁
      · rfl

end

/-- No descriptor has been closed, and the context of the connection is in use. -/
structure Alive (w : World σ) : Prop where
  log : ∀ id fd, .closed id fd ∉ w.log
  resource : ∀ id, w.socket = some id → ∃ r, w.list id = some r ∧ r.freed = false ∧
    r.redis_sock.ctx.connected = false

theorem alive_start : Alive (World.start : World σ) := ⟨fun _ _ => List.not_mem_nil, nofun⟩

section
variable {peer : Peer σ} {w w' : World σ} {ret : Returned} {op : Op σ}

theorem redisSockGet_none (h : w.socket = none) : w.redisSockGet = .ok none := by
  rw [World.redisSockGet, h]
  rfl

theorem redisSockGet_resource {id : ℕ} {r : Resource σ} (hs : w.socket = some id)
    (hl : w.list id = some r) : w.redisSockGet =
      if r.freed then .fault .useAfterFree else .ok (some (id, redisSockGet r.redis_sock)) := by
  rw [World.redisSockGet, hs]
  simp only [hl]
  rfl

theorem Alive.redisSockGet (h : Alive w) {id : ℕ} (hs : w.socket = some id) :
    ∃ r, w.list id = some r ∧ r.redis_sock.ctx.connected = false ∧
      w.redisSockGet = .ok (some (id, PhpHiredis.redisSockGet r.redis_sock)) := by
  obtain ⟨r, hl, hf, hc⟩ := h.resource id hs
  refine ⟨r, hl, hc, ?_⟩
  rw [redisSockGet_resource hs hl, hf]
  rfl

theorem Alive.redisSockGet_some (h : Alive w) {id : ℕ} {s : RedisSock σ}
    (hget : w.redisSockGet = .ok (some (id, s))) :
    w.socket = some id ∧ s.ctx.connected = false := by
  cases hs : w.socket with
  | none =>
      rw [redisSockGet_none hs] at hget
      cases hget
  | some id' =>
      obtain ⟨r, -, hc, hget'⟩ := h.redisSockGet hs
      cases hget'.symm.trans hget
      exact ⟨rfl, hc⟩

theorem Op.run_socket (hop : ¬op.Connects) (h : op.run peer w = .ok (ret, w')) :
    w'.socket = w.socket := by
  cases op with
  | connect link =>
      cases link with
      | none =>
          cases h
          rfl
      | some link => exact absurd rfl hop
  | close =>
      obtain ⟨found, -, h⟩ := Outcome.bind_eq_ok.mp h
      cases found <;> cases h <;> rfl
  | call c =>
      obtain ⟨go, -, h⟩ := Outcome.bind_eq_ok.mp h
      cases go with
      | false =>
          cases h
          rfl
      | true =>
          obtain ⟨found, -, h⟩ := Outcome.bind_eq_ok.mp h
          cases found with
          | none =>
              cases h
              rfl
          | some f =>
              obtain ⟨t, -, h⟩ := Outcome.bind_eq_ok.mp h
              cases h
              rfl

theorem Op.run_connects (hop : op.Connects) (h : op.run peer w = .ok (ret, w')) :
    w'.socket ≠ none := by
  cases op with
  | connect link =>
      cases link with
      | none => cases hop
      | some link =>
          cases h
          exact Option.some_ne_none _
  | _ => exact hop.elim

theorem runOps_socket {ops : List (Op σ)} (h : runOps peer ops w = .ok w') :
    w'.socket = none ↔ w.socket = none ∧ ∀ op ∈ ops, ¬op.Connects := by
  induction ops generalizing w with
  | nil =>
      cases h
      simp
  | cons op ops ih =>
      obtain ⟨⟨ret, w₁⟩, hop, h⟩ := Outcome.bind_eq_ok.mp h
      rw [ih h, List.forall_mem_cons]
      by_cases hc : op.Connects
      · exact iff_of_false (fun h₁ => Op.run_connects hc hop h₁.1) fun h₁ => h₁.2.1 hc
      · rw [Op.run_socket hc hop]
        simp [hc]

variable (peer) in
/-- A `close` of an open connection returns `TRUE`, frees the context, and leaves
the descriptor open. -/
theorem Alive.close (h : Alive w) {id : ℕ} (hs : w.socket = some id) :
    ∃ w', Op.close.run peer w = .ok (.value .true, w') ∧ w'.log = w.log ++ [.freed id] ∧
      ¬Released w w' := by
  obtain ⟨r, hl, hc, hget⟩ := h.redisSockGet hs
  have hlog : (w.redisFree id (PhpHiredis.redisSockGet r.redis_sock)).log =
      w.log ++ [.freed id] := by
    have hflag : (PhpHiredis.redisSockGet r.redis_sock).ctx.connected = false := hc
    simp [World.redisFree, hflag]
  refine ⟨_, by rw [Op.run, hget]; rfl, hlog, ?_⟩
  rintro ⟨id', r', -, -, hclosed, -⟩
  rw [hlog, List.count_append] at hclosed
  have hnone := List.count_eq_zero_of_not_mem (h.log id' r'.redis_sock.ctx.fd)
  rw [hnone] at hclosed
  simp at hclosed

theorem Alive.step (h : Alive w) (hop : op = .close → w.socket = none)
    (hrun : op.run peer w = .ok (ret, w')) : Alive w' := by
  cases op with
  | connect link =>
      cases link with
      | none =>
          cases hrun
          exact h
      | some link =>
          cases hrun
          refine ⟨?_, fun id hid => ?_⟩
          · unfold World.connect
            cases w.socket <;> exact h.log
          · cases hid
            exact ⟨⟨.connected (redisConnect link.1 link.2), false⟩, Function.update_self .., rfl,
              rfl⟩
  | close =>
      rw [Op.run, redisSockGet_none (hop rfl)] at hrun
      cases hrun
      exact h
  | call c =>
      obtain ⟨go, -, hrun⟩ := Outcome.bind_eq_ok.mp hrun
      cases go with
      | false =>
          cases hrun
          exact h
      | true =>
          obtain ⟨found, hget, hrun⟩ := Outcome.bind_eq_ok.mp hrun
          cases found with
          | none =>
              cases hrun
              exact h
          | some f =>
              obtain ⟨id, s⟩ := f
              obtain ⟨⟨ret', s'⟩, hcall, hrun⟩ := Outcome.bind_eq_ok.mp hrun
              cases hrun
              obtain ⟨hs, hc⟩ := h.redisSockGet_some hget
              refine ⟨h.log, fun id' hid' =>
                ⟨⟨s', false⟩, ?_, rfl, (Call.run_connected hcall).trans hc⟩⟩
              obtain rfl := Option.some.inj (hs.symm.trans hid')
              exact Function.update_self ..

end

/-- As far as the law holds, every connection is in use: by induction on the calls. -/
theorem LifeCycle.alive {peer : Peer σ} {ops : List (Op σ)} (h : LifeCycle peer ops)
    (xs ys : List (Op σ)) (hops : ops = xs ++ ys) {w : World σ}
    (hrun : runOps peer xs .start = .ok w) : Alive w := by
  induction xs using List.reverseRecOn generalizing ys w with
  | nil =>
      cases hrun
      exact alive_start
  | append_singleton xs op ih =>
      rw [runOps_append] at hrun
      obtain ⟨w₁, hxs, hop⟩ := Outcome.bind_eq_ok.mp hrun
      obtain ⟨⟨ret, w₂⟩, hop, hw⟩ := Outcome.bind_eq_ok.mp hop
      cases hw
      rw [List.append_assoc, List.singleton_append] at hops
      have h₁ := ih (op :: ys) hops hxs
      refine h₁.step ?_ hop
      rintro rfl
      by_contra hs
      obtain ⟨id, hid⟩ := Option.ne_none_iff_exists'.mp hs
      obtain ⟨w', hclose, -, hnot⟩ := h₁.close peer hid
      exact hnot (h xs ys hops w₁ hxs w' hclose).1

/-- The law holds of a sequence of calls exactly when no `close` is reached after a
`connect` that succeeded. -/
theorem lifeCycle_iff (peer : Peer σ) (ops : List (Op σ)) :
    LifeCycle peer ops ↔ ∀ xs ys, ops = xs ++ .close :: ys → (runOps peer xs .start).Returns →
      ∀ op ∈ xs, ¬op.Connects := by
  constructor
  · rintro h xs ys hops ⟨w, hrun⟩
    have halive := h.alive xs (.close :: ys) hops hrun
    have hs : w.socket = none := by
      by_contra hs
      obtain ⟨id, hid⟩ := Option.ne_none_iff_exists'.mp hs
      obtain ⟨w', hclose, -, hnot⟩ := halive.close peer hid
      exact hnot (h xs ys hops w hrun w' hclose).1
    exact ((runOps_socket hrun).mp hs).2
  · intro h xs ys hops w hrun w' hclose
    have hs : w.socket = none := (runOps_socket hrun).mpr ⟨rfl, h xs ys hops ⟨w, hrun⟩⟩
    rw [Op.run, redisSockGet_none hs] at hclose
    cases hclose

/-- The first `close` leaves the descriptor open, and the second uses the freed context. -/
theorem not_lifeCycle_close_twice :
    ∃ w w', runOps silent [.connect (some (3, ⟨(), [], []⟩))] .start = .ok w ∧
      Op.close.run silent w = .ok (.value .true, w') ∧ w'.log = [.freed 0] ∧
      Op.close.run silent w' = .fault .useAfterFree ∧
      ¬LifeCycle silent [.connect (some (3, ⟨(), [], []⟩)), .close, .close] := by
  let w : World Unit := World.connect .start 3 ⟨(), [], []⟩
  let w' := w.redisFree 0 (redisSockGet (.connected (redisConnect 3 ⟨(), [], []⟩)))
  have hlog : w'.log = [.freed 0] := rfl
  refine ⟨w, w', rfl, rfl, hlog, rfl, fun h => ?_⟩
  obtain ⟨⟨id, r, -, -, hclosed, -⟩, -⟩ := h [.connect (some (3, ⟨(), [], []⟩))] [.close] rfl w rfl
    w' rfl
  rw [hlog] at hclosed
  simp at hclosed

end PhpHiredis
