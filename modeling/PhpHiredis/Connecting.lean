import PhpHiredis.Zval
import Mathlib.Data.List.Nodup

/-!
# Descriptors

`net.c`: how a context gets its descriptor, over TCP or over a local socket, blocking or
not. The kernel may refuse every one of the calls; a call on a descriptor that is not open
is a fault. The processes here make any number of contexts and free them again.
-/
namespace PhpHiredis.Net

open Library

/-- The addresses that the kernel gets. -/
inductive Address where
  | inet (ip port : ℕ)
  | local (name : Bytes)
  deriving DecidableEq, Repr

/-- Where a context shall be connected to. -/
inductive Target where
  | tcp (addr : Bytes) (port : ℤ)
  | unix (path : Bytes)
  deriving DecidableEq, Repr

inductive ConnectResult where
  | done
  | inProgress
  | failed (msg : Bytes)
  deriving DecidableEq, Repr

/-- What the calls return that are made for one context; an error has the text of its
`errno`. `junk` is the last byte of `sun_path`, which nothing sets. -/
structure Answers where
  socket : Except Bytes ℕ
  reuseAddr : Option Bytes
  getFlags : Option Bytes
  setFlags : Option Bytes
  inetAton : Bytes → Option ℕ
  gethostbyname : Bytes → Option ℕ
  connect : Address → ConnectResult
  noDelay : Option Bytes
  junk : UInt8

/-- The open descriptors, each with whether it blocks. -/
abbrev Descriptors := ℕ → Option Bool

namespace Descriptors

def call {α : Type} (d : Descriptors) (fd : ℕ) (answer : α) : Run α :=
  match d fd with
  | some _ => .ok answer
  | none => .fault .useAfterFree

def store (d : Descriptors) (fd : ℕ) (blocks : Bool) : Descriptors :=
  Function.update d fd (some blocks)

def close (d : Descriptors) (fd : ℕ) : Run Descriptors := do
  d.call fd ()
  return Function.update d fd none

end Descriptors

inductive ErrType where
  | io
  | other
  deriving DecidableEq, Repr

/-- `connected` is the bit `REDIS_CONNECTED` of the flags, `block` the bit `REDIS_BLOCK`. -/
structure RedisContext where
  block : Bool
  connected : Bool
  fd : ℕ
  err : Option (ErrType × Bytes)
  deriving DecidableEq, Repr

def redisContextInit (block : Bool) : RedisContext := ⟨block, false, 0, none⟩

def redisSetError (c : RedisContext) (type : ErrType) (errstr : Bytes) : RedisContext :=
  { c with err := some (type, errstr) }

/-- The `strncpy` into `sun_path`: what it leaves there up to the first NUL. -/
def sunPath (path : Bytes) (junk : UInt8) : Bytes :=
  let name := (path.takeWhile (· ≠ 0)).take 107
  if name.length < 107 ∨ junk = 0 then name else name ++ [junk]

section
variable (a : Answers)

/-- The functions return `none` where the source returns `REDIS_ERR`. -/
def redisCreateSocket (c : RedisContext) (d : Descriptors) (inet : Bool) :
    Run (Option ℕ × RedisContext × Descriptors) :=
  match a.socket with
  | .error msg => return (none, redisSetError c .io msg, d)
  | .ok s => do
      let d := d.store s true
      if inet then
        match ← d.call s a.reuseAddr with
        | some msg =>
            let d ← d.close s
            return (none, redisSetError c .io msg, d)
        | none => return (some s, c, d)
      else return (some s, c, d)

def redisSetNonBlock (c : RedisContext) (d : Descriptors) (fd : ℕ) :
    Run (Option Unit × RedisContext × Descriptors) := do
  match ← d.call fd a.getFlags with
  | some msg =>
      let d ← d.close fd
      return (none, redisSetError c .io (ascii "fcntl(F_GETFL): " ++ msg), d)
  | none =>
      match ← d.call fd a.setFlags with
      | some msg =>
          let d ← d.close fd
          return (none, redisSetError c .io (ascii "fcntl(F_SETFL,O_NONBLOCK): " ++ msg), d)
      | none => return (some (), c, d.store fd false)

def redisSetTcpNoDelay (c : RedisContext) (d : Descriptors) (fd : ℕ) :
    Run (Option Unit × RedisContext) := do
  match ← d.call fd a.noDelay with
  | some msg => return (none, redisSetError c .io (ascii "setsockopt(TCP_NODELAY): " ++ msg))
  | none => return (some (), c)

/-- The call of `connect`, which both functions make alike. -/
def connectTo (c : RedisContext) (d : Descriptors) (s : ℕ) (sa : Address) :
    Run (Option Unit × RedisContext × Descriptors) := do
  match ← d.call s (a.connect sa) with
  | .done => return (some (), c, d)
  | .inProgress =>
      if c.block then
        let d ← d.close s
        return (none, redisSetError c .io (ascii "Operation now in progress"), d)
      else return (some (), c, d)
  | .failed msg =>
      let d ← d.close s
      return (none, redisSetError c .io msg, d)

/-- A descriptor is made nonblocking where the context is. -/
def setMode (c : RedisContext) (d : Descriptors) (s : ℕ) :
    Run (Option Unit × RedisContext × Descriptors) :=
  if c.block then return (some (), c, d) else redisSetNonBlock a c d s

def redisContextConnectTcp (c : RedisContext) (d : Descriptors) (addr : Bytes) (port : ℤ) :
    Run (RedisContext × Descriptors) := do
  let (s, c, d) ← redisCreateSocket a c d true
  match s with
  | none => return (c, d)
  | some s =>
      let (mode, c, d) ← setMode a c d s
      match mode with
      | none => return (c, d)
      | some () =>
          match (a.inetAton addr).orElse fun _ => a.gethostbyname addr with
          | none =>
              let d ← d.close s
              return (redisSetError c .other (ascii "Can't resolve: " ++ addr), d)
          | some ip =>
              -- `htons` takes an `unsigned short`
              let (connected, c, d) ← connectTo a c d s (.inet ip (port % 2 ^ 16).toNat)
              match connected with
              | none => return (c, d)
              | some () =>
                  let (delay, c) ← redisSetTcpNoDelay a c d s
                  match delay with
                  | none =>
                      let d ← d.close s
                      return (c, d)
                  | some () => return ({ c with fd := s }, d)

def redisContextConnectUnix (c : RedisContext) (d : Descriptors) (path : Bytes) :
    Run (RedisContext × Descriptors) := do
  let (s, c, d) ← redisCreateSocket a c d false
  match s with
  | none => return (c, d)
  | some s =>
      let (mode, c, d) ← setMode a c d s
      match mode with
      | none => return (c, d)
      | some () =>
          let (connected, c, d) ← connectTo a c d s (.local (sunPath path a.junk))
          match connected with
          | none => return (c, d)
          | some () => return ({ c with fd := s }, d)

/-- `redisConnect`, `redisConnectNonBlock`, `redisConnectUnix` and
`redisConnectUnixNonBlock`. -/
def connect (block : Bool) (target : Target) (d : Descriptors) : Run (RedisContext × Descriptors) :=
  match target with
  | .tcp addr port => redisContextConnectTcp a (redisContextInit block) d addr port
  | .unix path => redisContextConnectUnix a (redisContextInit block) d path

end

/-- The descriptor is closed if the context is marked as connected. -/
def redisFree (c : RedisContext) (d : Descriptors) : Run Descriptors :=
  if c.connected then d.close c.fd else return d

namespace Descriptors
variable {d : Descriptors} {s : ℕ}

@[simp] theorem call_store {α : Type} (d : Descriptors) (s : ℕ) (blocks : Bool) (answer : α) :
    (d.store s blocks).call s answer = .ok answer := by
  rw [call, store, Function.update_self]

@[simp] theorem store_store (d : Descriptors) (s : ℕ) (b b' : Bool) :
    (d.store s b).store s b' = d.store s b' := Function.update_idem _ _ _

theorem close_store (h : d s = none) (blocks : Bool) : (d.store s blocks).close s = .ok d := by
  have hback : Function.update (d.store s blocks) s none = d := by
    rw [store, Function.update_idem, ← h, Function.update_eq_self]
  rw [close, call_store, Outcome.ok_bind, hback]
  rfl

end Descriptors

open Descriptors

section
variable {a : Answers} {c : RedisContext} {d : Descriptors} {s : ℕ}

theorem redisCreateSocket_spec (hfree : ∀ s, a.socket = .ok s → d s = none) (inet : Bool) :
    (∃ err, redisCreateSocket a c d inet = .ok (none, { c with err := some err }, d) ∧
      ((∀ s, a.socket ≠ .ok s) ∨ inet = true ∧ a.reuseAddr ≠ none)) ∨
    ∃ s, redisCreateSocket a c d inet = .ok (some s, c, d.store s true) ∧ a.socket = .ok s ∧
      (inet = true → a.reuseAddr = none) := by
  unfold redisCreateSocket
  cases hsocket : a.socket with
  | error msg => exact .inl ⟨_, rfl, .inl nofun⟩
  | ok s =>
      cases inet with
      | false => exact .inr ⟨s, rfl, rfl, nofun⟩
      | true =>
          simp only [call_store, if_true, Outcome.ok_bind, close_store (hfree s hsocket)]
          cases a.reuseAddr with
          | none => exact .inr ⟨s, rfl, rfl, fun _ => rfl⟩
          | some msg => exact .inl ⟨(.io, msg), rfl, .inr ⟨trivial, Option.some_ne_none msg⟩⟩

theorem setMode_spec (hfree : d s = none) :
    (∃ err, setMode a c (d.store s true) s = .ok (none, { c with err := some err }, d) ∧
      c.block = false ∧ (a.getFlags ≠ none ∨ a.setFlags ≠ none)) ∨
    setMode a c (d.store s true) s = .ok (some (), c, d.store s c.block) ∧
      (c.block = false → a.getFlags = none ∧ a.setFlags = none) := by
  unfold setMode
  by_cases hblock : c.block = true
  · rw [if_pos hblock, hblock]
    exact .inr ⟨rfl, nofun⟩
  · have hfalse : c.block = false := Bool.eq_false_of_not_eq_true hblock
    rw [if_neg hblock, redisSetNonBlock]
    simp only [call_store, Outcome.ok_bind, close_store hfree, store_store]
    cases a.getFlags with
    | some msg => exact .inl ⟨_, rfl, hfalse, .inl (Option.some_ne_none msg)⟩
    | none =>
        cases a.setFlags with
        | some msg => exact .inl ⟨_, rfl, hfalse, .inr (Option.some_ne_none msg)⟩
        | none =>
            refine .inr ⟨?_, fun _ => ⟨rfl, rfl⟩⟩
            rw [hfalse]
            rfl

/-- A connection that stands, or may still come to stand. -/
def Answers.Reaches (a : Answers) (block : Bool) (sa : Address) : Prop :=
  a.connect sa = .done ∨ a.connect sa = .inProgress ∧ block = false

theorem connectTo_spec (hfree : d s = none) (blocks : Bool) (sa : Address) :
    (∃ err, connectTo a c (d.store s blocks) s sa = .ok (none, { c with err := some err }, d) ∧
      ¬a.Reaches c.block sa) ∨
    connectTo a c (d.store s blocks) s sa = .ok (some (), c, d.store s blocks) ∧
      a.Reaches c.block sa := by
  unfold connectTo Answers.Reaches
  simp only [call_store, Outcome.ok_bind, close_store hfree]
  cases a.connect sa with
  | done => exact .inr ⟨rfl, .inl rfl⟩
  | failed msg => exact .inl ⟨(.io, msg), rfl, by simp⟩
  | inProgress =>
      by_cases hblock : c.block = true
      · refine .inl ⟨(.io, ascii "Operation now in progress"), ?_, by simp [hblock]⟩
        simp only [if_pos hblock]
        rfl
      · refine .inr ⟨?_, .inr ⟨rfl, Bool.eq_false_of_not_eq_true hblock⟩⟩
        simp only [if_neg hblock]
        rfl

end

/-- The address that is made of a target. The port loses all but its last 16 bits. -/
def Answers.address (a : Answers) : Target → Option Address
  | .tcp addr port =>
      ((a.inetAton addr).orElse fun _ => a.gethostbyname addr).map fun ip =>
        .inet ip (port % 2 ^ 16).toNat
  | .unix path => some (.local (sunPath path a.junk))

/-- No call is refused. -/
structure Answers.Agree (a : Answers) (block : Bool) (target : Target) : Prop where
  socket : ∃ s, a.socket = .ok s
  options : ∀ addr port, target = .tcp addr port → a.reuseAddr = none ∧ a.noDelay = none
  flags : block = false → a.getFlags = none ∧ a.setFlags = none
  reaches : ∃ sa, a.address target = some sa ∧ a.Reaches block sa

/-- How a connect ends: with an error and the descriptors as they were, or with one more
descriptor, which the context has. -/
inductive Connected (a : Answers) (block : Bool) (target : Target) (d : Descriptors) :
    RedisContext × Descriptors → Prop
  | refused (err : ErrType × Bytes) (h : ¬a.Agree block target) :
      Connected a block target d ({ redisContextInit block with err := some err }, d)
  | done (s : ℕ) (socket : a.socket = .ok s) (h : a.Agree block target) :
      Connected a block target d ({ redisContextInit block with fd := s }, d.store s block)

theorem not_agree_socket {a : Answers} {block : Bool} {target : Target}
    (h : ∀ s, a.socket ≠ .ok s) :
    ¬a.Agree block target := fun hagree => by
  obtain ⟨s, hs⟩ := hagree.socket
  exact h s hs

theorem not_agree_flags {a : Answers} {block : Bool} {target : Target} (hblock : block = false)
    (h : a.getFlags ≠ none ∨ a.setFlags ≠ none) : ¬a.Agree block target := fun hagree => by
  obtain ⟨hget, hset⟩ := hagree.flags hblock
  rcases h with h | h
  · exact h hget
  · exact h hset

theorem not_agree_reaches {a : Answers} {block : Bool} {target : Target} {sa : Address}
    (hsa : a.address target = some sa) (h : ¬a.Reaches block sa) :
    ¬a.Agree block target := fun hagree => by
  obtain ⟨sa', hsa', hreaches⟩ := hagree.reaches
  rw [hsa] at hsa'
  cases hsa'
  exact h hreaches

section
variable {a : Answers} {d : Descriptors} {block : Bool}

theorem connect_unix (hfree : ∀ s, a.socket = .ok s → d s = none) (path : Bytes) :
    ∃ r, connect a block (.unix path) d = .ok r ∧ Connected a block (.unix path) d r := by
  unfold connect redisContextConnectUnix
  rcases redisCreateSocket_spec hfree false with ⟨err, hrun, hno⟩ | ⟨s, hrun, hsocket, -⟩
  · rw [hrun]
    exact ⟨_, rfl, .refused err (not_agree_socket (hno.resolve_right (by simp)))⟩
  have hnew := hfree s hsocket
  rw [hrun]
  simp only [Outcome.ok_bind]
  rcases setMode_spec (c := redisContextInit block) hnew with
    ⟨err, hmode, hblock, hno⟩ | ⟨hmode, hflags⟩
  · rw [hmode]
    exact ⟨_, rfl, .refused err (not_agree_flags hblock hno)⟩
  rw [hmode]
  simp only [Outcome.ok_bind]
  rcases connectTo_spec (c := redisContextInit block) hnew block (.local (sunPath path a.junk)) with
    ⟨err, hconnect, hno⟩ | ⟨hconnect, hreaches⟩
  · exact ⟨_, congrArg (· >>= _) hconnect, .refused err (not_agree_reaches rfl hno)⟩
  · exact ⟨_, congrArg (· >>= _) hconnect,
      .done s hsocket ⟨⟨s, hsocket⟩, nofun, hflags, _, rfl, hreaches⟩⟩

theorem connect_tcp (hfree : ∀ s, a.socket = .ok s → d s = none) (addr : Bytes) (port : ℤ) :
    ∃ r, connect a block (.tcp addr port) d = .ok r ∧ Connected a block (.tcp addr port) d r := by
  unfold connect redisContextConnectTcp
  rcases redisCreateSocket_spec hfree true with ⟨err, hrun, hno⟩ | ⟨s, hrun, hsocket, hreuse⟩
  · rw [hrun]
    refine ⟨_, rfl, .refused err ?_⟩
    rcases hno with hno | ⟨-, hno⟩
    · exact not_agree_socket hno
    · exact fun h => hno (h.options addr port rfl).1
  have hnew := hfree s hsocket
  rw [hrun]
  simp only [Outcome.ok_bind]
  rcases setMode_spec (c := redisContextInit block) hnew with
    ⟨err, hmode, hblock, hno⟩ | ⟨hmode, hflags⟩
  · rw [hmode]
    exact ⟨_, rfl, .refused err (not_agree_flags hblock hno)⟩
  rw [hmode]
  simp only [Outcome.ok_bind]
  cases hip : (a.inetAton addr).orElse fun _ => a.gethostbyname addr with
  | none =>
      refine ⟨_, congrArg (· >>= _) (close_store hnew block), .refused _ fun h => ?_⟩
      obtain ⟨sa, hsa, -⟩ := h.reaches
      rw [Answers.address, hip] at hsa
      cases hsa
  | some ip =>
      have haddress : a.address (.tcp addr port) = some (.inet ip (port % 2 ^ 16).toNat) := by
        rw [Answers.address, hip]
        rfl
      rcases connectTo_spec (c := redisContextInit block) hnew block
        (.inet ip (port % 2 ^ 16).toNat) with
        ⟨err, hconnect, hno⟩ | ⟨hconnect, hreaches⟩
      · exact ⟨_, congrArg (· >>= _) hconnect, .refused err (not_agree_reaches haddress hno)⟩
      · simp only
        have hconnect' : connectTo a (redisContextInit block)
          (d.store s (redisContextInit block).block) s
            (.inet ip (port % 2 ^ 16).toNat) = _ := hconnect
        rw [hconnect']
        simp only [Outcome.ok_bind, redisSetTcpNoDelay]
        have hcall := call_store d s block a.noDelay
        rw [hcall]
        cases hdelay : a.noDelay with
        | some msg =>
            refine ⟨_, congrArg (· >>= _) (close_store hnew block), .refused _ fun h => ?_⟩
            rw [(h.options addr port rfl).2] at hdelay
            cases hdelay
        | none =>
            refine ⟨_, rfl, .done s hsocket ⟨⟨s, hsocket⟩, ?_, hflags, _, haddress, hreaches⟩⟩
            intro _ _ _
            exact ⟨hreuse rfl, hdelay⟩

/-- Either no call was refused, and the context has the new descriptor; or it has an error,
and every descriptor that was opened is closed again. -/
theorem connect_spec (hfree : ∀ s, a.socket = .ok s → d s = none) (block : Bool) (target : Target) :
    ∃ r, connect a block target d = .ok r ∧ Connected a block target d r := by
  cases target with
  | tcp addr port => exact connect_tcp hfree addr port
  | unix path => exact connect_unix hfree path

end

/-- A process: its descriptors, the contexts it has made so far, and which of them it has
freed. -/
structure Process where
  descriptors : Descriptors
  contexts : List RedisContext
  freed : List ℕ

def Process.start : Process := ⟨fun _ => none, [], []⟩

inductive Op where
  | connect (block : Bool) (target : Target) (answers : Answers)
  | free (i : ℕ)

namespace Process

def step (p : Process) : Op → Run Process
  | .connect block target a => do
      let (c, d) ← Net.connect a block target p.descriptors
      return { p with descriptors := d, contexts := p.contexts ++ [c] }
  | .free i =>
      match p.contexts[i]? with
      | none => .fault .nullPointer
      | some c =>
          if i ∈ p.freed then .fault .useAfterFree
          else do
            let d ← redisFree c p.descriptors
            return { p with descriptors := d, freed := i :: p.freed }

def run (p : Process) : List Op → Run Process
  | [] => return p
  | op :: ops => do
      let p ← p.step op
      p.run ops

/-- The kernel gives out descriptors that are not open, and the program frees a context
that is there, once. -/
def Permits (p : Process) : Op → Prop
  | .connect _ _ a => ∀ s, a.socket = .ok s → p.descriptors s = none
  | .free i => i < p.contexts.length ∧ i ∉ p.freed

def AllPermitted (p : Process) : List Op → Prop
  | [] => True
  | op :: ops => p.Permits op ∧ ∀ p', p.step op = .ok p' → p'.AllPermitted ops

/-- The descriptors of the contexts that were connected. -/
def connected (p : Process) : List ℕ :=
  (p.contexts.filter fun c => c.err.isNone).map RedisContext.fd

/-- Every context that was connected has a descriptor of its own, which is still open, and
no other descriptor is open. -/
structure Accounts (p : Process) : Prop where
  isOpen : ∀ fd block, p.descriptors fd = some block ↔
    ∃ c ∈ p.contexts, c.err = none ∧ c.fd = fd ∧ c.block = block
  distinct : p.connected.Nodup
  unmarked : ∀ c ∈ p.contexts, c.connected = false

theorem accounts_start : start.Accounts where
  isOpen fd block := by simp [start]
  distinct := List.nodup_nil
  unmarked _ hc := (List.not_mem_nil hc).elim

theorem mem_connected {p : Process} {fd : ℕ} :
    fd ∈ p.connected ↔ ∃ c ∈ p.contexts, c.err = none ∧ c.fd = fd := by
  simp [connected, and_assoc]

theorem Accounts.refused {p : Process} (h : p.Accounts) (block : Bool) (err : ErrType × Bytes) :
    Accounts
      { p with contexts := p.contexts ++ [{ redisContextInit block with err := some err }] } where
  isOpen fd mode := by
    rw [h.isOpen]
    simp
  distinct := by
    have hsame : connected { p with
        contexts := p.contexts ++ [{ redisContextInit block with err := some err }] } =
          p.connected := by
      simp [connected]
    rw [hsame]
    exact h.distinct
  unmarked c hc := by
    rcases List.mem_append.mp hc with hc | hc
    · exact h.unmarked c hc
    · rw [List.mem_singleton.mp hc]
      rfl

theorem Accounts.done {p : Process} (h : p.Accounts) {s : ℕ} (hnew : p.descriptors s = none)
    (block : Bool) :
    Accounts { p with
      descriptors := p.descriptors.store s block
      contexts := p.contexts ++ [{ redisContextInit block with fd := s }] } where
  isOpen fd mode := by
    by_cases hfd : fd = s
    · subst hfd
      have hold : ¬∃ c ∈ p.contexts, c.err = none ∧ c.fd = fd ∧ c.block = mode := by
        rw [← h.isOpen, hnew]
        exact nofun
      simp only [Descriptors.store, Function.update_self, List.mem_append, or_and_right, exists_or,
        List.mem_singleton, exists_eq_left, redisContextInit, hold, false_or, Option.some_inj,
          true_and]
    · simp only [Descriptors.store, Function.update_of_ne hfd, h.isOpen, List.mem_append,
        or_and_right,
        exists_or, List.mem_singleton, exists_eq_left, redisContextInit, Ne.symm hfd, false_and,
        and_false, or_false]
  distinct := by
    have hmore : connected { p with
        descriptors := p.descriptors.store s block
        contexts := p.contexts ++ [{ redisContextInit block with fd := s }] } =
          p.connected ++ [s] := by
      simp [connected, redisContextInit]
    rw [hmore]
    refine List.Nodup.append h.distinct (List.nodup_singleton s) ?_
    intro fd hfd hs
    obtain ⟨c, hc, herr, hcfd⟩ := mem_connected.mp hfd
    have hopen := (h.isOpen fd c.block).mpr ⟨c, hc, herr, hcfd, rfl⟩
    rw [List.mem_singleton.mp hs, hnew] at hopen
    cases hopen
  unmarked c hc := by
    rcases List.mem_append.mp hc with hc | hc
    · exact h.unmarked c hc
    · rw [List.mem_singleton.mp hc]
      rfl

/-- A context that is freed leaves its descriptor open. -/
theorem Accounts.free {p : Process} (h : p.Accounts) {i : ℕ} (hi : p.Permits (.free i)) :
    p.step (.free i) = .ok { p with freed := i :: p.freed } := by
  obtain ⟨hlt, hfreed⟩ := hi
  have hunmarked := h.unmarked _ (List.getElem_mem hlt)
  simp only [step, List.getElem?_eq_getElem hlt, if_neg hfreed, redisFree, hunmarked]
  rfl

end Process

def connects : List Op → List (Bool × Target × Answers)
  | [] => []
  | .connect block target a :: ops => (block, target, a) :: connects ops
  | .free _ :: ops => connects ops

def Made (x : Bool × Target × Answers) (c : RedisContext) : Prop :=
  c.block = x.1 ∧ (c.err = none ↔ x.2.2.Agree x.1 x.2.1)

open Process

theorem Connected.made {a : Answers} {block : Bool} {target : Target} {d : Descriptors}
    {r : RedisContext × Descriptors} (h : Connected a block target d r) :
    Made (block, target, a) r.1 := by
  cases h with
  | refused err h => exact ⟨rfl, by simp [h]⟩
  | done s socket h => exact ⟨rfl, by simp [h, redisContextInit]⟩

/-- A run of a process, by induction on its steps. -/
theorem Process.Accounts.run {p : Process} (h : p.Accounts) {ops : List Op}
    (hops : p.AllPermitted ops) :
    ∃ p' cs, p.run ops = .ok p' ∧ p'.Accounts ∧ p'.contexts = p.contexts ++ cs ∧
      List.Forall₂ Made (connects ops) cs := by
  induction ops generalizing p with
  | nil => exact ⟨p, [], rfl, h, (List.append_nil _).symm, .nil⟩
  | cons op ops ih =>
      obtain ⟨hop, hops⟩ := hops
      cases op with
      | free i =>
          have hstep := h.free hop
          obtain ⟨p', cs, hrun, h', hcontexts, hmade⟩ :=
            ih (p := { p with freed := i :: p.freed }) ⟨h.isOpen, h.distinct, h.unmarked⟩
              (hops _ hstep)
          refine ⟨p', cs, ?_, h', hcontexts, hmade⟩
          rw [Process.run, hstep]
          exact hrun
      | connect block target a =>
          obtain ⟨⟨c, d⟩, hconnect, hend⟩ := connect_spec hop block target
          have hstep : p.step (.connect block target a) =
              .ok { p with descriptors := d, contexts := p.contexts ++ [c] } := by
            rw [Process.step, hconnect]
            rfl
          have h₁ : Accounts { p with descriptors := d, contexts := p.contexts ++ [c] } := by
            cases hend with
            | refused err _ => exact h.refused block err
            | done s socket _ => exact h.done (hop s socket) block
          obtain ⟨p', cs, hrun, h', hcontexts, hmade⟩ := ih h₁ (hops _ hstep)
          refine ⟨p', c :: cs, ?_, h', ?_, .cons hend.made hmade⟩
          · rw [Process.run, hstep]
            exact hrun
          · rw [hcontexts, List.append_assoc, List.singleton_append]

/-- Whatever the kernel answers, and in whatever order contexts are made and freed: no call
is made on a descriptor that is not open; a connect succeeds exactly when no call was
refused; and the descriptors that are open are those of the contexts that were connected,
each in the mode of its context and each but once. So a failed connect closes what it
opened, and `redisFree` closes nothing: the descriptor of a freed context stays open. -/
theorem descriptors_run {ops : List Op} (hops : start.AllPermitted ops) :
    ∃ p, start.run ops = .ok p ∧ List.Forall₂ Made (connects ops) p.contexts ∧
      (∀ fd block, p.descriptors fd = some block ↔
        ∃ c ∈ p.contexts, c.err = none ∧ c.fd = fd ∧ c.block = block) ∧
      p.connected.Nodup := by
  obtain ⟨p, cs, hrun, h, hcontexts, hmade⟩ := accounts_start.run hops
  rw [start, List.nil_append] at hcontexts
  exact ⟨p, hrun, hcontexts ▸ hmade, h.isOpen, h.distinct⟩

def agreeable (s : ℕ) : Answers :=
  { socket := .ok s, reuseAddr := none, getFlags := none, setFlags := none, 
    inetAton := fun _ => some 0,
    gethostbyname := fun _ => none, connect := fun _ => .inProgress, noDelay := none, junk := 0 }

/-- A blocking connect fails, one that does not block succeeds with the same descriptor, and
its context is freed. -/
def reuse : List Op :=
  [.connect true (.tcp (ascii "localhost") 6379) (agreeable 3),
    .connect false (.unix (ascii "/tmp/redis.sock")) (agreeable 3), .free 1]

theorem reuse_permitted : start.AllPermitted reuse := by
  refine ⟨fun s _ => rfl, ?_⟩
  rintro _ ⟨⟩
  refine ⟨?_, ?_⟩
  · intro s hs
    cases hs
    rfl
  · rintro _ ⟨⟩
    exact ⟨⟨by decide, by decide⟩, fun _ _ => trivial⟩

theorem descriptors_run_reuse :
    ∃ p, start.run reuse = .ok p ∧ p.freed = [1] ∧ p.descriptors 3 = some false ∧
      p.connected.Nodup := by
  obtain ⟨p, hrun, -, -, hdistinct⟩ := descriptors_run reuse_permitted
  cases hrun
  exact ⟨_, rfl, rfl, rfl, hdistinct⟩

end PhpHiredis.Net
