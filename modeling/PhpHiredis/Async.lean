import PhpHiredis.Context
import PhpHiredis.ObjectReader

/-!
# The asynchronous interface

`async.c`: commands are accepted together with a callback, an event library tells when
the socket can be read or written, and every reply is handed to the callback of its
command. Callbacks are named by a type of the user, who also says what they do when they
run: they may send commands and ask for the end of the connection. The results of the
system calls come with the events. What a context has done so far is recorded beside its
fields.
-/
namespace PhpHiredis.Async

open Library Reader Objects

variable {κ ω μ υ : Type}

/-- What a callback does with the context. -/
inductive CallbackAction (κ : Type) where
  | command (fn : Option κ) (cmd : Bytes)
  | disconnect

/-- The user of a context: its state, and what a callback does when it gets a reply. -/
structure User (κ ω μ υ : Type) where
  react : υ → κ → Option ω → μ → υ × List (CallbackAction κ)

/-- The functions of an event library that a context calls. -/
inductive EventHook where
  | addRead
  | delRead
  | addWrite
  | delWrite
  | cleanup
  deriving DecidableEq, Repr

/-- `disconnecting` is the bit `REDIS_DISCONNECTING` of the flags. `replies` lists the
callbacks that wait for a reply, `none` where a command has none. -/
structure RedisAsyncContext (κ ω μ υ : Type) where
  disconnecting : Bool
  obuf : Bytes
  err : Option (ErrType × Bytes)
  reader : RedisReader ω μ
  replies : List (Option κ)
  onDisconnect : Bool
  user : υ
  /-- after `redisFree` -/
  freed : Bool
  /-- the commands that were accepted -/
  accepted : List (Option κ × Bytes)
  /-- the callbacks that were run, with the reply that each of them got -/
  calls : List (Option κ × Option ω)
  /-- the bytes that the socket took -/
  sent : Bytes
  /-- the functions of the event library that were called -/
  hooks : List EventHook
  /-- calls of the disconnect callback -/
  disconnects : List Status

def redisAsyncConnect (mem : μ) (user : υ) : RedisAsyncContext κ ω μ υ :=
  { disconnecting := false, obuf := [], err := none, reader := redisReplyReaderCreate mem,
    replies := [], onDisconnect := false, user := user, freed := false,
    accepted := [], calls := [], sent := [], hooks := [], disconnects := [] }

/-- The events that the event library was asked for. -/
structure Interest where
  reading : Bool
  writing : Bool
  deriving DecidableEq, Repr

def Interest.after (i : Interest) : EventHook → Interest
  | .addRead => { i with reading := true }
  | .delRead => { i with reading := false }
  | .addWrite => { i with writing := true }
  | .delWrite => { i with writing := false }
  | .cleanup => ⟨false, false⟩

def RedisAsyncContext.interest (ac : RedisAsyncContext κ ω μ υ) : Interest :=
  ac.hooks.foldl Interest.after ⟨false, false⟩

def redisAsyncSetDisconnectCallback (ac : RedisAsyncContext κ ω μ υ) :
    Status × RedisAsyncContext κ ω μ υ :=
  if ac.onDisconnect then (.err, ac) else (.ok, { ac with onDisconnect := true })

/-- Only a flag is set; the event handlers will see it. -/
def redisAsyncDisconnect (ac : RedisAsyncContext κ ω μ υ) : RedisAsyncContext κ ω μ υ :=
  { ac with disconnecting := true }

/-- `__redisAsyncCommand`, for a command in protocol form. -/
def redisAsyncCommand (ac : RedisAsyncContext κ ω μ υ) (fn : Option κ) (cmd : Bytes) :
    Status × RedisAsyncContext κ ω μ υ :=
  if ac.disconnecting then (.err, ac)
  else
    (.ok, { ac with
      obuf := ac.obuf ++ cmd
      replies := ac.replies ++ [fn]
      hooks := ac.hooks ++ [.addWrite]
      accepted := ac.accepted ++ [(fn, cmd)] })

def act (ac : RedisAsyncContext κ ω μ υ) : List (CallbackAction κ) → RedisAsyncContext κ ω μ υ
  | [] => ac
  | .command fn cmd :: actions => act (redisAsyncCommand ac fn cmd).2 actions
  | .disconnect :: actions => act (redisAsyncDisconnect ac) actions

section
variable (fn : RedisReplyObjectFunctions ω μ) (user : User κ ω μ υ)

def callback (ac : RedisAsyncContext κ ω μ υ) (cb : κ) (reply : Option ω) :
    RedisAsyncContext κ ω μ υ :=
  let (state, actions) := user.react ac.user cb reply ac.reader.mem
  act { ac with user := state, calls := ac.calls ++ [(some cb, reply)] } actions

/-- Execute pending callbacks with `NULL` reply, at most `n` of them. -/
def failCallbacks : ℕ → RedisAsyncContext κ ω μ υ → RedisAsyncContext κ ω μ υ
  | 0, ac => ac
  | n + 1, ac =>
      match ac.replies with
      | [] => ac
      | some cb :: replies => failCallbacks n (callback user { ac with replies := replies } cb none)
      | none :: replies =>
          failCallbacks n { ac with replies := replies, calls := ac.calls ++ [(none, none)] }

/-- The end of `__redisAsyncDisconnect`: the event library and the disconnect callback
are told, and the context is freed. The descriptor is not closed, since nothing sets
`REDIS_CONNECTED`. -/
def cleanup (ac : RedisAsyncContext κ ω μ υ) (status : Status) :
    Run (RedisAsyncContext κ ω μ υ) := do
  let mem ← redisReplyReaderFree fn ac.reader
  return { ac with
    hooks := ac.hooks ++ [.cleanup]
    disconnects := if ac.onDisconnect then ac.disconnects ++ [status] else ac.disconnects
    reader := { ac.reader with mem := mem }
    freed := true }

/-- `__redisAsyncDisconnect`: make the disconnect happen and clean up. No callback can
add another, so the loop runs once for each that is pending. -/
def disconnectNow (ac : RedisAsyncContext κ ω μ υ) : Run (RedisAsyncContext κ ω μ υ) :=
  match ac.err with
  | none => if ac.replies = [] then cleanup fn ac .ok else .fault .assertion
  | some _ =>
      cleanup fn (failCallbacks user ac.replies.length { ac with disconnecting := true }) .err

/-- The loop over the replies in the buffer. -/
def processCallbacksFor : ℕ → RedisAsyncContext κ ω μ υ → Run (RedisAsyncContext κ ω μ υ)
  | 0, _ => .blocked
  | n + 1, ac => do
      let (status, reply, reader) ← redisReplyReaderGetReply fn ac.reader
      let ac := { ac with reader := reader }
      match status, reply with
      | .err, _ => disconnectNow fn user { ac with err := some (.protocol, reader.error.getD []) }
      | .ok, none =>
          -- the cue to really disconnect
          if ac.disconnecting ∧ ac.obuf = [] then disconnectNow fn user ac else return ac
      | .ok, some obj =>
          match ac.replies with
          | [] => .fault .assertion
          | some cb :: replies =>
              processCallbacksFor n (callback user { ac with replies := replies } cb (some obj))
          | none :: replies => do
              let mem ← fn.freeObject obj reader.mem
              processCallbacksFor n { ac with
                replies := replies
                reader := { reader with mem := mem }
                calls := ac.calls ++ [(none, some obj)] }

/-- Every reply takes a byte of the buffer at least. -/
def redisProcessCallbacks (ac : RedisAsyncContext κ ω μ υ) : Run (RedisAsyncContext κ ω μ υ) :=
  processCallbacksFor fn user (ac.reader.len + 1) ac

/-- The socket is readable; `result` is that of the `read` in `redisBufferRead`. -/
def redisAsyncHandleRead (ac : RedisAsyncContext κ ω μ υ) (result : ReadResult) :
    Run (RedisAsyncContext κ ω μ υ) :=
  match result with
  | .error msg => disconnectNow fn user { ac with err := some (.io, msg) }
  | .eof =>
      disconnectNow fn user
        { ac with err := some (.eof, ascii "Server closed the connection") }
  | .again => redisProcessCallbacks fn user { ac with hooks := ac.hooks ++ [.addRead] }
  | .data chunk =>
      redisProcessCallbacks fn user
        { ac with
          reader := redisReplyReaderFeed ac.reader chunk.1
          hooks := ac.hooks ++ [.addRead] }

/-- The socket is writable; `result` is that of the `write` in `redisBufferWrite`. -/
def redisAsyncHandleWrite (ac : RedisAsyncContext κ ω μ υ) (result : WriteResult) :
    Run (RedisAsyncContext κ ω μ υ) :=
  if ac.obuf = [] then return { ac with hooks := ac.hooks ++ [.delWrite, .addRead] }
  else
    match result with
    | .error msg => disconnectNow fn user { ac with err := some (.io, msg) }
    | .again => return { ac with hooks := ac.hooks ++ [.addWrite, .addRead] }
    | .wrote n =>
        let n := min n ac.obuf.length
        let obuf := ac.obuf.drop n
        return { ac with
          obuf := obuf
          sent := ac.sent ++ ac.obuf.take n
          hooks := ac.hooks ++ [if obuf = [] then .delWrite else .addWrite, .addRead] }

/-- The events of a context: calls of the user, and events of the socket. -/
inductive Event (κ : Type) where
  | command (cb : Option κ) (cmd : Bytes)
  | disconnect
  | setDisconnectCallback
  | readable (result : ReadResult)
  | writable (result : WriteResult)

def handle (ac : RedisAsyncContext κ ω μ υ) : Event κ → Run (RedisAsyncContext κ ω μ υ)
  | .command cb cmd => return (redisAsyncCommand ac cb cmd).2
  | .disconnect => return redisAsyncDisconnect ac
  | .setDisconnectCallback => return (redisAsyncSetDisconnectCallback ac).2
  | .readable result => redisAsyncHandleRead fn user ac result
  | .writable result => redisAsyncHandleWrite fn user ac result

/-- A context is not used after it was freed. -/
def run (ac : RedisAsyncContext κ ω μ υ) : List (Event κ) → Run (RedisAsyncContext κ ω μ υ)
  | [] => return ac
  | e :: es =>
      if ac.freed then .fault .useAfterFree
      else do
        let ac ← handle fn user ac e
        run ac es

end

end PhpHiredis.Async
