import PhpHiredis.Decoding
import PhpHiredis.Parsing

/-!
# The connection

The blocking context of `hiredis.c` and the socket under it. The socket is the
kernel's side of the descriptor: what reads will deliver, how much of each
write the kernel takes, and the peer, which answers every write. A read with
nothing left to deliver blocks.
-/
namespace PhpHiredis

open Library Reader

/-- The bytes of one successful `read`. -/
abbrev Chunk := { bytes : Bytes // bytes ≠ [] }

inductive ReadResult where
  | data (chunk : Chunk)
  | again
  | error (msg : Bytes)
  | eof

/-- The result of one `write`: at most `n` bytes are taken, or none. -/
inductive WriteResult where
  | wrote (n : ℕ)
  | again
  | error (msg : Bytes)

/-- The other end of the connection: what it sends when it receives some bytes. -/
structure Peer (σ : Type) where
  receive : σ → Bytes → σ × List ReadResult

def silent : Peer Unit := ⟨fun s _ => (s, [])⟩

/-- `writes` lists the results of the next writes; when it is empty a write
takes everything. -/
structure Socket (σ : Type) where
  peer : σ
  inbox : List ReadResult
  writes : List WriteResult

/-- Why a context is unusable (`err`). -/
inductive ErrType where
  | io
  | eof
  | protocol
  deriving DecidableEq, Repr

/-- The calls that a context makes of its reader, for the readers with different object
functions. The objects are of type `ω`. -/
class ReplyReader (ρ : Type) (ω : outParam Type) where
  create : ρ
  feed : ρ → Bytes → ρ
  getReply : ρ → Run (Status × Option ω × ρ)
  error : ρ → Option Bytes

/-- The reader with the functions of `hooks.c`. -/
instance : ReplyReader RedisReader Loc where
  create := redisReplyReaderCreate fun _ => none
  feed := redisReplyReaderFeed
  getReply := redisReplyReaderGetReply
  error := RedisReader.error

theorem getReply_eq (r : RedisReader) : ReplyReader.getReply r = redisReplyReaderGetReply r := rfl

/-- `connected` is the bit `REDIS_CONNECTED` of the flags. The bit
`REDIS_BLOCK` is always set here: only the blocking connects are used. -/
structure RedisContext (σ ρ : Type) where
  fd : ℕ
  connected : Bool
  obuf : Bytes
  err : Option (ErrType × Bytes)
  reader : ρ
  sock : Socket σ

/-- The context of the extension. Its reader is the one `redis_sock_get` stored last. -/
abbrev ExtContext (σ : Type) := RedisContext σ RedisReader

variable {σ ρ ω : Type}

/-- A context after a successful `redisConnect` or `redisConnectUnix`: the
functions of `net.c` store the descriptor, and leave the flags as they are. The
reader is created here, although the source waits for the first use. -/
def redisConnect [ReplyReader ρ ω] (fd : ℕ) (sock : Socket σ) : RedisContext σ ρ :=
  { fd := fd, connected := false, obuf := [], err := none, reader := ReplyReader.create,
    sock := sock }

def redisSetError (c : RedisContext σ ρ) (type : ErrType) (errstr : Bytes) : RedisContext σ ρ :=
  { c with err := some (type, errstr) }

def redisBufferRead [ReplyReader ρ ω] (c : RedisContext σ ρ) : Run (Status × RedisContext σ ρ) :=
  match c.sock.inbox with
  | [] => .blocked
  | .again :: rest => return (.ok, { c with sock := { c.sock with inbox := rest } })
  | .error msg :: rest =>
      return (.err, redisSetError { c with sock := { c.sock with inbox := rest } } .io msg)
  -- the end of the stream stays the end
  | .eof :: _ => return (.err, redisSetError c .eof (ascii "Server closed the connection"))
  | .data chunk :: rest =>
      return (.ok, { c with
        sock := { c.sock with inbox := rest }
        reader := ReplyReader.feed c.reader chunk.1 })

def Socket.send (peer : Peer σ) (s : Socket σ) (bytes : Bytes) : Socket σ :=
  let answer := peer.receive s.peer bytes
  { s with peer := answer.1, inbox := s.inbox ++ answer.2 }

/-- One call of `redisBufferWrite`, with the result `w` of its `write`; the
flag is `done`. -/
def redisBufferWrite (peer : Peer σ) (c : RedisContext σ ρ) (w : WriteResult) :
    Status × Bool × RedisContext σ ρ :=
  if c.obuf = [] then (.ok, true, c)
  else
    match w with
    | .again => (.ok, false, c)
    | .error msg => (.err, false, redisSetError c .io msg)
    | .wrote n =>
        let n := min n c.obuf.length
        if n = 0 then (.ok, false, c)
        else
          let c' := { c with obuf := c.obuf.drop n, sock := c.sock.send peer (c.obuf.take n) }
          (.ok, c'.obuf = [], c')

def flush (peer : Peer σ) : List WriteResult → RedisContext σ ρ → Status × RedisContext σ ρ
  | [], c =>
      let (st, _, c') := redisBufferWrite peer { c with sock := { c.sock with writes := [] } }
        (.wrote c.obuf.length)
      (st, c')
  | w :: ws, c =>
      if c.obuf = [] then (.ok, { c with sock := { c.sock with writes := w :: ws } })
      else
        let (st, done, c') :=
          redisBufferWrite peer { c with sock := { c.sock with writes := ws } } w
        match st with
        | .err => (.err, c')
        | .ok => if done then (.ok, c') else flush peer ws c'

section
variable [ReplyReader ρ ω]

def redisGetReplyFromReader (c : RedisContext σ ρ) :
    Run (Status × Option ω × RedisContext σ ρ) := do
  let (st, reply, reader) ← ReplyReader.getReply c.reader
  let c := { c with reader := reader }
  match st with
  | .err => return (.err, none, redisSetError c .protocol ((ReplyReader.error reader).getD []))
  | .ok => return (.ok, reply, c)

/-- Read until there is a reply; every turn but the last takes a result from
the inbox. -/
def readReply : ℕ → RedisContext σ ρ → Run (Status × Option ω × RedisContext σ ρ)
  | 0, _ => .blocked
  | n + 1, c => do
      let (st, c) ← redisBufferRead c
      match st with
      | .err => return (.err, none, c)
      | .ok =>
          let (st, reply, c) ← redisGetReplyFromReader c
          match st, reply with
          | .err, _ => return (.err, none, c)
          | .ok, none => readReply n c
          | .ok, some obj => return (.ok, some obj, c)

def redisGetReply (peer : Peer σ) (c : RedisContext σ ρ) :
    Run (Status × Option ω × RedisContext σ ρ) := do
  -- try to read pending replies
  let (st, reply, c) ← redisGetReplyFromReader c
  match st, reply with
  | .err, _ => return (.err, none, c)
  | .ok, some obj => return (.ok, some obj, c)
  | .ok, none =>
      match flush peer c.sock.writes c with
      | (.err, c) => return (.err, none, c)
      | (.ok, c) => readReply (c.sock.inbox.length + 1) c

end

def redisAppend (c : RedisContext σ ρ) (cmd : Bytes) : RedisContext σ ρ :=
  { c with obuf := c.obuf ++ cmd }

end PhpHiredis
