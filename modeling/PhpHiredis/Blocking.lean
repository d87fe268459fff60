import PhpHiredis.Receiving
import PhpHiredis.Server
import PhpHiredis.Templates

/-!
# The blocking interface

A program that uses a blocking context of the library with the library's own objects: it
appends commands, asks for replies, or does both at once with `redisCommand`. The server
answers the requests in their order and cuts its bytes as it likes; the kernel takes the
writes in pieces. Whatever the order of the calls, each reply that is asked for is the
answer to the oldest request without one, so `redisCommand` returns another command's
reply when some were not read before.
-/
namespace PhpHiredis.Blocking

open Library Objects
open Reader (Status)

variable {σ δ : Type}

/-- The reader with the default object functions. -/
instance : ReplyReader ObjectReader ℕ where
  create := redisReplyReaderCreate Library.Trees.Heap.empty
  feed := redisReplyReaderFeed
  getReply := redisReplyReaderGetReply defaultFunctions
  error := RedisReader.error

/-- A command as a program gives it: an argument vector, or a format with its arguments. -/
inductive Command where
  | argv (words : List Bytes)
  | format (text : Bytes) (ap : List FormatArg)

namespace Command

/-- The words of the command, if it has all its arguments. -/
def request : Command → Option Request
  | .argv words => some words
  | .format text ap => (fillWords (parseFormat text) ap).map (sentWords false)

def append (c : RedisContext σ ObjectReader) : Command → Run (RedisContext σ ObjectReader)
  | .argv words => redisAppendCommandArgv c words
  | .format text ap => redisAppendCommand c text ap

theorem append_eq {command : Command} {ws : Request} (h : command.request = some ws)
    (c : RedisContext σ ObjectReader) :
    command.append c = .ok (redisAppend c (encodeRequest ws)) := by
  cases command with
  | argv words =>
      cases h
      rw [append, redisAppendCommandArgv, redisFormatCommandArgv_eq]
      rfl
  | format text ap =>
      obtain ⟨words, hwords, rfl⟩ := Option.map_eq_some_iff.mp h
      rw [append, redisAppendCommand, redisvFormatCommand_eq hwords]
      rfl

end Command

/-- `redisCommand` and `redisCommandArgv`: a blocking context reads a reply at once. The result
is `none` where the source returns `NULL`. -/
def redisCommand (peer : Peer σ) (c : RedisContext σ ObjectReader) (command : Command) :
    Run (Option ℕ × RedisContext σ ObjectReader) := do
  let c ← command.append c
  let (st, reply, c) ← redisGetReply peer c
  match st with
  | .ok => return (reply, c)
  | .err => return (none, c)

/-- What a program does with a reply: it keeps the object, or frees it at once. -/
inductive Fate where
  | kept
  | freed
  deriving DecidableEq, Repr

inductive Step where
  | append (command : Command)
  | getReply (fate : Fate)
  | command (command : Command) (fate : Fate)

/-- A context and the replies that the program got so far, each with its object; the objects
that were freed are marked `none`. -/
structure Program (σ : Type) where
  ctx : RedisContext σ ObjectReader
  calls : List (Option Unit × Option ℕ)

namespace Program

/-- The program gets a reply, or nothing after an error. -/
def take (p : Program σ) (fate : Fate) (reply : Option ℕ) : Run (Program σ) :=
  match fate, reply with
  | _, none => return p
  | .kept, some obj => return { p with calls := p.calls ++ [(some (), some obj)] }
  | .freed, some obj => do
      let mem ← freeReplyObject obj p.ctx.reader.mem
      return { p with
        ctx := { p.ctx with reader := { p.ctx.reader with mem := mem } }
        calls := p.calls ++ [(none, some obj)] }

def step (peer : Peer σ) (p : Program σ) : Step → Run (Program σ)
  | .append command => do
      let ctx ← command.append p.ctx
      return { p with ctx := ctx }
  | .getReply fate => do
      let (_, reply, ctx) ← redisGetReply peer p.ctx
      { p with ctx := ctx }.take fate reply
  | .command command fate => do
      let (reply, ctx) ← redisCommand peer p.ctx command
      { p with ctx := ctx }.take fate reply

def run (peer : Peer σ) (p : Program σ) : List Step → Run (Program σ)
  | [] => return p
  | step :: steps => do
      let p ← p.step peer step
      p.run peer steps

end Program

/-- A program with a blocking connection to a server with the database `d`. -/
def connected (d : δ) (writes : List WriteResult) : Program (Desk δ) :=
  ⟨redisConnect 3 ⟨.at ⟨d, none⟩, [], writes⟩, []⟩

end PhpHiredis.Blocking
