import PhpHiredis.Reader

/-!
# The reply reader with any object functions

The parser of `hiredis.c` as the library has it: the objects of a reply are built
by a table of functions that the user of the library chooses. The objects and the
memory they live in are parameters. `Reader` is this parser with the functions of
`hooks.c`; the library brings a table of its own. A reader without a table, which
only reads types, is not modelled.
-/
namespace PhpHiredis.Objects

open Library Reader

structure RedisReadTask (ω : Type) where
  type : Option ReplyType
  elements : ℤ
  idx : ℤ
  obj : Option ω
  parent : Option ℕ
  privdata : Option ℕ
  deriving DecidableEq, Repr

/-- The functions see a task together with the task of its parent; `μ` is the
memory of the objects. -/
structure RedisReplyObjectFunctions (ω μ : Type) where
  createString : RedisReadTask ω → Option (RedisReadTask ω) → Bytes → ℕ → μ → Run (ω × μ)
  createArray : RedisReadTask ω → Option (RedisReadTask ω) → ℤ → μ → Run (ω × μ)
  createInteger : RedisReadTask ω → Option (RedisReadTask ω) → ℤ → μ → Run (ω × μ)
  createNil : RedisReadTask ω → Option (RedisReadTask ω) → μ → Run (ω × μ)
  freeObject : ω → μ → Run μ

structure RedisReader (ω μ : Type) where
  error : Option Bytes
  reply : Option ω
  buf : Bytes
  pos : ℕ
  len : ℕ
  rstack : ℕ → RedisReadTask ω
  ridx : ℤ
  privdata : Option ℕ
  mem : μ

variable {ω μ : Type}

def redisReplyReaderCreate (mem : μ) : RedisReader ω μ :=
  { error := none, reply := none, buf := [], pos := 0, len := 0,
    rstack := fun _ => ⟨some .error, 0, 0, none, none, none⟩, ridx := -1, privdata := none,
    mem := mem }

namespace RedisReader

def unread (r : RedisReader ω μ) : Bytes := r.buf.drop r.pos

def cur (r : RedisReader ω μ) : RedisReadTask ω := r.rstack r.ridx.toNat

def setCur (r : RedisReader ω μ) (t : RedisReadTask ω) : RedisReader ω μ :=
  { r with rstack := Function.update r.rstack r.ridx.toNat t }

def parentOf (r : RedisReader ω μ) (task : RedisReadTask ω) : Option (RedisReadTask ω) :=
  task.parent.map r.rstack

def pop (r : RedisReader ω μ) : RedisReader ω μ := { r with ridx := r.ridx - 1 }

end RedisReader

def readBytes (r : RedisReader ω μ) (bytes : ℕ) : Option (Bytes × RedisReader ω μ) :=
  if bytes ≤ r.len - r.pos then some (r.unread, { r with pos := r.pos + bytes }) else none

/-- The rest of the buffer and the length of the line at its start. -/
def readLine (r : RedisReader ω μ) : Option ((Bytes × ℕ) × RedisReader ω μ) :=
  match seekNewline r.unread (r.len - r.pos) with
  | some len => some ((r.unread, len), { r with pos := r.pos + (len + 2) })
  | none => none

/-- One turn of the loop per level of the stack at most. -/
def moveToNextTaskFor : ℕ → RedisReader ω μ → Run (RedisReader ω μ)
  | 0, r => .ok r
  | n + 1, r =>
      if r.ridx < 0 then .ok r
      -- the stack is now empty
      else if r.ridx = 0 then .ok r.pop
      else
        let cur := r.cur
        let prv := r.rstack (r.ridx.toNat - 1)
        if prv.type ≠ some .array then .fault .assertion
        else if cur.idx = prv.elements - 1 then moveToNextTaskFor n r.pop
        else if cur.idx < prv.elements then
          .ok (r.setCur { cur with type := none, elements := -1, idx := cur.idx + 1 })
        else .fault .assertion

def moveToNextTask (r : RedisReader ω μ) : Run (RedisReader ω μ) :=
  moveToNextTaskFor (r.ridx + 1).toNat r

def setRootReply (root : Bool) (obj : ω) (r : RedisReader ω μ) : RedisReader ω μ :=
  if root then { r with reply := some obj } else r

/-- The task of the first element of the array on top of the stack. -/
def pushTask (r : RedisReader ω μ) : RedisReader ω μ :=
  { r with
    ridx := r.ridx + 1
    rstack := Function.update r.rstack (r.ridx + 1).toNat
      ⟨none, -1, 0, none, some r.ridx.toNat, r.privdata⟩ }

section
variable (fn : RedisReplyObjectFunctions ω μ)

/-- A call of one of the functions that create objects, in the memory of the reader. -/
def create (call : Option (RedisReadTask ω) → μ → Run (ω × μ)) (r : RedisReader ω μ)
    (task : RedisReadTask ω) : Run (ω × RedisReader ω μ) := do
  let (obj, mem) ← call (r.parentOf task) r.mem
  return (obj, { r with mem := mem })

/-- `true` is the return value 0, `false` the return value -1. -/
def processLineItem (r : RedisReader ω μ) : Run (Bool × RedisReader ω μ) :=
  let cur := r.cur
  match readLine r with
  | some ((p, len), r) => do
      let (obj, r) ←
        if cur.type = some .integer then
          create (fun parent => fn.createInteger cur parent (readLongLong p)) r cur
        else create (fun parent => fn.createString cur parent p len) r cur
      let r ← moveToNextTask (setRootReply (r.ridx = 0) obj r)
      return (true, r)
  | none => return (false, r)

def processBulkItem (r : RedisReader ω μ) : Run (Bool × RedisReader ω μ) :=
  let cur := r.cur
  let p := r.unread
  match seekNewline p (r.len - r.pos) with
  | some s =>
      let len := readLongLong p
      if len < 0 then do
        let (obj, r) ← create (fun parent => fn.createNil cur parent) r cur
        let r := { r with pos := r.pos + (s + 2) }
        let r ← moveToNextTask (setRootReply (r.ridx = 0) obj r)
        return (true, r)
      else
        let bytelen := s + 2 + (len.toNat + 2)
        if r.pos + bytelen ≤ r.len then do
          let (obj, r) ←
            create (fun parent => fn.createString cur parent (p.drop (s + 2)) len.toNat) r cur
          let r := { r with pos := r.pos + bytelen }
          let r ← moveToNextTask (setRootReply (r.ridx = 0) obj r)
          return (true, r)
        else return (false, r)
  | none => return (false, r)

/-- The reply under way is freed, and stays where it was. -/
def redisSetReplyReaderError (r : RedisReader ω μ) (err : Bytes) : Run (RedisReader ω μ) := do
  let mem ←
    match r.reply with
    | some obj => fn.freeObject obj r.mem
    | none => Outcome.ok r.mem
  return { r with mem := mem, buf := [], pos := 0, ridx := -1, error := some err }

def processMultiBulkItem (r : RedisReader ω μ) : Run (Bool × RedisReader ω μ) :=
  let cur := r.cur
  if r.ridx = 2 then do
    let r ← redisSetReplyReaderError fn r depthError
    return (false, r)
  else
    match readLine r with
    | some ((p, _), r) => do
        let elements := readLongLong p
        let root : Bool := r.ridx = 0
        if elements = -1 then
          let (obj, r) ← create (fun parent => fn.createNil cur parent) r cur
          let r ← moveToNextTask r
          return (true, setRootReply root obj r)
        else
          let (obj, r) ← create (fun parent => fn.createArray cur parent (wrap 32 elements)) r cur
          if 0 < elements then
            let r := r.setCur { cur with elements := wrap 32 elements, obj := some obj }
            return (true, setRootReply root obj (pushTask r))
          else
            let r ← moveToNextTask r
            return (true, setRootReply root obj r)
    | none => return (false, r)

def processTyped (r : RedisReader ω μ) : Run (Bool × RedisReader ω μ) :=
  match r.cur.type with
  | some .error | some .status | some .integer => processLineItem fn r
  | some .string => processBulkItem fn r
  | some .array => processMultiBulkItem fn r
  | _ => .fault .assertion

def processItem (r : RedisReader ω μ) : Run (Bool × RedisReader ω μ) :=
  match r.cur.type with
  | none =>
      match readBytes r 1 with
      | some (p, r) =>
          -- the NUL that ends the buffer stands for a byte that is not there
          match replyTypeOf (p.getD 0 0) with
          | some t => processTyped fn (r.setCur { r.cur with type := some t })
          | none => do
              let r ← redisSetReplyReaderError fn r (typeByteError (p.getD 0 0))
              return (false, r)
      | none => return (false, r)
  | some _ => processTyped fn r

/-- The loop over the items of the reply; every item that is processed
takes a byte of the buffer at least. -/
def processItems : ℕ → RedisReader ω μ → Run (RedisReader ω μ)
  | 0, r => .ok r
  | n + 1, r =>
      if r.ridx < 0 then .ok r
      else do
        let (success, r) ← processItem fn r
        if success then processItems n r else return r

def redisReplyReaderSetPrivdata (r : RedisReader ω μ) (privdata : ℕ) : Status × RedisReader ω μ :=
  match r.reply with
  | none => (.ok, { r with privdata := some privdata })
  | some _ => (.err, r)

def redisReplyReaderFeed (r : RedisReader ω μ) (buf : Bytes) : RedisReader ω μ :=
  if 1 ≤ buf.length then { r with buf := r.buf ++ buf, len := (r.buf ++ buf).length } else r

/-- Set first item to process when the stack is empty. -/
def startReply (r : RedisReader ω μ) : RedisReader ω μ :=
  if r.ridx = -1 then
    { r with
      rstack := Function.update r.rstack 0 ⟨none, -1, -1, none, none, r.privdata⟩
      ridx := 0 }
  else r

def discardConsumed (r : RedisReader ω μ) : RedisReader ω μ :=
  if 0 < r.pos then
    let buf := if r.pos = r.len then [] else sdsrange r.buf r.pos r.len
    { r with buf := buf, pos := 0, len := buf.length }
  else r

def emitReply (r : RedisReader ω μ) : Status × Option ω × RedisReader ω μ :=
  if r.ridx = -1 then
    match r.error with
    | some _ => (.err, none, { r with reply := none })
    | none => (.ok, r.reply, { r with reply := none })
  else (.ok, none, r)

def redisReplyReaderGetReply (r : RedisReader ω μ) : Run (Status × Option ω × RedisReader ω μ) :=
  if r.len = 0 then return (.ok, none, r)
  else do
    let r ← processItems fn (r.len - r.pos + 1) (startReply r)
    return emitReply (discardConsumed r)

/-- What is left of the memory when the reader is freed. -/
def redisReplyReaderFree (r : RedisReader ω μ) : Run μ :=
  match r.reply with
  | some obj => fn.freeObject obj r.mem
  | none => .ok r.mem

end

end PhpHiredis.Objects
