import PhpHiredis.Quoting
import PhpHiredis.Zval

/-!
# The reply reader and the hooks that build PHP values

The incremental parser of `hiredis.c` with the object functions of `hooks.c`.
A buffer is the byte string before the terminating NUL of its sds; reading one
place past the end gives that NUL. The hooks act by side effect on zvals, so
the memory of zvals travels with the reader, although it is not one of its
fields in the source. `freeObject` does nothing, and capacities of buffers are
not modelled.
-/
namespace PhpHiredis.Reader

open Library

inductive ReplyType where
  | error
  | string
  | array
  | integer
  | nil
  | status
  deriving DecidableEq, Repr

/-- `type` is `none` where the source has -1; a parent is given by its index in
the stack of tasks, a zval by where it is. -/
structure RedisReadTask where
  type : Option ReplyType
  elements : ℤ
  idx : ℤ
  obj : Option Loc
  parent : Option ℕ
  privdata : Option ℕ
  deriving DecidableEq, Repr

structure RedisReader where
  error : Option Bytes
  reply : Option Loc
  buf : Bytes
  pos : ℕ
  len : ℕ
  rstack : ℕ → RedisReadTask
  ridx : ℤ
  privdata : Option ℕ
  mem : Mem

inductive Status where
  | ok
  | err
  deriving DecidableEq, Repr

/-- A task as `calloc` leaves it: type 0 is that of an error. -/
def clearedTask : RedisReadTask := ⟨some .error, 0, 0, none, none, none⟩

def redisReplyReaderCreate (mem : Mem) : RedisReader :=
  { error := none, reply := none, buf := [], pos := 0, len := 0,
    rstack := fun _ => clearedTask, ridx := -1, privdata := none, mem := mem }

def RedisReader.unread (r : RedisReader) : Bytes := r.buf.drop r.pos

def RedisReader.cur (r : RedisReader) : RedisReadTask := r.rstack r.ridx.toNat

def RedisReader.setCur (r : RedisReader) (t : RedisReadTask) : RedisReader :=
  { r with rstack := Function.update r.rstack r.ridx.toNat t }

/-- Fill in a reply object and hang it where it belongs. For an element of an
array the object is a new zval, added to the array of the parent task; for the
root of a reply it is the zval the caller passed as private data. -/
def tryParentize (r : RedisReader) (task : RedisReadTask) (fill : Zval → Zval) :
    Run (Loc × RedisReader) :=
  match task.parent with
  | some p =>
      match (r.rstack p).obj with
      | none => .fault .nullPointer
      | some l => do
          let mem ← r.mem.addIndex l task.idx (fill .undef)
          return (l.child task.idx, { r with mem := mem })
  | none =>
      match task.privdata with
      | none => .fault .nullPointer
      | some x =>
          match r.mem x with
          | none => .fault .useAfterFree
          | some z => return (⟨x, []⟩, { r with mem := r.mem.set x (fill z) })

def createStringObject (r : RedisReader) (task : RedisReadTask) (str : Bytes) (len : ℕ) :
    Run (Loc × RedisReader) :=
  tryParentize r task fun z =>
    match task.type with
    | some .error => .false
    | some .status =>
        if len = 4 ∧ str.take 4 = ascii "PONG" then .string (ascii "+PONG") else .true
    | some .string => .string (str.take len)
    | _ => z

def createArrayObject (r : RedisReader) (task : RedisReadTask) (_elements : ℤ) :
    Run (Loc × RedisReader) :=
  tryParentize r task fun _ => .array []

def createIntegerObject (r : RedisReader) (task : RedisReadTask) (value : ℤ) :
    Run (Loc × RedisReader) :=
  tryParentize r task fun _ => .long value

def createNilObject (r : RedisReader) (task : RedisReadTask) : Run (Loc × RedisReader) :=
  tryParentize r task fun _ => .false

def readBytes (r : RedisReader) (bytes : ℕ) : Option (Bytes × RedisReader) :=
  if bytes ≤ r.len - r.pos then some (r.unread, { r with pos := r.pos + bytes }) else none

/-- The inner loop of `seekNewline`; at most `len` positions are left. -/
def skipToCR (s : Bytes) (len : ℕ) : ℕ → ℕ → ℕ
  | 0, pos => pos
  | n + 1, pos =>
      if pos + 1 < len ∧ s.getD pos 0 ≠ CR then skipToCR s len n (pos + 1) else pos

def seekNewlineFrom (s : Bytes) (len : ℕ) : ℕ → ℕ → Option ℕ
  | 0, _ => none
  | n + 1, pos =>
      if pos + 1 < len then
        let pos := skipToCR s len len pos
        if s.getD pos 0 ≠ CR then none
        else if s.getD (pos + 1) 0 = LF then some pos
        else seekNewlineFrom s len n (pos + 1)
      else none

/-- The offset of the first CR LF in the `len` bytes at `s`. -/
def seekNewline (s : Bytes) (len : ℕ) : Option ℕ := seekNewlineFrom s len len 0

def dec (c : UInt8) : ℤ := (c.toNat : ℤ) - 48

/-- The digits up to the CR, on top of `v`; `none` at any other byte. -/
def readDigits (v : ℤ) : Bytes → Option ℤ
  | [] => none
  | c :: s =>
      if c = CR then some v
      else if 0 ≤ dec c ∧ dec c < 10 then readDigits (wrap 64 (wrap 64 (v * 10) + dec c)) s
      else none

/-- Ambiguously returns -1 for unexpected input, as the source says. -/
def readLongLong (s : Bytes) : ℤ :=
  let signed : ℤ × Bytes :=
    if s.head? = some 45 then (-1, s.tail)
    else if s.head? = some 43 then (1, s.tail)
    else (1, s)
  match readDigits 0 signed.2 with
  | some v => wrap 64 (signed.1 * v)
  | none => -1

/-- The rest of the buffer and the length of the line at its start. -/
def readLine (r : RedisReader) : Option ((Bytes × ℕ) × RedisReader) :=
  match seekNewline r.unread (r.len - r.pos) with
  | some len => some ((r.unread, len), { r with pos := r.pos + (len + 2) })
  | none => none

def RedisReader.pop (r : RedisReader) : RedisReader := { r with ridx := r.ridx - 1 }

/-- One turn of the loop per level of the stack at most. -/
def moveToNextTaskFor : ℕ → RedisReader → Run RedisReader
  | 0, r => .ok r
  | n + 1, r =>
      if r.ridx < 0 then .ok r
      -- the stack is now empty
      else if r.ridx = 0 then .ok r.pop
      else
        let cur := r.cur
        let prv := r.rstack (r.ridx.toNat - 1)
        if prv.type ≠ some .array then .fault .assertion
        else if cur.idx = prv.elements - 1 then
          moveToNextTaskFor n r.pop
        else if cur.idx < prv.elements then
          .ok (r.setCur { cur with type := none, elements := -1, idx := cur.idx + 1 })
        else .fault .assertion

def moveToNextTask (r : RedisReader) : Run RedisReader :=
  moveToNextTaskFor (r.ridx + 1).toNat r

def setRootReply (root : Bool) (obj : Loc) (r : RedisReader) : RedisReader :=
  if root then { r with reply := some obj } else r

/-- `true` is the return value 0, `false` the return value -1. -/
def processLineItem (r : RedisReader) : Run (Bool × RedisReader) :=
  let cur := r.cur
  match readLine r with
  | some ((p, len), r) => do
      let (obj, r) ←
        if cur.type = some .integer then createIntegerObject r cur (readLongLong p)
        else createStringObject r cur p len
      let r ← moveToNextTask (setRootReply (r.ridx = 0) obj r)
      return (true, r)
  | none => return (false, r)

def processBulkItem (r : RedisReader) : Run (Bool × RedisReader) :=
  let cur := r.cur
  let p := r.unread
  match seekNewline p (r.len - r.pos) with
  | some s =>
      let len := readLongLong p
      if len < 0 then do
        let (obj, r) ← createNilObject r cur
        let r := { r with pos := r.pos + (s + 2) }
        let r ← moveToNextTask (setRootReply (r.ridx = 0) obj r)
        return (true, r)
      else
        let bytelen := s + 2 + (len.toNat + 2)
        if r.pos + bytelen ≤ r.len then do
          let (obj, r) ← createStringObject r cur (p.drop (s + 2)) len.toNat
          let r := { r with pos := r.pos + bytelen }
          let r ← moveToNextTask (setRootReply (r.ridx = 0) obj r)
          return (true, r)
        else return (false, r)
  | none => return (false, r)

def redisSetReplyReaderError (r : RedisReader) (err : Bytes) : RedisReader :=
  { r with buf := [], pos := 0, ridx := -1, error := some err }

/-- The task of the first element of the array on top of the stack. -/
def pushTask (r : RedisReader) : RedisReader :=
  let parent := r.ridx.toNat
  { r with
    ridx := r.ridx + 1
    rstack := Function.update r.rstack (r.ridx + 1).toNat
      ⟨none, -1, 0, none, some parent, r.privdata⟩ }

def depthError : Bytes := ascii "No support for nested multi bulk replies with depth > 1"

def processMultiBulkItem (r : RedisReader) : Run (Bool × RedisReader) :=
  let cur := r.cur
  if r.ridx = 2 then
    return (false, redisSetReplyReaderError r depthError)
  else
    match readLine r with
    | some ((p, _), r) => do
        let elements := readLongLong p
        let root : Bool := r.ridx = 0
        if elements = -1 then
          let (obj, r) ← createNilObject r cur
          let r ← moveToNextTask r
          return (true, setRootReply root obj r)
        else
          let (obj, r) ← createArrayObject r cur (wrap 32 elements)
          if 0 < elements then
            let r := r.setCur { cur with elements := wrap 32 elements, obj := some obj }
            return (true, setRootReply root obj (pushTask r))
          else
            let r ← moveToNextTask r
            return (true, setRootReply root obj r)
    | none => return (false, r)

def replyTypeOf (b : UInt8) : Option ReplyType :=
  if b = 45 then some .error
  else if b = 43 then some .status
  else if b = 58 then some .integer
  else if b = 36 then some .string
  else if b = 42 then some .array
  else none

def typeByteError (b : UInt8) : Bytes :=
  ascii "Protocol error, got " ++ Sds.sdscatrepr [] [b] ++ ascii " as reply type byte"

def processTyped (r : RedisReader) : Run (Bool × RedisReader) :=
  match r.cur.type with
  | some .error | some .status | some .integer => processLineItem r
  | some .string => processBulkItem r
  | some .array => processMultiBulkItem r
  | _ => .fault .assertion

def processItem (r : RedisReader) : Run (Bool × RedisReader) :=
  match r.cur.type with
  | none =>
      match readBytes r 1 with
      | some (p, r) =>
          -- the NUL that ends the buffer stands for a byte that is not there
          match replyTypeOf (p.getD 0 0) with
          | some t => processTyped (r.setCur { r.cur with type := some t })
          | none => return (false, redisSetReplyReaderError r (typeByteError (p.getD 0 0)))
      | none => return (false, r)
  | some _ => processTyped r

/-- The loop over the items of the reply; every item that is processed
takes a byte of the buffer at least. -/
def processItems : ℕ → RedisReader → Run RedisReader
  | 0, r => .ok r
  | n + 1, r =>
      if r.ridx < 0 then .ok r
      else do
        let (success, r) ← processItem r
        if success then processItems n r else return r

/-- `sdsrange` for a start within the string; a negative end counts from its end. -/
def sdsrange (s : Bytes) (start : ℕ) (stop : ℤ) : Bytes :=
  let stop := if stop < 0 then max 0 (s.length + stop) else stop
  if s.length = 0 then s
  else if stop < start then []
  else
    let start := min start (s.length - 1)
    let stop := min stop.toNat (s.length - 1)
    (s.drop start).take (stop + 1 - start)

/-- The private data of a reader can be set while no reply is under way. -/
def redisReplyReaderSetPrivdata (r : RedisReader) (privdata : ℕ) : RedisReader :=
  match r.reply with
  | none => { r with privdata := some privdata }
  | some _ => r

def redisReplyReaderFeed (r : RedisReader) (buf : Bytes) : RedisReader :=
  if 1 ≤ buf.length then { r with buf := r.buf ++ buf, len := (r.buf ++ buf).length } else r

/-- Set first item to process when the stack is empty. -/
def startReply (r : RedisReader) : RedisReader :=
  if r.ridx = -1 then
    { r with
      rstack := Function.update r.rstack 0 ⟨none, -1, -1, none, none, r.privdata⟩
      ridx := 0 }
  else r

def discardConsumed (r : RedisReader) : RedisReader :=
  if 0 < r.pos then
    let buf := if r.pos = r.len then [] else sdsrange r.buf r.pos r.len
    { r with buf := buf, pos := 0, len := buf.length }
  else r

def emitReply (r : RedisReader) : Status × Option Loc × RedisReader :=
  if r.ridx = -1 then
    match r.error with
    | some _ => (.err, none, { r with reply := none })
    | none => (.ok, r.reply, { r with reply := none })
  else (.ok, none, r)

def redisReplyReaderGetReply (r : RedisReader) : Run (Status × Option Loc × RedisReader) :=
  if r.len = 0 then return (.ok, none, r)
  else do
    let r := startReply r
    let r ← processItems (r.len - r.pos + 1) r
    return emitReply (discardConsumed r)

end PhpHiredis.Reader
