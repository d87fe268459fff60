import PhpHiredis.Sock

/-!
# The methods of the extension

The methods of `redis.c` on a connected object, from the point where
`redis_sock_get` has found the connection, and `redis_varg_run` of `library.c`.
Parameters have been parsed already, so they have the types PHP promises.
A method that walks a queue takes one node at a time; a queue that is a cycle
would keep it walking for ever.
-/
namespace PhpHiredis

open Library Reader

variable {σ : Type}

section
variable (peer : Peer σ) (s : RedisSock σ)

def set (key val : Bytes) : Run (Returned × RedisSock σ) :=
  redisRun peer (redisSockGet s) .status (ascii "SET %b %b") [.bin key, .bin val]

def get (key : Bytes) : Run (Returned × RedisSock σ) :=
  redisRun peer (redisSockGet s) .string (ascii "GET %b") [.bin key]

/-- `delta` is a PHP integer; the second pattern takes an `int`. -/
def commonIncr (keyword key : Bytes) (delta : ℤ) : Run (Returned × RedisSock σ) :=
  if delta = 1 then
    redisRun peer (redisSockGet s) .long (keyword.take 4 ++ ascii " %b") [.bin key]
  else
    redisRun peer (redisSockGet s) .long (keyword.take 4 ++ ascii "BY %b %d")
      [.bin key, .int (wrap 32 delta)]

/-- The second argument is optional. -/
def incr (key : Bytes) (delta : Option ℤ) : Run (Returned × RedisSock σ) :=
  commonIncr peer s (ascii "INCR") key (delta.getD 1)

def decr (key : Bytes) (delta : Option ℤ) : Run (Returned × RedisSock σ) :=
  commonIncr peer s (ascii "DECR") key (delta.getD 1)

def incrby (key : Bytes) (delta : ℤ) : Run (Returned × RedisSock σ) :=
  commonIncr peer s (ascii "INCR") key delta

def decrby (key : Bytes) (delta : ℤ) : Run (Returned × RedisSock σ) :=
  commonIncr peer s (ascii "DECR") key delta

def hset (key field val : Bytes) : Run (Returned × RedisSock σ) :=
  redisRun peer (redisSockGet s) .long (ascii "HSET %b %b %b") [.bin key, .bin field, .bin val]

def hgetall (key : Bytes) : Run (Returned × RedisSock σ) :=
  redisRun peer (redisSockGet s) .zip (ascii "HGETALL %b") [.bin key]

def lrange (key : Bytes) (start stop : ℤ) : Run (Returned × RedisSock σ) :=
  redisRun peer (redisSockGet s) .array (ascii "LRANGE %b %d %d")
    [.bin key, .int (wrap 32 start), .int (wrap 32 stop)]

def setnx (key val : Bytes) : Run (Returned × RedisSock σ) :=
  redisRun peer (redisSockGet s) .longAsBool (ascii "SETNX %b %b") [.bin key, .bin val]

def getset (key val : Bytes) : Run (Returned × RedisSock σ) :=
  redisRun peer (redisSockGet s) .string (ascii "GETSET %b %b") [.bin key, .bin val]

def ping : Run (Returned × RedisSock σ) :=
  redisRun peer (redisSockGet s) .string (ascii "PING") []

def randomKey : Run (Returned × RedisSock σ) :=
  redisRun peer (redisSockGet s) .string (ascii "RANDOMKEY") []

def exists_ (key : Bytes) : Run (Returned × RedisSock σ) :=
  redisRun peer (redisSockGet s) .longAsBool (ascii "EXISTS %b") [.bin key]

end

/-- A vector of `emalloc` with its slots, empty until they are written. -/
abbrev Slots (α : Type) := List (Option α)

def Slots.write {α : Type} (v : Slots α) (i : ℕ) (a : α) : Run (Slots α) :=
  if i < v.length then .ok (v.set i (some a)) else .fault .outOfBounds

def Slots.read {α : Type} (v : Slots α) (i : ℕ) : Run α :=
  match v[i]? with
  | none => .fault .outOfBounds
  | some none => .fault .nullPointer
  | some (some a) => .ok a

/-- `zend_hash_index_find`. -/
def indexFind (es : HashTable) (i : ℕ) : Option Zval := OrderedMap.lookup (.index i) es

/-- Copy the elements `i`, `i + 1`, .. of the array, `n` of them, to the slots
from `i + copyTo` on; `none` when an index is missing. -/
def copyElements (es : HashTable) (copyTo : ℕ) : ℕ → ℕ → Slots Zval → Run (Option (Slots Zval))
  | 0, _, z_args => .ok (some z_args)
  | n + 1, i, z_args =>
      match indexFind es i with
      | none => .ok none
      | some z => do
          let z_args ← z_args.write (i + copyTo) z
          copyElements es copyTo n (i + 1) z_args

/-- The three vectors after all arguments were copied as strings: those at `i`,
`i + 1`, .., `n` of them. -/
def convertArgs : ℕ → ℕ → Slots Zval → Slots Bytes → Slots ℕ →
    Run (Slots Zval × Slots Bytes × Slots ℕ)
  | 0, _, z_args, args, arglen => .ok (z_args, args, arglen)
  | n + 1, i, z_args, args, arglen => do
      let z ← z_args.read i
      let str := z.convertToString
      let z_args ← z_args.write i (.string str)
      let args ← args.write (i + 1) str
      let arglen ← arglen.write (i + 1) str.length
      convertArgs n (i + 1) z_args args arglen

/-- The arguments that the encoder reads from the two vectors. -/
def readArgv (args : Slots Bytes) (arglen : Slots ℕ) : ℕ → ℕ → Run (List Bytes)
  | 0, _ => .ok []
  | n + 1, j => do
      let arg ← args.read j
      let len ← arglen.read j
      let rest ← readArgv args arglen n (j + 1)
      return arg.take len :: rest

/-- The arguments of a call in a vector of their own, and where the elements of
an array are to be copied. -/
def layoutArgs (params : List Zval) : Run (Slots Zval × ℕ × Option (HashTable × ℕ)) :=
  match params with
  | [z_key, .array es] => do
      let z_args : Slots Zval := List.replicate (1 + es.length) none
      let z_args ← z_args.write 0 z_key
      return (z_args, 1 + es.length, some (es, 1))
  -- the vector keeps its one slot
  | [.array es] => return ([some (.array es)], es.length, some (es, 0))
  | _ => return (params.map some, params.length, none)

/-- The part of `redis_varg_run` that comes before `redis_sock_get`: the request,
and the arguments kept for the validator; `none` when an index is missing. -/
def vargArgv (keyword : Bytes) (keepArgs : Bool) (params : List Zval) :
    Run (Option (List Bytes × Option (List Zval))) := do
  let (z_args, argc, copy) ← layoutArgs params
  let copied ← match copy with
    | none => pure (some z_args)
    | some (es, copyTo) => copyElements es copyTo es.length 0 z_args
  match copied with
  | none => return none
  | some z_args => do
      let args : Slots Bytes := List.replicate (argc + 1) none
      let arglen : Slots ℕ := List.replicate (argc + 1) none
      let (z_args, args, arglen) ← convertArgs argc 0 z_args args arglen
      let args ← args.write 0 keyword
      let arglen ← arglen.write 0 keyword.length
      let argv ← readArgv args arglen (argc + 1) 0
      return some (argv, if keepArgs then some (z_args.map fun z => z.getD .null) else none)

def redisVargRun (peer : Peer σ) (s : RedisSock σ) (keyword : Bytes) (fn : Validator)
    (keepArgs : Bool) (params : List Zval) : Run (Returned × RedisSock σ) := do
  match ← vargArgv keyword keepArgs params with
  | none => return (.value .false, s)
  | some (argv, closureArgs) => redisRunArgs peer (redisSockGet s) fn argv closureArgs

section
variable (peer : Peer σ) (s : RedisSock σ)

def hmget (params : List Zval) : Run (Returned × RedisSock σ) :=
  redisVargRun peer s (ascii "HMGET") .zipClosure true params

def delete (params : List Zval) : Run (Returned × RedisSock σ) :=
  redisVargRun peer s (ascii "DEL") .long false params

def getmultiple (params : List Zval) : Run (Returned × RedisSock σ) :=
  redisVargRun peer s (ascii "MGET") .array false params

end

def pipeline (s : RedisSock σ) : Run (Returned × RedisSock σ) :=
  let s := redisSockGet s
  if s.mode = .direct ∧ s.pipeline = 0 then
    return (.self, { s with pipeline := 1, queue_head := none, queue_tail := none })
  else return (.value .false, s)

/-- `c->fun(z, c->z_args)`. -/
def callFun (c : RedisCommand) (z : Zval) : Run (ℕ × Zval) :=
  match c.fun with
  | none => .fault .nullPointer
  | some fn => fn.apply z c.z_args

/-- The loop over a transaction block and the elements of its reply, which stops
at the end of either. -/
def replayBlock (heap : Heap) : Option ℕ → List Zval → HashTable → Run HashTable
  | none, _, tab => .ok tab
  | some _, [], tab => .ok tab
  | some cm, z :: zs, tab => do
      let (r, z) ← callFun (heap.cells cm) z
      replayBlock heap (heap.cells cm).next zs (if r = 0 then addNextIndex z tab else tab)

/-- The loop of `send` over the main queue. The variable for the reply of the
node `c` is `c + 1`. A plain value is handed on as the zval itself; nothing
writes to that zval any more. -/
def sendLoop (peer : Peer σ) (heap : Heap) :
    ℕ → Option ℕ → ExtContext σ → HashTable → Run (HashTable × ExtContext σ)
  | _, none, ctx, ret => .ok (ret, ctx)
  | 0, some _, _, _ => .blocked
  | n + 1, some c, ctx, ret => do
      let (z_current, ctx) ← readInto peer (makeZval ctx (c + 1)) (c + 1)
      match (heap.cells c).multi with
      | some cm =>
          -- apply function on a multi block
          let h_index ← z_current.arrval
          let z_tab ← replayBlock heap (some cm) (h_index.map Prod.snd) []
          sendLoop peer heap n (heap.cells c).next (freeZval ctx (c + 1))
            (addNextIndex (.array z_tab) ret)
      | none =>
          let (r, z) ← callFun (heap.cells c) z_current
          sendLoop peer heap n (heap.cells c).next ctx (if r = 0 then addNextIndex z ret else ret)

def send (peer : Peer σ) (s : RedisSock σ) : Run (Returned × RedisSock σ) :=
  let s := redisSockGet s
  if s.pipeline = 0 ∨ s.mode ≠ .direct then return (.value .false, s)
  else do
    let (ret, ctx) ← sendLoop peer s.heap s.heap.size s.queue_head s.ctx []
    return (.value (.array ret),
      { s with ctx := ctx, pipeline := 0, queue_head := none, queue_tail := none })

def multi (peer : Peer σ) (s : RedisSock σ) : Run (Returned × RedisSock σ) :=
  let s := redisSockGet s
  if s.mode = .direct then do
    let s := redisSockGet s
    let ctx ← redisAppendCommand s.ctx (ascii "MULTI") []
    let s := { s with ctx := ctx }
    if s.pipeline = 0 then
      let s := { s with multi := 1 }
      let (z_reply, ctx) ← readInto peer (makeZval s.ctx 1) 1
      let s := { s with ctx := ctx }
      match z_reply with
      | .undef => .fault .uninitialised
      | .bool true =>
          return (.self, { s with
            ctx := freeZval s.ctx 1, mode := .transaction, multi_head := none, multi_tail := none })
      | _ => return (.value .false, { s with ctx := freeZval s.ctx 1 })
    else
      let s := redisEnqueue { s with multi := 1 } .status none
      return (.self, { s with mode := .transaction, multi_head := none, multi_tail := none })
  else return (.value .false, s)

/-- The loop of `exec` that skips confirmations: one reply for every node of the
main queue. -/
def skipLoop (peer : Peer σ) (heap : Heap) :
    ℕ → Option ℕ → ExtContext σ → Run (ExtContext σ)
  | _, none, ctx => .ok ctx
  | 0, some _, _ => .blocked
  | n + 1, some c, ctx => do
      let (_, ctx) ← readInto peer (makeZval ctx (c + 1)) (c + 1)
      skipLoop peer heap n (heap.cells c).next (freeZval ctx (c + 1))

def exec (peer : Peer σ) (s : RedisSock σ) : Run (Returned × RedisSock σ) := do
  let s := redisSockGet s
  let ctx ← redisAppendCommand s.ctx (ascii "EXEC") []
  let s := { s with ctx := ctx }
  if s.pipeline = 0 then
    let ctx ← skipLoop peer s.heap s.heap.size s.queue_head s.ctx
    let x := s.heap.size + 1
    let (z_tab, ctx) ← readInto peer (makeZval ctx x) x
    let h_index ← z_tab.arrval
    let ret ← replayBlock s.heap s.multi_head (h_index.map Prod.snd) []
    return (.value (.array ret), { s with
      ctx := freeZval ctx x, multi := 0, mode := .direct, multi_head := none, multi_tail := none })
  else
    let join := s.heap.size
    let s := { s with heap := s.heap.alloc ⟨none, none, none, s.multi_head⟩ }
    -- the tail of the queue is followed without a check
    match s.queue_tail with
    | none => .fault .nullPointer
    | some t =>
        return (.self, { s with
          heap := s.heap.setNext t join
          queue_tail := some join
          multi := 0
          multi_commands := 0
          mode := .direct })

end PhpHiredis
