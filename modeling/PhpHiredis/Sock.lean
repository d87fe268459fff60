import PhpHiredis.Context
import PhpHiredis.Format
import PhpHiredis.Validators

/-!
# The connection object and its queues

`RedisSock` is the structure behind a `HiRedis` object. Its two queues are
linked lists of `redis_command` nodes; the nodes live in a heap that travels
with the structure, where a node is named by its address. Nodes are never
freed.
-/
namespace PhpHiredis

open Library Reader

inductive RedisMode where
  | direct
  | transaction
  deriving DecidableEq, Repr

structure RedisCommand where
  «fun» : Option Validator
  z_args : Option (List Zval)
  next : Option ℕ
  multi : Option ℕ

/-- A node as `ecalloc` leaves it. -/
def clearedCommand : RedisCommand := ⟨none, none, none, none⟩

/-- The nodes allocated so far are those below `size`. -/
structure Heap where
  cells : ℕ → RedisCommand
  size : ℕ

def Heap.empty : Heap := ⟨fun _ => clearedCommand, 0⟩

/-- The address of the new node is the old size. -/
def Heap.alloc (h : Heap) (c : RedisCommand) : Heap :=
  ⟨Function.update h.cells h.size c, h.size + 1⟩

def Heap.setNext (h : Heap) (a c : ℕ) : Heap :=
  { h with cells := Function.update h.cells a { h.cells a with next := some c } }

/-- `pipeline` and `multi` are C flags; `multi_commands` is only ever counted. -/
structure RedisSock (σ : Type) where
  ctx : ExtContext σ
  mode : RedisMode
  pipeline : ℕ
  multi : ℕ
  multi_commands : ℕ
  queue_head : Option ℕ
  queue_tail : Option ℕ
  multi_head : Option ℕ
  multi_tail : Option ℕ
  heap : Heap

variable {σ : Type}

/-- The object after a successful `connect`: everything else is zero. -/
def RedisSock.connected (ctx : ExtContext σ) : RedisSock σ :=
  { ctx := ctx, mode := .direct, pipeline := 0, multi := 0, multi_commands := 0,
    queue_head := none, queue_tail := none, multi_head := none, multi_tail := none,
    heap := .empty }

/-- The `redisEnqueue_` of a node on a queue, given by its head and tail. -/
def redisEnqueue_ (heap : Heap) (h t : Option ℕ) (c : ℕ) : Heap × Option ℕ × Option ℕ :=
  match t with
  | none => (heap, some c, some c)
  | some t => (heap.setNext t c, h, some c)

def enqueueMain (s : RedisSock σ) (c : ℕ) : RedisSock σ :=
  let (heap, h, t) := redisEnqueue_ s.heap s.queue_head s.queue_tail c
  { s with heap := heap, queue_head := h, queue_tail := t }

def enqueueMulti (s : RedisSock σ) (c : ℕ) : RedisSock σ :=
  let (heap, h, t) := redisEnqueue_ s.heap s.multi_head s.multi_tail c
  { s with heap := heap, multi_head := h, multi_tail := t }

def redisEnqueue (s : RedisSock σ) (fn : Validator) (z_args : Option (List Zval)) : RedisSock σ :=
  let c := s.heap.size
  let s := { s with heap := s.heap.alloc ⟨some fn, z_args, none, none⟩ }
  if s.multi ≠ 0 then
    -- a skip on the main queue, the real reader on the side
    let skip := s.heap.size
    let s := { s with heap := s.heap.alloc ⟨some .skip, none, none, none⟩ }
    let s := enqueueMulti (enqueueMain s skip) c
    { s with multi_commands := s.multi_commands + 1 }
  else enqueueMain s c

def returnValue : ℕ := 0

/-- `return_value` is `NULL` when a method is called. -/
def callMem : Mem := fun x => if x = returnValue then some .null else none

/-- `redis_sock_get`, once the resource has been found: every call reads with a
new reader. What the old one could not use is lost. -/
def redisSockGet (s : RedisSock σ) : RedisSock σ :=
  { s with ctx := { s.ctx with reader := redisReplyReaderCreate callMem } }

/-- `MAKE_STD_ZVAL` for the variable `x`. -/
def makeZval (c : ExtContext σ) (x : ℕ) : ExtContext σ :=
  { c with reader := { c.reader with mem := c.reader.mem.set x .undef } }

/-- `zval_dtor` and `efree`. -/
def freeZval (c : ExtContext σ) (x : ℕ) : ExtContext σ :=
  { c with reader := { c.reader with mem := Function.update c.reader.mem x none } }

/-- Read a reply into the variable `x`. The status is ignored. -/
def readInto (peer : Peer σ) (c : ExtContext σ) (x : ℕ) : Run (Zval × ExtContext σ) := do
  let (_, _, c) ← redisGetReply peer
    { c with reader := redisReplyReaderSetPrivdata c.reader x }
  match c.reader.mem x with
  | none => .fault .useAfterFree
  | some z => return (z, c)

/-- What a method hands back: a value, or the object itself. -/
inductive Returned where
  | value (z : Zval)
  | self

/-- The end of `REDIS_RUN` and `REDIS_RUN_ARGS`. -/
def redisRunEnd (peer : Peer σ) (s : RedisSock σ) (fn : Validator)
    (closureArgs : Option (List Zval)) : Run (Returned × RedisSock σ) := do
  let s := redisEnqueue s fn none
  -- no pipeline, read the result
  if s.pipeline = 0 ∧ s.multi = 0 then
    let (z, ctx) ← readInto peer s.ctx returnValue
    let (_, z) ← fn.apply z closureArgs
    return (.value z, { s with ctx := ctx })
  else return (.self, s)

section
variable (s : RedisSock σ) (fn : Validator) (z_args : Option (List Zval))

@[simp] theorem redisEnqueue_ctx : (redisEnqueue s fn z_args).ctx = s.ctx := by
  unfold redisEnqueue
  simp only []
  split_ifs <;> rfl

@[simp] theorem redisEnqueue_mode : (redisEnqueue s fn z_args).mode = s.mode := by
  unfold redisEnqueue
  simp only []
  split_ifs <;> rfl

@[simp] theorem redisEnqueue_pipeline : (redisEnqueue s fn z_args).pipeline = s.pipeline := by
  unfold redisEnqueue
  simp only []
  split_ifs <;> rfl

@[simp] theorem redisEnqueue_multi : (redisEnqueue s fn z_args).multi = s.multi := by
  unfold redisEnqueue
  simp only []
  split_ifs <;> rfl

end

theorem redisRunEnd_queued (peer : Peer σ) {s : RedisSock σ} (h : ¬(s.pipeline = 0 ∧ s.multi = 0))
    (fn : Validator) (closureArgs : Option (List Zval)) :
    redisRunEnd peer s fn closureArgs = .ok (.self, redisEnqueue s fn none) := by
  simp only [redisRunEnd, redisEnqueue_pipeline, redisEnqueue_multi, h, if_false, Outcome.pure_eq]

theorem redisRunEnd_direct (peer : Peer σ) {s : RedisSock σ} (h : s.pipeline = 0 ∧ s.multi = 0)
    (fn : Validator) (closureArgs : Option (List Zval)) :
    redisRunEnd peer s fn closureArgs = (do
      let (z, ctx) ← readInto peer s.ctx returnValue
      let (_, z) ← fn.apply z closureArgs
      return (.value z, { redisEnqueue s fn none with ctx := ctx })) := by
  simp only [redisRunEnd, redisEnqueue_pipeline, redisEnqueue_multi, redisEnqueue_ctx, h, and_self,
    if_true]

def redisRun (peer : Peer σ) (s : RedisSock σ) (fn : Validator) (pattern : Bytes)
    (ap : List FormatArg) : Run (Returned × RedisSock σ) := do
  let ctx ← redisAppendCommand s.ctx pattern ap
  redisRunEnd peer { s with ctx := ctx } fn none

def redisRunArgs (peer : Peer σ) (s : RedisSock σ) (fn : Validator) (argv : List Bytes)
    (closureArgs : Option (List Zval)) : Run (Returned × RedisSock σ) := do
  let ctx ← redisAppendCommandArgv s.ctx argv
  redisRunEnd peer { s with ctx := ctx } fn closureArgs

end PhpHiredis
