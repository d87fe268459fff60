import PhpHiredis.Library.InStep
import PhpHiredis.ObjectReader
import Mathlib.Tactic.Simps.Basic

/-!
# The extension's table of functions

`hooks.c` as a table for the reader of the library: with it, the reader that takes any table
and the reader with these functions built in make the same calls on the same zvals. They
return the same, whatever arrives and in whatever order they are called.
-/
namespace PhpHiredis.Objects

open Library Reader

/-- The functions of `hooks.c` differ in what they fill in. -/
def hook (task : RedisReadTask Loc) (parent : Option (RedisReadTask Loc)) (fill : Zval → Zval)
    (mem : Mem) : Run (Loc × Mem) :=
  match parent with
  | some p =>
      match p.obj with
      | none => .fault .nullPointer
      | some l => do
          let mem ← mem.addIndex l task.idx (fill .undef)
          return (l.child task.idx, mem)
  | none =>
      match task.privdata with
      | none => .fault .nullPointer
      | some x =>
          match mem x with
          | none => .fault .useAfterFree
          | some z => return (⟨x, []⟩, mem.set x (fill z))

def redisExtReplyObjectFunctions : RedisReplyObjectFunctions Loc Mem where
  createString task parent str len mem :=
    hook task parent (fun z =>
      match task.type with
      | some .error => .false
      | some .status =>
          if len = 4 ∧ str.take 4 = ascii "PONG" then .string (ascii "+PONG") else .true
      | some .string => .string (str.take len)
      | _ => z) mem
  createArray task parent _ mem := hook task parent (fun _ => .array []) mem
  createInteger task parent value mem := hook task parent (fun _ => .long value) mem
  createNil task parent mem := hook task parent (fun _ => .false) mem
  freeObject _ mem := .ok mem

@[simps] def ofTask (t : Reader.RedisReadTask) : RedisReadTask Loc :=
  ⟨t.type, t.elements, t.idx, t.obj, t.parent, t.privdata⟩

/-- The reader of the library in the state of the extension's reader. -/
@[simps] def ofReader (r : Reader.RedisReader) : RedisReader Loc Mem :=
  { error := r.error, reply := r.reply, buf := r.buf, pos := r.pos, len := r.len,
    rstack := fun i => ofTask (r.rstack i), ridx := r.ridx, privdata := r.privdata, mem := r.mem }

/-- The same result, with readers in the same state. -/
def SameResult {α : Type} (x : α × Reader.RedisReader) (y : α × RedisReader Loc Mem) : Prop :=
  y = (x.1, ofReader x.2)

theorem ofReader_setCur (r : Reader.RedisReader) (t : Reader.RedisReadTask) :
    (ofReader r).setCur (ofTask t) = ofReader (r.setCur t) := by
  unfold RedisReader.setCur Reader.RedisReader.setCur ofReader
  congr 1
  funext i
  by_cases hi : i = r.ridx.toNat
  · subst hi
    simp
  · simp [Function.update_of_ne hi]

@[simp] theorem ofReader_cur (r : Reader.RedisReader) :
    (ofReader r).cur = ofTask r.cur := rfl

@[simp] theorem ofReader_pop (r : Reader.RedisReader) :
    (ofReader r).pop = ofReader r.pop := rfl

@[simp] theorem ofReader_unread (r : Reader.RedisReader) :
    (ofReader r).unread = r.unread := rfl

theorem ofReader_memory (r : Reader.RedisReader) :
    (ofReader r).mem = r.mem := rfl

theorem ofReader_pushTask (r : Reader.RedisReader) :
    pushTask (ofReader r) = ofReader (Reader.pushTask r) := by
  unfold pushTask Reader.pushTask ofReader
  congr 1
  funext i
  by_cases hi : i = (r.ridx + 1).toNat
  · subst hi
    simp [ofTask]
  · simp [Function.update_of_ne hi]

theorem ofReader_setRootReply (root : Bool) (obj : Loc) (r : Reader.RedisReader) :
    setRootReply root obj (ofReader r) = ofReader (Reader.setRootReply root obj r) := by
  cases root <;> rfl

theorem ofReader_readBytes (r : Reader.RedisReader) (n : ℕ) :
    readBytes (ofReader r) n =
      (Reader.readBytes r n).map fun x => (x.1, ofReader x.2) := by
  unfold readBytes Reader.readBytes
  simp only [ofReader_len, ofReader_pos, ofReader_unread]
  split_ifs <;> rfl

theorem ofReader_readLine (r : Reader.RedisReader) :
    readLine (ofReader r) = (Reader.readLine r).map fun x => (x.1, ofReader x.2) := by
  unfold readLine Reader.readLine
  simp only [ofReader_len, ofReader_pos, ofReader_unread]
  cases seekNewline r.unread (r.len - r.pos) <;> rfl

section
variable {r : Reader.RedisReader}

theorem moveToNextTaskFor_same (n : ℕ) :
    InStep (fun r r' => r' = ofReader r) (Reader.moveToNextTaskFor n r)
      (moveToNextTaskFor n (ofReader r)) := by
  induction n generalizing r with
  | zero => exact .ok rfl
  | succ n ih =>
      unfold Reader.moveToNextTaskFor moveToNextTaskFor
      simp only [ofReader_ridx, ofReader_cur, ofReader_rstack, ofTask_type, ofTask_idx,
        ofTask_elements, ofReader_pop]
      split_ifs
      · exact .ok rfl
      · exact .ok rfl
      · exact .fault _
      · exact ih (r := r.pop)
      · exact .ok (ofReader_setCur r
          { r.cur with type := none, elements := -1, idx := r.cur.idx + 1 })
      · exact .fault _

theorem moveToNextTask_same (r : Reader.RedisReader) :
    InStep (fun r r' => r' = ofReader r) (Reader.moveToNextTask r) (moveToNextTask (ofReader r)) :=
  moveToNextTaskFor_same _

theorem hook_same (r : Reader.RedisReader) (task : Reader.RedisReadTask) (fill : Zval → Zval) :
    InStep SameResult (Reader.tryParentize r task fill)
      (create (fun parent => hook (ofTask task) parent fill) (ofReader r) (ofTask task)) := by
  unfold Reader.tryParentize create hook RedisReader.parentOf
  simp only [ofTask_parent, ofTask_idx, ofTask_privdata, ofReader_memory]
  cases task.parent with
  | some p =>
      simp only [Option.map_some, ofReader_rstack, ofTask_obj]
      cases (r.rstack p).obj with
      | none => exact .fault _
      | some l =>
          simp only [bind_assoc]
          cases r.mem.addIndex l task.idx (fill .undef) with
          | ok mem => exact .ok rfl
          | fault e => exact .fault e
          | blocked => exact .blocked
  | none =>
      simp only [Option.map_none]
      cases task.privdata with
      | none => exact .fault _
      | some x =>
          simp only
          cases r.mem x with
          | none => exact .fault _
          | some z => exact .ok rfl

theorem complete_same (r : Reader.RedisReader) (obj : Loc) :
    InStep SameResult
      (do
        let r ← Reader.moveToNextTask (Reader.setRootReply (r.ridx = 0) obj r)
        return (true, r))
      (do
        let r' ← moveToNextTask (setRootReply ((ofReader r).ridx = 0) obj (ofReader r))
        return (true, r')) := by
  rw [ofReader_setRootReply]
  exact (moveToNextTask_same _).bind fun _ _ hab => .ok (congrArg (Prod.mk true) hab)

/-- A call of a function of the table, and what is done with its object. -/
theorem create_same (r : Reader.RedisReader) (task : Reader.RedisReadTask)
    (fill : Zval → Zval) {next : Loc × Reader.RedisReader → Run (Bool × Reader.RedisReader)}
    {next' : Loc × RedisReader Loc Mem → Run (Bool × RedisReader Loc Mem)}
    (hnext : ∀ obj r₁, InStep SameResult (next (obj, r₁)) (next' (obj, ofReader r₁))) :
    InStep SameResult (Reader.tryParentize r task fill >>= next)
      (create (fun parent => hook (ofTask task) parent fill) (ofReader r) (ofTask task) >>=
        next') := by
  refine (hook_same r task fill).bind fun a b hab => ?_
  obtain rfl : b = (a.1, ofReader a.2) := hab
  exact hnext a.1 a.2

theorem processLineItem_same (r : Reader.RedisReader) :
    InStep SameResult (Reader.processLineItem r)
      (processLineItem redisExtReplyObjectFunctions (ofReader r)) := by
  unfold Reader.processLineItem processLineItem
  rw [ofReader_readLine]
  unfold Reader.readLine
  cases seekNewline r.unread (r.len - r.pos) with
  | none => exact .ok rfl
  | some len =>
      simp only [Option.map_some, ofReader_cur, ofTask_type]
      split_ifs
      · exact create_same { r with pos := r.pos + (len + 2) } r.cur _ fun obj _ =>
          complete_same _ obj
      · exact create_same { r with pos := r.pos + (len + 2) } r.cur _ fun obj _ =>
          complete_same _ obj

theorem processBulkItem_same (r : Reader.RedisReader) :
    InStep SameResult (Reader.processBulkItem r)
      (processBulkItem redisExtReplyObjectFunctions (ofReader r)) := by
  unfold Reader.processBulkItem processBulkItem
  simp only [ofReader_cur, ofReader_unread, ofReader_len, ofReader_pos]
  cases seekNewline r.unread (r.len - r.pos) with
  | none => exact .ok rfl
  | some s =>
      simp only
      split_ifs
      · exact create_same r r.cur _
          fun obj r₁ => complete_same { r₁ with pos := r₁.pos + (s + 2) } obj
      · exact create_same r r.cur _ fun obj r₁ =>
          complete_same { r₁ with pos := r₁.pos + (s + 2 + ((readLongLong r.unread).toNat + 2)) }
            obj
      · exact .ok rfl

/-- No function of the table frees anything, so an error has no other effect. -/
theorem failed_same (r : Reader.RedisReader) (err : Bytes) :
    InStep SameResult (.ok (false, Reader.redisSetReplyReaderError r err))
      (do
        let r' ← redisSetReplyReaderError redisExtReplyObjectFunctions (ofReader r) err
        return (false, r')) := by
  have herror : redisSetReplyReaderError redisExtReplyObjectFunctions (ofReader r) err =
      .ok (ofReader (Reader.redisSetReplyReaderError r err)) := by
    unfold redisSetReplyReaderError
    split <;> rfl
  rw [herror]
  exact .ok rfl

theorem completeArray_same (r : Reader.RedisReader) (root : Bool) (obj : Loc) :
    InStep SameResult
      (do
        let r ← Reader.moveToNextTask r
        return (true, Reader.setRootReply root obj r))
      (do
        let r' ← moveToNextTask (ofReader r)
        return (true, setRootReply root obj r')) := by
  refine (moveToNextTask_same r).bind fun r₁ r' hsame => ?_
  subst hsame
  exact .ok (congrArg (Prod.mk true) (ofReader_setRootReply root obj r₁))

theorem processMultiBulkItem_same (r : Reader.RedisReader) :
    InStep SameResult (Reader.processMultiBulkItem r)
      (processMultiBulkItem redisExtReplyObjectFunctions (ofReader r)) := by
  unfold Reader.processMultiBulkItem processMultiBulkItem
  simp only [ofReader_ridx]
  by_cases hdepth : r.ridx = 2
  · rw [if_pos hdepth, if_pos hdepth]
    exact failed_same _ _
  rw [if_neg hdepth, if_neg hdepth, ofReader_readLine]
  unfold Reader.readLine
  cases seekNewline r.unread (r.len - r.pos) with
  | none => exact .ok rfl
  | some len =>
      simp only [Option.map_some, ofReader_cur]
      split_ifs with hnil hpos
      · exact create_same { r with pos := r.pos + (len + 2) } r.cur _
          fun obj _ => completeArray_same _ _ obj
      · refine create_same { r with pos := r.pos + (len + 2) } r.cur _
          fun obj r₁ => .ok (congrArg (Prod.mk true) ?_)
        have hcur := ofReader_setCur r₁
          { r.cur with elements := wrap 32 (readLongLong r.unread), obj := some obj }
        exact (congrArg (fun x => setRootReply _ obj (pushTask x)) hcur).trans
          ((congrArg (setRootReply _ obj) (ofReader_pushTask _)).trans
            (ofReader_setRootReply _ _ _))
      · exact create_same { r with pos := r.pos + (len + 2) } r.cur _
          fun obj _ => completeArray_same _ _ obj

theorem processTyped_same (r : Reader.RedisReader) :
    InStep SameResult (Reader.processTyped r)
      (processTyped redisExtReplyObjectFunctions (ofReader r)) := by
  unfold Reader.processTyped processTyped
  simp only [ofReader_cur, ofTask_type]
  cases r.cur.type with
  | none => exact .fault _
  | some t =>
      cases t with
      | error => exact processLineItem_same r
      | status => exact processLineItem_same r
      | integer => exact processLineItem_same r
      | string => exact processBulkItem_same r
      | array => exact processMultiBulkItem_same r
      | nil => exact .fault _

theorem processItem_same (r : Reader.RedisReader) :
    InStep SameResult (Reader.processItem r)
      (processItem redisExtReplyObjectFunctions (ofReader r)) := by
  unfold Reader.processItem processItem
  simp only [ofReader_cur, ofTask_type]
  cases r.cur.type with
  | some t => exact processTyped_same r
  | none =>
      simp only [ofReader_readBytes]
      unfold Reader.readBytes
      split_ifs with henough
      · simp only [Option.map_some]
        cases replyTypeOf (r.unread.getD 0 0) with
        | none => exact failed_same { r with pos := r.pos + 1 } _
        | some t =>
            have hset := ofReader_setCur { r with pos := r.pos + 1 } { r.cur with type := some t }
            have htyped := processTyped_same
              (({ r with pos := r.pos + 1 } : Reader.RedisReader).setCur
                { r.cur with type := some t })
            rw [← hset] at htyped
            exact htyped
      · exact .ok rfl

theorem processItems_same (n : ℕ) :
    InStep (fun r r' => r' = ofReader r) (Reader.processItems n r)
      (processItems redisExtReplyObjectFunctions n (ofReader r)) := by
  induction n generalizing r with
  | zero => exact .ok rfl
  | succ n ih =>
      unfold Reader.processItems processItems
      simp only [ofReader_ridx]
      split_ifs
      · exact .ok rfl
      · refine (processItem_same r).bind fun a b hab => ?_
        obtain rfl : b = (a.1, ofReader a.2) := hab
        obtain ⟨success, r₁⟩ := a
        cases success with
        | false => exact .ok rfl
        | true => exact ih

theorem startReply_same (r : Reader.RedisReader) :
    startReply (ofReader r) = ofReader (Reader.startReply r) := by
  unfold startReply Reader.startReply
  simp only [ofReader_ridx]
  split_ifs with hidle
  · unfold ofReader
    congr 1
    funext i
    by_cases hi : i = 0
    · subst hi
      simp [ofTask]
    · simp [Function.update_of_ne hi]
  · rfl

theorem discardConsumed_same (r : Reader.RedisReader) :
    discardConsumed (ofReader r) = ofReader (Reader.discardConsumed r) := by
  unfold discardConsumed Reader.discardConsumed
  simp only [ofReader_pos, ofReader_len, ofReader_buf]
  split_ifs <;> rfl

theorem emitReply_same (r : Reader.RedisReader) :
    emitReply (ofReader r) =
      ((Reader.emitReply r).1, (Reader.emitReply r).2.1, ofReader (Reader.emitReply r).2.2) := by
  obtain ⟨error, reply, buf, pos, len, rstack, ridx, privdata, mem⟩ := r
  unfold emitReply Reader.emitReply
  simp only [ofReader_ridx]
  split_ifs
  · cases error <;> rfl
  · rfl

theorem redisReplyReaderGetReply_same (r : Reader.RedisReader) :
    InStep (fun x y => y = (x.1, x.2.1, ofReader x.2.2)) (Reader.redisReplyReaderGetReply r)
      (redisReplyReaderGetReply redisExtReplyObjectFunctions (ofReader r)) := by
  have hstart : (Reader.startReply r).len = r.len ∧ (Reader.startReply r).pos = r.pos := by
    unfold Reader.startReply
    split_ifs <;> exact ⟨rfl, rfl⟩
  unfold Reader.redisReplyReaderGetReply redisReplyReaderGetReply
  simp only [ofReader_len, ofReader_pos]
  split_ifs
  · exact .ok rfl
  · rw [startReply_same, hstart.1, hstart.2]
    refine (processItems_same _).bind fun r₁ r' hsame => ?_
    subst hsame
    rw [discardConsumed_same, emitReply_same]
    exact .ok rfl

end

/-- The calls of a reader. Between them the zvals belong to its caller. -/
inductive ReaderCall where
  | feed (bytes : Bytes)
  | setPrivdata (privdata : ℕ)
  | getReply
  | memory (change : Mem → Mem)

/-- A run of the extension's reader, with what its calls return. -/
def runBuiltIn : List ReaderCall → Reader.RedisReader →
    Run (List (Status × Option Loc) × Reader.RedisReader)
  | [], r => return ([], r)
  | .feed bytes :: calls, r => runBuiltIn calls (Reader.redisReplyReaderFeed r bytes)
  | .setPrivdata x :: calls, r => runBuiltIn calls (Reader.redisReplyReaderSetPrivdata r x)
  | .memory change :: calls, r => runBuiltIn calls { r with mem := change r.mem }
  | .getReply :: calls, r => do
      let (status, reply, r) ← Reader.redisReplyReaderGetReply r
      let (results, r) ← runBuiltIn calls r
      return ((status, reply) :: results, r)

/-- A run of the library's reader with the table of the extension. -/
def runTable : List ReaderCall → RedisReader Loc Mem →
    Run (List (Status × Option Loc) × RedisReader Loc Mem)
  | [], r => return ([], r)
  | .feed bytes :: calls, r => runTable calls (redisReplyReaderFeed r bytes)
  | .setPrivdata x :: calls, r => runTable calls (redisReplyReaderSetPrivdata r x).2
  | .memory change :: calls, r => runTable calls { r with mem := change r.mem }
  | .getReply :: calls, r => do
      let (status, reply, r) ← redisReplyReaderGetReply redisExtReplyObjectFunctions r
      let (results, r) ← runTable calls r
      return ((status, reply) :: results, r)

/-- By induction on the calls. -/
theorem runTable_same (calls : List ReaderCall) (r : Reader.RedisReader) :
    InStep SameResult (runBuiltIn calls r) (runTable calls (ofReader r)) := by
  induction calls generalizing r with
  | nil => exact .ok rfl
  | cons call calls ih =>
      cases call with
      | feed bytes =>
          have hfeed : redisReplyReaderFeed (ofReader r) bytes =
              ofReader (Reader.redisReplyReaderFeed r bytes) := by
            unfold redisReplyReaderFeed Reader.redisReplyReaderFeed
            split_ifs <;> rfl
          rw [runBuiltIn, runTable, hfeed]
          exact ih _
      | setPrivdata x =>
          obtain ⟨error, reply, buf, pos, len, rstack, ridx, privdata, mem⟩ := r
          cases reply with
          | none => exact ih ⟨error, none, buf, pos, len, rstack, ridx, some x, mem⟩
          | some obj => exact ih _
      | memory change => exact ih { r with mem := change r.mem }
      | getReply =>
          rw [runBuiltIn, runTable]
          refine (redisReplyReaderGetReply_same r).bind fun x y hxy => ?_
          obtain ⟨status, reply, r₁⟩ := x
          subst hxy
          refine (ih r₁).bind fun x y hxy => ?_
          obtain rfl : y = (x.1, ofReader x.2) := hxy
          exact .ok rfl

/-- Any calls of a new reader, whatever is fed to it: the library's reader with the table of
the extension ends as the reader with these functions built in, has returned the same and
is in the same state, its error and its zvals included. -/
theorem table_builtIn (calls : List ReaderCall) (mem : Mem) :
    InStep SameResult (runBuiltIn calls (Reader.redisReplyReaderCreate mem))
      (runTable calls (redisReplyReaderCreate mem)) :=
  runTable_same calls (Reader.redisReplyReaderCreate mem)

end PhpHiredis.Objects
