import PhpHiredis.Decoding

/-!
# The calls of the hooks

Which hook the reader calls for an item, in which state, and what it does with the
object. `processItem_eq` takes every item apart into the bytes it takes, at most
one call of a hook, and the move to the next task. The calls of a whole reply can
then be listed, whatever the bytes are, and whether or not they end in an error.
-/
namespace PhpHiredis.Reader

open Library

/-- A hook with its arguments. The count of an array is the `long` that was read:
the parameter of `createArray` is an `int`. -/
inductive Hook where
  | string (str : Bytes) (len : ℕ)
  | array (elements : ℤ)
  | integer (value : ℤ)
  | nil

def Hook.Fits : Hook → Prop
  | array elements => -2 ^ 31 ≤ elements ∧ elements < 2 ^ 31
  | _ => True

instance : DecidablePred Hook.Fits
  | .array elements => inferInstanceAs (Decidable (-2 ^ 31 ≤ elements ∧ elements < 2 ^ 31))
  | .string _ _ | .integer _ | .nil => inferInstanceAs (Decidable True)

/-- A call of a hook for a task, in the state of the reader at that moment. -/
structure HookCall where
  reader : RedisReader
  task : RedisReadTask
  hook : Hook

namespace HookCall

def run (c : HookCall) : Run (Loc × RedisReader) :=
  match c.hook with
  | .string str len => createStringObject c.reader c.task str len
  | .array elements => createArrayObject c.reader c.task (wrap 32 elements)
  | .integer value => createIntegerObject c.reader c.task value
  | .nil => createNilObject c.reader c.task

def object (c : HookCall) : Option Loc := (targetOf c.reader c.task).map Target.loc

def created (c : HookCall) : List Loc :=
  match c.hook with
  | .array _ => c.object.toList
  | _ => []

abbrev Fits (c : HookCall) : Prop := c.hook.Fits

theorem run_eq (c : HookCall) : ∃ fill, c.run = tryParentize c.reader c.task fill ∧
    ∀ n, c.hook = .array n → ∀ z, fill z = .array [] := by
  unfold run
  cases hook : c.hook with
  | array elements => exact ⟨_, rfl, fun _ _ _ => rfl⟩
  | _ => exact ⟨_, rfl, fun n hn => Hook.noConfusion hn⟩

theorem run_object {c : HookCall} {x : Loc × RedisReader} (h : c.run = .ok x) :
    c.object = some x.1 := by
  obtain ⟨fill, hrun, -⟩ := c.run_eq
  rw [hrun] at h
  unfold tryParentize at h
  unfold object targetOf
  cases hparent : c.task.parent with
  | some p =>
      rw [hparent] at h
      cases hobj : (c.reader.rstack p).obj with
      | none =>
          simp only [hobj] at h
          cases h
      | some l =>
          simp only [hobj] at h
          obtain ⟨mem, -, hx⟩ := Outcome.bind_eq_ok.mp h
          cases hx
          simp only [hobj]
          rfl
  | none =>
      rw [hparent] at h
      cases hpriv : c.task.privdata with
      | none =>
          simp only [hpriv] at h
          cases h
      | some y =>
          simp only [hpriv] at h
          split at h
          · cases h
          · cases h
            simp only []
            rfl

end HookCall

/-- What the reader does for an item: it returns without a hook, it fails an
assertion, or it calls one hook and goes on with the object. -/
inductive Plan where
  | returns (success : Bool) (r : RedisReader)
  | asserts
  | calls (c : HookCall) (next : Loc × RedisReader → Run (Bool × RedisReader))

namespace Plan

def run : Plan → Run (Bool × RedisReader)
  | returns success r => .ok (success, r)
  | asserts => .fault .assertion
  | calls c next => c.run >>= next

def call : Plan → Option HookCall
  | calls c _ => some c
  | _ => none

end Plan

/-- `n` more bytes are taken, and the item is complete. -/
def completeItem (n : ℕ) (x : Loc × RedisReader) : Run (Bool × RedisReader) := do
  let r := { x.2 with pos := x.2.pos + n }
  let r ← moveToNextTask (setRootReply (r.ridx = 0) x.1 r)
  return (true, r)

def linePlan (r : RedisReader) : Plan :=
  match readLine r with
  | some ((p, len), r') =>
      .calls ⟨r', r.cur, if r.cur.type = some .integer then .integer (readLongLong p)
        else .string p len⟩ (completeItem 0)
  | none => .returns false r

def bulkPlan (r : RedisReader) : Plan :=
  let p := r.unread
  match seekNewline p (r.len - r.pos) with
  | some s =>
      let len := readLongLong p
      let bytelen := s + 2 + (len.toNat + 2)
      if len < 0 then .calls ⟨r, r.cur, .nil⟩ (completeItem (s + 2))
      else if r.pos + bytelen ≤ r.len then
        .calls ⟨r, r.cur, .string (p.drop (s + 2)) len.toNat⟩ (completeItem bytelen)
      else .returns false r
  | none => .returns false r

/-- An array without elements is complete. -/
def completeArray (root : Bool) (x : Loc × RedisReader) : Run (Bool × RedisReader) := do
  let r ← moveToNextTask x.2
  return (true, setRootReply root x.1 r)

/-- Otherwise its first element is next. -/
def openArray (root : Bool) (cur : RedisReadTask) (elements : ℤ) (x : Loc × RedisReader) :
    Run (Bool × RedisReader) :=
  return (true, setRootReply root x.1
    (pushTask (x.2.setCur { cur with elements := wrap 32 elements, obj := some x.1 })))

def arrayPlan (r : RedisReader) : Plan :=
  if r.ridx = 2 then .returns false (redisSetReplyReaderError r depthError)
  else
    match readLine r with
    | some ((p, _), r') =>
        let elements := readLongLong p
        if elements = -1 then .calls ⟨r', r.cur, .nil⟩ (completeArray (r'.ridx = 0))
        else .calls ⟨r', r.cur, .array elements⟩
          (if 0 < elements then openArray (r'.ridx = 0) r.cur elements
            else completeArray (r'.ridx = 0))
    | none => .returns false r

def typedPlan (r : RedisReader) : Plan :=
  match r.cur.type with
  | some .error | some .status | some .integer => linePlan r
  | some .string => bulkPlan r
  | some .array => arrayPlan r
  | _ => .asserts

def itemPlan (r : RedisReader) : Plan :=
  match r.cur.type with
  | none =>
      match readBytes r 1 with
      | some (p, r') =>
          match replyTypeOf (p.getD 0 0) with
          | some t => typedPlan (r'.setCur { r'.cur with type := some t })
          | none => .returns false (redisSetReplyReaderError r' (typeByteError (p.getD 0 0)))
      | none => .returns false r
  | some _ => typedPlan r

theorem processLineItem_plan (r : RedisReader) : processLineItem r = (linePlan r).run := by
  unfold processLineItem linePlan
  cases readLine r with
  | none => rfl
  | some x =>
      simp only [Plan.run, HookCall.run]
      split_ifs <;> rfl

theorem processBulkItem_plan (r : RedisReader) : processBulkItem r = (bulkPlan r).run := by
  unfold processBulkItem bulkPlan
  simp only []
  cases seekNewline r.unread (r.len - r.pos) with
  | none => rfl
  | some s =>
      simp only []
      split_ifs <;> rfl

theorem processMultiBulkItem_plan (r : RedisReader) :
    processMultiBulkItem r = (arrayPlan r).run := by
  unfold processMultiBulkItem arrayPlan
  split_ifs
  · rfl
  · cases readLine r with
    | none => rfl
    | some x =>
        simp only []
        split_ifs <;> rfl

theorem processTyped_plan (r : RedisReader) : processTyped r = (typedPlan r).run := by
  unfold processTyped typedPlan
  cases r.cur.type with
  | none => rfl
  | some t =>
      cases t with
      | error | status | integer => exact processLineItem_plan r
      | string => exact processBulkItem_plan r
      | array => exact processMultiBulkItem_plan r
      | nil => rfl

theorem processItem_eq (r : RedisReader) : processItem r = (itemPlan r).run := by
  unfold processItem itemPlan
  cases r.cur.type with
  | some t => exact processTyped_plan r
  | none =>
      cases readBytes r 1 with
      | none => rfl
      | some x =>
          simp only []
          cases replyTypeOf (x.1.getD 0 0) with
          | none => rfl
          | some t => exact processTyped_plan _

end PhpHiredis.Reader
