import PhpHiredis.Library.Bytes
import PhpHiredis.Library.OrderedMap
import PhpHiredis.Library.Outcome
import Mathlib.Data.List.Induction
import Mathlib.Logic.Function.Basic

/-!
# PHP values and the memory that holds them

A `Zval` is the content of a zval: a type and a value. The array of a zval is
its hash table in the order of the internal pointer. `Mem` is the memory of
zvals; a zval that hangs in an array is named by the variable at the root and
the indices that lead down to it, which is what the pointers kept by the reply
reader denote.

Lengths are natural numbers: a string or buffer of 2 GB and more is outside
this model, as in the `int` lengths of the source. Values that cross integer
widths are reduced explicitly.
-/
namespace PhpHiredis

open Library

/-- Ways in which a call can leave the defined behaviour of the program. -/
inductive Fault where
  /-- an `assert` of the source fails -/
  | assertion
  /-- a `NULL` pointer is followed, or a `NULL` function called -/
  | nullPointer
  /-- the hash table of a zval that is not an array is used -/
  | notAnArray
  /-- the string of a zval that is not a string is used -/
  | notAString
  /-- a slot beyond those allocated is used -/
  | outOfBounds
  /-- memory is used after it was freed -/
  | useAfterFree
  /-- the type of a zval that nothing has set is read -/
  | uninitialised
  /-- a format asks for an argument that was not passed -/
  | missingArgument
  deriving DecidableEq, Repr

abbrev Run (α : Type) := Outcome Fault α

inductive Key where
  | index (n : ℤ)
  | name (s : Bytes)
  deriving DecidableEq, Repr

/-- `undef` is the content of a zval that has been allocated and not yet set. -/
inductive Zval where
  | undef
  | null
  | bool (b : Bool)
  | long (n : ℤ)
  | string (s : Bytes)
  | array (elems : List (Key × Zval))

/-- The elements of a PHP array, in the order of its internal pointer. -/
abbrev HashTable := List (Key × Zval)

namespace Zval

/-- PHP's `FALSE`, the failure value of most methods. -/
abbrev false : Zval := .bool Bool.false

abbrev true : Zval := .bool Bool.true

def isArray : Zval → Bool
  | .array _ => Bool.true
  | _ => Bool.false

/-- `Z_STRVAL` and `Z_STRLEN`. -/
def strval : Zval → Run Bytes
  | .string s => .ok s
  | _ => .fault .notAString

/-- `Z_ARRVAL`. -/
def arrval : Zval → Run HashTable
  | .array es => .ok es
  | _ => .fault .notAnArray

/-- `convert_to_string`, for the types of this model. -/
def convertToString : Zval → Bytes
  | .undef | .null => []
  | .bool b => if b then ascii "1" else []
  | .long n => decimalInt n
  | .string s => s
  | .array _ => ascii "Array"

end Zval

/-- The number that a string of decimal digits denotes, after an optional
minus sign. -/
def readDecimal : Bytes → ℤ
  | 45 :: s => -(s.foldl (fun n b => 10 * n + ((b.toNat : ℤ) - 48)) 0)
  | s => s.foldl (fun n b => 10 * n + ((b.toNat : ℤ) - 48)) 0

/-- Hash tables turn a string key that is the decimal notation of a `long`
into that integer (`zend_symtable_update`). -/
def Key.ofString (s : Bytes) : Key :=
  if decimalInt (readDecimal s) = s ∧ -2 ^ 63 ≤ readDecimal s ∧ readDecimal s < 2 ^ 63 then
    .index (readDecimal s)
  else .name s

/-- The index `add_next_index_zval` stores under: one above the largest. -/
def nextIndex (es : HashTable) : ℤ :=
  es.foldl (fun n e => match e.1 with
    | .index i => max n (i + 1)
    | .name _ => n) 0

def addNextIndex (v : Zval) (es : HashTable) : HashTable :=
  OrderedMap.insert (.index (nextIndex es)) v es

/-- The PHP list of some values: indices 0, 1, .. in order. -/
def listTable (vs : List Zval) : HashTable :=
  vs.zipIdx.map fun v => (.index v.2, v.1)

@[simp] theorem listTable_nil : listTable [] = [] := rfl

theorem listTable_append_singleton (vs : List Zval) (v : Zval) :
    listTable (vs ++ [v]) = listTable vs ++ [(.index vs.length, v)] := by
  simp [listTable, List.zipIdx_append]

theorem listTable_values (vs : List Zval) : (listTable vs).map Prod.snd = vs := by
  simp [listTable, Function.comp_def]

theorem index_notMem_listTable (vs : List Zval) :
    Key.index vs.length ∉ (listTable vs).map Prod.fst := by
  simp only [listTable, List.map_map, List.mem_map, Function.comp_apply, Key.index.injEq,
    not_exists, not_and]
  rintro ⟨v, i⟩ h he
  have hi := (List.mem_zipIdx h).2.1
  have hi' : i = vs.length := by exact_mod_cast he
  omega

theorem insert_listTable (vs : List Zval) (v : Zval) :
    OrderedMap.insert (.index vs.length) v (listTable vs) = listTable (vs ++ [v]) := by
  rw [OrderedMap.insert_of_notMem (index_notMem_listTable vs), listTable_append_singleton]

@[simp] theorem nextIndex_listTable (vs : List Zval) : nextIndex (listTable vs) = vs.length := by
  induction vs using List.reverseRecOn with
  | nil => rfl
  | append_singleton vs v ih =>
      rw [listTable_append_singleton]
      unfold nextIndex at ih ⊢
      rw [List.foldl_append, ih]
      simp

@[simp] theorem addNextIndex_listTable (vs : List Zval) (v : Zval) :
    addNextIndex v (listTable vs) = listTable (vs ++ [v]) := by
  rw [addNextIndex, nextIndex_listTable, insert_listTable]

/-- A zval: the variable at its root and the array indices down to it. -/
structure Loc where
  var : ℕ
  path : List ℤ
  deriving DecidableEq, Repr

def Loc.child (l : Loc) (i : ℤ) : Loc := ⟨l.var, l.path ++ [i]⟩

/-- The zvals that exist, by variable; `none` is a zval not allocated, or freed. -/
abbrev Mem := ℕ → Option Zval

def modifyElem (k : Key) (f : Zval → Run Zval) : HashTable → Run HashTable
  | [] => .fault .nullPointer
  | e :: es =>
      if e.1 = k then do
        let v ← f e.2
        return (e.1, v) :: es
      else do
        let es' ← modifyElem k f es
        return e :: es'

def Zval.modifyAt (f : Zval → Run Zval) : List ℤ → Zval → Run Zval
  | [], z => f z
  | i :: p, z => do
      let es ← z.arrval
      let es' ← modifyElem (.index i) (Zval.modifyAt f p) es
      return .array es'

/-- `add_index_zval`, after the assertion that the parent is an array. -/
def addIndexTo (i : ℤ) (v : Zval) : Zval → Run Zval
  | .array es => .ok (.array (OrderedMap.insert (.index i) v es))
  | _ => .fault .assertion

def Mem.set (m : Mem) (x : ℕ) (v : Zval) : Mem := Function.update m x (some v)

/-- Add `v` under index `i` to the array at `l`. -/
def Mem.addIndex (m : Mem) (l : Loc) (i : ℤ) (v : Zval) : Run Mem :=
  match m l.var with
  | none => .fault .useAfterFree
  | some root => do
      let root' ← root.modifyAt (addIndexTo i v) l.path
      return m.set l.var root'

theorem modifyElem_insert (k : Key) (f : Zval → Run Zval) (v : Zval) (es : HashTable) :
    modifyElem k f (OrderedMap.insert k v es) =
      (f v >>= fun w => .ok (OrderedMap.insert k w es)) := by
  induction es with
  | nil => simp [OrderedMap.insert, modifyElem]
  | cons e es ih =>
      simp only [OrderedMap.insert]
      split_ifs with h
      · simp [modifyElem]
      · simp only [modifyElem, h, if_false, ih, bind_assoc, Outcome.ok_bind, Outcome.pure_eq]

theorem modifyElem_bind (k : Key) (f g : Zval → Run Zval) (es : HashTable) :
    (modifyElem k f es >>= modifyElem k g) = modifyElem k (fun z => f z >>= g) es := by
  induction es with
  | nil => rfl
  | cons e es ih =>
      simp only [modifyElem]
      split_ifs with h
      · simp [bind_assoc, modifyElem, h]
      · simp only [bind_assoc, Outcome.pure_eq, Outcome.ok_bind, modifyElem, h, if_false, ← ih]

theorem modifyAt_bind (f g : Zval → Run Zval) (p : List ℤ) (z : Zval) :
    (z.modifyAt f p >>= Zval.modifyAt g p) = z.modifyAt (fun z => f z >>= g) p := by
  induction p generalizing z with
  | nil => rfl
  | cons i p ih =>
      simp only [Zval.modifyAt, bind_assoc, Outcome.pure_eq, Outcome.ok_bind, Zval.arrval]
      refine congrArg _ (funext fun es => ?_)
      rw [← bind_assoc, modifyElem_bind]
      simp only [ih]

theorem modifyAt_append (f : Zval → Run Zval) (p q : List ℤ) (z : Zval) :
    z.modifyAt f (p ++ q) = z.modifyAt (Zval.modifyAt f q) p := by
  induction p generalizing z with
  | nil => rfl
  | cons i p ih =>
      have hp : Zval.modifyAt f (p ++ q) = Zval.modifyAt (Zval.modifyAt f q) p := funext ih
      simp only [List.cons_append, Zval.modifyAt, hp]

end PhpHiredis
