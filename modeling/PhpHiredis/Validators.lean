import PhpHiredis.Zval

/-!
# The validators of replies

The functions `redis_reply_*_` of `library.c`. Each of them is given the PHP
value that the hooks built, checks it, and changes it in place; a result other
than 0 keeps the value out of the caller's results. Reading the type of a zval
that no hook has filled in is a fault.
-/
namespace PhpHiredis

open Library

/-- Keep a value of the right type; any other becomes `FALSE`. -/
def checkType (valid : Zval → Bool) (z : Zval) : Run (ℕ × Zval) :=
  match z with
  | .undef => .fault .uninitialised
  | z => .ok (0, if valid z then z else .false)

def redisReplyString : Zval → Run (ℕ × Zval) :=
  checkType fun z => match z with | .string _ => true | _ => false

def redisReplyLong : Zval → Run (ℕ × Zval) :=
  checkType fun z => match z with | .long _ => true | _ => false

def redisReplyStatus : Zval → Run (ℕ × Zval) :=
  checkType fun z => match z with | .bool _ => true | _ => false

def redisReplyArray : Zval → Run (ℕ × Zval) := checkType Zval.isArray

def redisReplySkip (z : Zval) : Run (ℕ × Zval) := .ok (1, z)

/-- The loop of `redis_reply_zip_`: keys and values in turn. Of an unfinished pair the
source loads the string fields of the key, whatever its type is, and drops them: for
a key that is no string this is `notAString` as well. -/
def zipPairs : List Zval → HashTable → Run HashTable
  | [], ret => .ok ret
  | [k], ret => do
      let _ ← k.strval
      return ret
  | k :: v :: rest, ret => do
      let hkey ← k.strval
      let hval ← v.strval
      zipPairs rest (OrderedMap.insert (.ofString hkey) (.string hval) ret)

def redisReplyZip : Zval → Run (ℕ × Zval)
  | .undef => .fault .uninitialised
  | .array es => do
      let ret ← zipPairs (es.map Prod.snd) []
      return (0, .array ret)
  | _ => .ok (0, .false)

/-- The loop of `redis_reply_zip_closure_`: the `i`-th saved argument is the key
of the next element. -/
def zipArgs (z_args : Option (List Zval)) : ℕ → List Zval → HashTable → Run HashTable
  | _, [], ret => .ok ret
  | i, v :: vs, ret =>
      match z_args with
      | none => .fault .nullPointer
      | some args =>
          match args[i]? with
          | none => .fault .outOfBounds
          | some arg => do
              let key ← arg.strval
              zipArgs z_args (i + 1) vs (OrderedMap.insert (.ofString key) v ret)

/-- The argument at index 0 is the key of the hash; the fields follow it.
`efree` of the arguments ignores `NULL`. -/
def redisReplyZipClosure (z : Zval) (z_args : Option (List Zval)) : Run (ℕ × Zval) :=
  match z with
  | .undef => .fault .uninitialised
  | .array es => do
      let ret ← zipArgs z_args 1 (es.map Prod.snd) []
      return (0, .array ret)
  | _ => .ok (0, .null)

/-- On a value that is not a long the zval is freed, and then written. -/
def redisReplyLongAsBool : Zval → Run (ℕ × Zval)
  | .undef => .fault .uninitialised
  | .long n => .ok (0, .bool (n = 1))
  | _ => .fault .useAfterFree

/-- The validators by name, as the queues keep them. -/
inductive Validator where
  | string
  | long
  | skip
  | status
  | array
  | zip
  | zipClosure
  | longAsBool
  deriving DecidableEq, Repr

/-- `fun(z, z_args)`. -/
def Validator.apply (fn : Validator) (z : Zval) (z_args : Option (List Zval)) : Run (ℕ × Zval) :=
  match fn with
  | .string => redisReplyString z
  | .long => redisReplyLong z
  | .skip => redisReplySkip z
  | .status => redisReplyStatus z
  | .array => redisReplyArray z
  | .zip => redisReplyZip z
  | .zipClosure => redisReplyZipClosure z z_args
  | .longAsBool => redisReplyLongAsBool z

theorem checkType_returns (valid : Zval → Bool) {z : Zval} (h : z ≠ .undef) :
    (checkType valid z).Returns := by
  cases z with
  | undef => exact absurd rfl h
  | _ => exact ⟨_, rfl⟩

theorem Validator.apply_zero {fn : Validator} (hfn : fn ≠ .skip) {z v : Zval}
    {z_args : Option (List Zval)} {r : ℕ} (h : fn.apply z z_args = .ok (r, v)) : r = 0 := by
  cases fn with
  | skip => exact absurd rfl hfn
  | zip =>
      cases z with
      | array es =>
          obtain ⟨ret, -, hret⟩ := Outcome.bind_eq_ok.mp h
          cases hret
          rfl
      | undef => cases h
      | _ =>
          cases h
          rfl
  | zipClosure =>
      cases z with
      | array es =>
          obtain ⟨ret, -, hret⟩ := Outcome.bind_eq_ok.mp h
          cases hret
          rfl
      | undef => cases h
      | _ =>
          cases h
          rfl
  | _ => cases z <;> cases h <;> rfl

/-- The value a method returns when the reply is not of its type. -/
def Validator.failure : Validator → Zval
  | .zipClosure => .null
  | _ => .false

end PhpHiredis
