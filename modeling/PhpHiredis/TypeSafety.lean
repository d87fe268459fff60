import PhpHiredis.Commands
import PhpHiredis.Reply

/-!
# Validators on replies of any type

The server chooses the type of a reply. `Validator.safe_iff` says for which
replies a validator does its work: it returns 0, and leaves a value of the
type of its method, or the failure value. The validators that look at the type
of the reply alone do so for every reply; the others rely on the server for the
types of the elements, for their number, or for the type of the reply itself.
-/
namespace PhpHiredis

open Library

namespace Zval

def isString : Zval → Bool
  | .string _ => Bool.true
  | _ => Bool.false

def isLong : Zval → Bool
  | .long _ => Bool.true
  | _ => Bool.false

def isBool : Zval → Bool
  | .bool _ => Bool.true
  | _ => Bool.false

theorem exists_string {z : Zval} (h : z.isString = Bool.true) : ∃ s, z = .string s := by
  cases z with
  | string s => exact ⟨s, rfl⟩
  | _ => cases h

@[simp] theorem strval_string (s : Bytes) : (string s).strval = .ok s := rfl

/-- Reading the string of a zval that is not a string is a fault. -/
theorem strval_fault {z : Zval} (h : ¬z.isString = Bool.true) : z.strval = .fault .notAString := by
  cases z with
  | string s => exact absurd rfl h
  | _ => rfl

end Zval

namespace Validator

/-- The value has the type that the methods with this validator promise. -/
def ofType : Validator → Zval → Bool
  | .string => Zval.isString
  | .long => Zval.isLong
  | .status | .longAsBool => Zval.isBool
  | .array | .zip | .zipClosure => Zval.isArray
  | .skip => fun _ => false

/-- The validator returns 0, and leaves a value of its type or the failure value. -/
def Safe (fn : Validator) (z : Zval) (z_args : Option (List Zval)) : Prop :=
  ∃ v, fn.apply z z_args = .ok (0, v) ∧ (fn.ofType v = true ∨ v = fn.failure)

/-- The replies that a validator relies on, with the number of fields of its call. -/
def Handles (fn : Validator) (z : Zval) (fields : ℕ) : Prop :=
  match fn, z with
  | .longAsBool, z => z.isLong = true
  | .zip, .array es => ∀ v ∈ es.map Prod.snd, v.isString = true
  | .zipClosure, .array es => es.length ≤ fields
  | _, _ => True

end Validator

/-- The pairs are read to the end exactly when all of them are strings. -/
theorem zipPairs_returns_iff (zs : List Zval) (ret : HashTable) :
    (zipPairs zs ret).Returns ↔ ∀ z ∈ zs, z.isString = true := by
  induction zs, ret using zipPairs.induct with
  | case1 ret => simp [zipPairs]
  | case2 k ret =>
      by_cases hk : k.isString = true
      · obtain ⟨s, rfl⟩ := Zval.exists_string hk
        simp [zipPairs, Zval.isString]
      · simp [zipPairs, Zval.strval_fault hk, hk]
  | case3 k v rest ret ih =>
      by_cases hk : k.isString = true
      · obtain ⟨s, rfl⟩ := Zval.exists_string hk
        by_cases hv : v.isString = true
        · obtain ⟨t, rfl⟩ := Zval.exists_string hv
          simp only [zipPairs, Zval.strval_string, Outcome.ok_bind, ih, List.forall_mem_cons,
            Zval.isString, true_and]
        · simp [zipPairs, Zval.strval_fault hv, hv]
      · simp [zipPairs, Zval.strval_fault hk, hk]

/-- The saved arguments after `pre` suffice exactly when there are as many of
them as elements. -/
theorem zipArgs_returns_iff (pre strs : List Zval) (hstrs : ∀ z ∈ strs, z.isString = true)
    (vs : List Zval) (ret : HashTable) :
    (zipArgs (some (pre ++ strs)) pre.length vs ret).Returns ↔ vs.length ≤ strs.length := by
  induction vs generalizing pre strs ret with
  | nil => simp [zipArgs]
  | cons v vs ih =>
      cases strs with
      | nil => simp [zipArgs]
      | cons str strs =>
          obtain ⟨s, rfl⟩ := Zval.exists_string (hstrs str (by simp))
          have harg : (pre ++ Zval.string s :: strs)[pre.length]? = some (.string s) := by simp
          have hih := ih (pre ++ [.string s]) strs (fun z hz => hstrs z (by simp [hz]))
          simp only [List.append_assoc, List.singleton_append, List.length_append,
            List.length_singleton] at hih
          simp only [zipArgs, harg, Zval.strval_string, Outcome.ok_bind, hih, List.length_cons,
            Nat.add_le_add_iff_right]

/-- The arguments that the call `hmget(params)` saves for its validator. -/
def SavedArgs (params : List Zval) (z_args : Option (List Zval)) : Prop :=
  ∃ argv, vargArgv (ascii "HMGET") true params = .ok (some (argv, z_args))

theorem SavedArgs.strings {params : List Zval} {z_args : Option (List Zval)}
    (h : SavedArgs params z_args) :
    ∃ args, z_args = some args ∧ ∀ z ∈ args.tail, z.isString = true := by
  obtain ⟨argv, hrun⟩ := h
  have hroom : VargRoom params := by
    by_contra hroom
    rw [vargArgv_overflow _ _ hroom] at hrun
    cases hrun
  rw [vargArgv_spec _ _ hroom, Outcome.ok.injEq, Option.map_eq_some_iff] at hrun
  obtain ⟨strs, hstrs, heq⟩ := hrun
  obtain rfl : keptArgs params = z_args := congrArg Prod.snd heq
  unfold keptArgs
  split
  · exact ⟨_, rfl, fun z hz => (List.not_mem_nil hz).elim⟩
  · refine ⟨strs.map .string, by rw [hstrs]; rfl, fun z hz => ?_⟩
    obtain ⟨s, -, rfl⟩ := List.mem_map.mp (List.mem_of_mem_tail hz)
    rfl

namespace Validator

theorem returns_iff (fn : Validator) {z : Zval} (hz : z ≠ .undef) :
    (fn.apply z none).Returns ↔ fn.Handles z 0 := by
  cases fn with
  | skip => exact iff_of_true ⟨(1, z), rfl⟩ trivial
  | string | long | status | array => exact iff_of_true (checkType_returns _ hz) trivial
  | zip =>
      cases z with
      | undef => exact absurd rfl hz
      | array es => exact Outcome.returns_map_iff.trans (zipPairs_returns_iff _ _)
      | _ => exact iff_of_true ⟨_, rfl⟩ trivial
  | zipClosure =>
      cases z with
      | undef => exact absurd rfl hz
      | array es =>
          refine Outcome.returns_map_iff.trans ?_
          cases es <;> simp [zipArgs, Handles]
      | _ => exact iff_of_true ⟨_, rfl⟩ trivial
  | longAsBool =>
      cases z with
      | undef => exact absurd rfl hz
      | long n => exact iff_of_true ⟨_, rfl⟩ rfl
      | _ => exact iff_of_false (Outcome.not_returns_fault _) (fun h => by cases h)

theorem checkType_safe {fn : Validator} {valid : Zval → Bool} {z : Zval} (hz : z ≠ .undef)
    {z_args : Option (List Zval)} (hfn : fn.apply z z_args = checkType valid z)
    (htype : ∀ v, valid v = true → fn.ofType v = true) (hfail : fn.failure = .false) :
    fn.Safe z z_args := by
  have hrun : checkType valid z = .ok (0, if valid z then z else .false) := by
    cases z with
    | undef => exact absurd rfl hz
    | _ => rfl
  refine ⟨_, hfn.trans hrun, ?_⟩
  by_cases hv : valid z = true
  · rw [if_pos hv]
    exact Or.inl (htype z hv)
  · rw [if_neg hv]
    exact Or.inr hfail.symm

theorem safe_of_array {fn : Validator} {z : Zval} {z_args : Option (List Zval)}
    {x : Run HashTable} (hfn : fn.apply z z_args = x >>= fun ret => .ok (0, .array ret))
    (htype : ∀ ret, fn.ofType (.array ret) = true) : fn.Safe z z_args ↔ x.Returns := by
  constructor
  · intro h
    obtain ⟨v, hv, -⟩ := h
    obtain ⟨ret, hret, -⟩ := Outcome.bind_eq_ok.mp (hfn.symm.trans hv)
    exact ⟨ret, hret⟩
  · intro h
    obtain ⟨ret, hret⟩ := h
    refine ⟨.array ret, ?_, Or.inl (htype ret)⟩
    rw [hfn, hret, Outcome.ok_bind]

theorem safe_zip_iff {z : Zval} (hz : z ≠ .undef) (z_args : Option (List Zval)) (fields : ℕ) :
    zip.Safe z z_args ↔ zip.Handles z fields := by
  cases z with
  | undef => exact absurd rfl hz
  | array es =>
      have hrun : zip.apply (.array es) z_args =
          (zipPairs (es.map Prod.snd) []) >>= fun ret => .ok (0, .array ret) := rfl
      exact (safe_of_array hrun fun _ => rfl).trans (zipPairs_returns_iff _ _)
  | _ => exact iff_of_true ⟨.false, rfl, Or.inr rfl⟩ trivial

theorem safe_zipClosure_iff {z : Zval} (hz : z ≠ .undef) {args : List Zval}
    (hargs : ∀ v ∈ args.tail, v.isString = true) :
    zipClosure.Safe z (some args) ↔ zipClosure.Handles z (args.length - 1) := by
  cases z with
  | undef => exact absurd rfl hz
  | array es =>
      have hrun : zipClosure.apply (.array es) (some args) =
          (zipArgs (some args) 1 (es.map Prod.snd) []) >>= fun ret => .ok (0, .array ret) := rfl
      refine (safe_of_array hrun fun _ => rfl).trans ?_
      cases args with
      | nil => cases es <;> simp [zipArgs, Handles]
      | cons key strs =>
          refine (zipArgs_returns_iff [key] strs hargs _ _).trans ?_
          simp [Handles]
  | _ => exact iff_of_true ⟨.null, rfl, Or.inr rfl⟩ trivial

theorem safe_longAsBool_iff {z : Zval} (hz : z ≠ .undef) (z_args : Option (List Zval))
    (fields : ℕ) : longAsBool.Safe z z_args ↔ longAsBool.Handles z fields := by
  cases z with
  | undef => exact absurd rfl hz
  | long n => exact iff_of_true ⟨.bool (n = 1), rfl, Or.inl rfl⟩ rfl
  | _ =>
      refine iff_of_false (fun h => ?_) (fun h => ?_)
      · obtain ⟨v, hv, -⟩ := h
        cases hv
      · cases h

/-- A validator is safe on a reply exactly when it handles it: `long_as_bool`
needs an integer, `zip` needs strings for elements, and `zip_closure`, with the
arguments of its own call, no more elements than fields. -/
theorem safe_iff {fn : Validator} (hfn : fn ≠ .skip) {z_args : Option (List Zval)}
    (hargs : fn = .zipClosure → ∃ params, SavedArgs params z_args) (r : Reply) :
    fn.Safe r.value z_args ↔ fn.Handles r.value ((z_args.getD []).length - 1) := by
  have hz := r.value_ne_undef
  cases fn with
  | skip => exact absurd rfl hfn
  | string =>
      refine iff_of_true (checkType_safe hz rfl (fun v hv => ?_) rfl) trivial
      cases v <;> exact hv
  | long =>
      refine iff_of_true (checkType_safe hz rfl (fun v hv => ?_) rfl) trivial
      cases v <;> exact hv
  | status =>
      refine iff_of_true (checkType_safe hz rfl (fun v hv => ?_) rfl) trivial
      cases v <;> exact hv
  | array => exact iff_of_true (checkType_safe hz rfl (fun _ hv => hv) rfl) trivial
  | zip => exact safe_zip_iff hz z_args _
  | zipClosure =>
      obtain ⟨params, hsaved⟩ := hargs rfl
      obtain ⟨args, rfl, hstrings⟩ := hsaved.strings
      exact safe_zipClosure_iff hz hstrings
  | longAsBool => exact safe_longAsBool_iff hz z_args _

theorem savedArgs_one : SavedArgs [.string (ascii "h"), .string (ascii "f")]
    (some [.string (ascii "h"), .string (ascii "f")]) := ⟨_, rfl⟩

/-- One element for one field. -/
theorem safe_hmget : zipClosure.Safe (Reply.array [.bulk (ascii "v")]).value
    (some [.string (ascii "h"), .string (ascii "f")]) := by
  refine (safe_iff (by simp) (fun _ => ⟨_, savedArgs_one⟩) _).mpr ?_
  rw [Reply.value_array]
  exact Nat.le_refl 1

/-- An error for `exists`, integers for `hgetall`, and one element too many for
`hmget("h", "f")`. -/
theorem not_safe :
    ¬longAsBool.Safe (Reply.error (ascii "ERR")).value none ∧
      ¬zip.Safe (Reply.array [.integer 1, .integer 2]).value none ∧
      ¬zipClosure.Safe (Reply.array [.bulk (ascii "v"), .bulk (ascii "w")]).value
        (some [.string (ascii "h"), .string (ascii "f")]) := by
  refine ⟨fun h => ?_, fun h => ?_, fun h => ?_⟩
  · obtain ⟨v, hv, -⟩ := h
    rw [Reply.value] at hv
    cases hv
  · have hall := (safe_zip_iff (Reply.value_ne_undef _) none 0).mp h
    simp [Handles, listTable_values, Reply.value, Zval.isString] at hall
  · have hle := (safe_zipClosure_iff (Reply.value_ne_undef _) (by simp [Zval.isString])).mp h
    simp [Handles, listTable] at hle

end Validator

end PhpHiredis
