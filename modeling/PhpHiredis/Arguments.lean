import PhpHiredis.Commands
import PhpHiredis.Queues

/-!
# Arguments on their way to the server

Three questions about the arguments of a call. Integers pass through an `int`,
so they arrive when they fit in 32 bits. The two forms of a call with many
arguments, one by one or in an array after the first, are the same call. And
the vectors of `redis_varg_run` have room for their arguments, unless an array
comes alone.
-/
namespace PhpHiredis

open Library Reader

variable {σ : Type}

namespace Command

def Numeric : Command → Prop
  | incr .. | decr .. | incrby .. | decrby .. | lrange .. => True
  | _ => False

def key : Command → Bytes
  | incr key _ | decr key _ | incrby key _ | decrby key _ | lrange key _ _ => key
  | _ => []

/-- Its integers; an increment is by 1 when it has none. -/
def integers : Command → List ℤ
  | incr _ delta | decr _ delta => [delta.getD 1]
  | incrby _ delta | decrby _ delta => [delta]
  | lrange _ start stop => [start, stop]
  | _ => []

/-- The request to add, or subtract, exactly `delta`. -/
def addRequest (keyword key : Bytes) (delta : ℤ) : Request :=
  if delta = 1 then [keyword, key] else [keyword ++ ascii "BY", key, decimalInt delta]

/-- The request that says what the call says. -/
def exactRequest : Command → Request
  | incr key delta => addRequest (ascii "INCR") key (delta.getD 1)
  | decr key delta => addRequest (ascii "DECR") key (delta.getD 1)
  | incrby key delta => addRequest (ascii "INCR") key delta
  | decrby key delta => addRequest (ascii "DECR") key delta
  | lrange key start stop => [ascii "LRANGE", key, decimalInt start, decimalInt stop]
  | _ => []

theorem Numeric.formatted {c : Command} (h : c.Numeric) : c.Formatted := by
  cases c <;> first | exact h.elim | trivial

theorem addRequest_iff (keyword key : Bytes) (delta : ℤ) :
    incrKeyword keyword delta :: (incrArgs key delta).map FormatArg.text =
        addRequest keyword key delta ↔
      -2 ^ 31 ≤ delta ∧ delta < 2 ^ 31 := by
  unfold incrKeyword incrArgs addRequest
  split_ifs with h
  · rw [h]
    exact iff_of_true rfl (by decide)
  · rw [← wrap_eq_self_iff, ← decimalInt_injective.eq_iff]
    simp [FormatArg.text]

/-- The words of the call are the exact ones when its integers have 32 bits. -/
theorem words_eq_iff {c : Command} (hc : c.Numeric) :
    c.words = c.exactRequest ↔ ∀ n ∈ c.integers, -2 ^ 31 ≤ n ∧ n < 2 ^ 31 := by
  cases c with
  | incr key delta =>
      rw [integers, List.forall_mem_singleton]
      exact addRequest_iff (ascii "INCR") key _
  | decr key delta =>
      rw [integers, List.forall_mem_singleton]
      exact addRequest_iff (ascii "DECR") key _
  | incrby key delta =>
      rw [integers, List.forall_mem_singleton]
      exact addRequest_iff (ascii "INCR") key _
  | decrby key delta =>
      rw [integers, List.forall_mem_singleton]
      exact addRequest_iff (ascii "DECR") key _
  | lrange key start stop =>
      simp only [integers, List.forall_mem_cons, ← wrap_eq_self_iff, ← decimalInt_injective.eq_iff]
      simp [words, keyword, arguments, formatArgs, exactRequest, FormatArg.text]
  | _ => exact hc.elim

theorem Numeric.arguments_ne_nil {c : Command} (hc : c.Numeric) (hkey : c.key ≠ []) :
    ∀ a ∈ c.arguments.dropLast, a ≠ [] := by
  have hadd : ∀ key delta, key ≠ [] →
      ∀ a ∈ ((incrArgs key delta).map FormatArg.text).dropLast, a ≠ [] := by
    intro key delta hkey
    unfold incrArgs
    split_ifs
    · simp
    · simpa [FormatArg.text] using hkey
  cases c with
  | incr key delta => exact hadd key _ hkey
  | decr key delta => exact hadd key _ hkey
  | incrby key delta => exact hadd key _ hkey
  | decrby key delta => exact hadd key _ hkey
  | lrange key start stop =>
      have hstart := decimalInt_ne_nil (wrap 32 start)
      simpa [arguments, formatArgs, FormatArg.text] using ⟨hkey, hstart⟩
  | _ => exact hc.elim

/-- With a key, the request says what the call says exactly when the integers of
the call have 32 bits. -/
theorem sends_exact_iff {c : Command} (hc : c.Numeric) (hkey : c.key ≠ []) :
    c.Sends c.exactRequest ↔ ∀ n ∈ c.integers, -2 ^ 31 ≤ n ∧ n < 2 ^ 31 := by
  rw [sends_iff hc.formatted, tokens_words.mpr (hc.arguments_ne_nil hkey)]
  exact words_eq_iff hc

/-- The bounds of 32 bits. -/
theorem sends_exact_bounds :
    (lrange (ascii "k") (-2147483648) 2147483647).Sends
      [ascii "LRANGE", ascii "k", decimalInt (-2147483648), decimalInt 2147483647] :=
  (@sends_exact_iff (lrange (ascii "k") (-2147483648) 2147483647) trivial (by decide)).mpr
    (by decide)

/-- An increment by 2^31 asks the server to subtract. -/
theorem not_sends_exact : (incrby (ascii "k") 2147483648).Sends
      [ascii "INCRBY", ascii "k", ascii "-2147483648"] ∧
    ¬(incrby (ascii "k") 2147483648).Sends (incrby (ascii "k") 2147483648).exactRequest := by
  have hc : (incrby (ascii "k") 2147483648).Formatted := trivial
  constructor
  · exact (sends_iff hc _).mpr (by decide)
  · intro h
    have heq := (sends_iff hc _).mp h
    revert heq
    decide

end Command

/-- `redis_varg_run` stays within its vectors, unless an array comes alone that
has two and more elements, the first two of them at the indices 0 and 1. -/
theorem vargArgv_within_iff (keyword : Bytes) (keep : Bool) (params : List Zval) :
    vargArgv keyword keep params ≠ .fault .outOfBounds ↔ VargRoom params := by
  constructor
  · intro h
    by_contra hroom
    exact h (vargArgv_overflow keyword keep hroom)
  · intro hroom h
    rw [vargArgv_spec keyword keep hroom] at h
    cases h

/-- The array form of `getmultiple` and `delete`. -/
theorem not_vargArgv_within :
    vargArgv (ascii "MGET") false
      [.array [(.index 0, .string (ascii "a")), (.index 1, .string (ascii "b"))]] =
        .fault .outOfBounds := rfl

end PhpHiredis
