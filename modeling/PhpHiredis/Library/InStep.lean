import PhpHiredis.Library.Outcome

/-!
# Computations in step

Two computations are in step when they end in the same way, and with related values if they
return. A sequence is in step when its parts are, so two programs that do the same on
different representations are compared part by part. Nothing here refers to a particular
program.
-/
namespace Library

universe u v

/-- The same end, with values related by `R`. -/
inductive InStep {ε : Type u} {α β : Type v} (R : α → β → Prop) :
    Outcome ε α → Outcome ε β → Prop
  | ok {a : α} {b : β} (h : R a b) : InStep R (.ok a) (.ok b)
  | fault (e : ε) : InStep R (.fault e) (.fault e)
  | blocked : InStep R .blocked .blocked

namespace InStep
variable {ε : Type u} {α β α' β' : Type v} {R : α → β → Prop} {S : α' → β' → Prop}
  {x : Outcome ε α} {y : Outcome ε β}

theorem bind {f : α → Outcome ε α'} {g : β → Outcome ε β'} (h : InStep R x y)
    (hnext : ∀ a b, R a b → InStep S (f a) (g b)) : InStep S (x >>= f) (y >>= g) := by
  cases h with
  | ok h => exact hnext _ _ h
  | fault e => exact .fault e
  | blocked => exact .blocked

theorem imp {S : α → β → Prop} (h : InStep R x y) (himp : ∀ {a b}, y = .ok b → R a b → S a b) :
    InStep S x y := by
  cases h with
  | ok h => exact .ok (himp rfl h)
  | fault e => exact .fault e
  | blocked => exact .blocked

end InStep
end Library
