import Mathlib.Logic.Basic
import Mathlib.Tactic.Common

/-!
# Computations of a process that may fail or wait for ever

An execution ends in one of three ways: it returns, it does something its
language leaves undefined, or it blocks on input that never arrives. The three
are kept apart, so that "returns the right value", "never does anything
undefined" and "waits for nothing" are different statements about one term.
Nothing here refers to a particular program.
-/
namespace Library

universe u v

/-- How a computation ends: with a value, with a fault, or waiting. -/
inductive Outcome (ε : Type u) (α : Type v) where
  | ok (a : α)
  | fault (e : ε)
  | blocked
  deriving DecidableEq, Repr

namespace Outcome
variable {ε : Type u} {α β γ : Type v}

/-- The first computation that does not return decides the end. -/
@[simp] def bind : Outcome ε α → (α → Outcome ε β) → Outcome ε β
  | ok a, f => f a
  | fault e, _ => fault e
  | blocked, _ => blocked

instance : Monad (Outcome ε) where
  pure := ok
  bind := bind

@[simp] theorem pure_eq (a : α) : (pure a : Outcome ε α) = ok a := rfl

@[simp] theorem ok_bind (a : α) (f : α → Outcome ε β) : (ok a >>= f) = f a := rfl

@[simp] theorem fault_bind (e : ε) (f : α → Outcome ε β) :
    ((fault e : Outcome ε α) >>= f) = fault e := rfl

@[simp] theorem blocked_bind (f : α → Outcome ε β) :
    ((blocked : Outcome ε α) >>= f) = blocked := rfl

@[simp] theorem map_eq (f : α → β) (x : Outcome ε α) : f <$> x = x.bind (fun a => ok (f a)) := rfl

instance : LawfulMonad (Outcome ε) :=
  LawfulMonad.mk' _ (fun x => by cases x <;> rfl) (fun _ _ => rfl)
    (fun x _ _ => by cases x <;> rfl)

/-- A sequence returns only when both of its parts do. -/
theorem bind_eq_ok {x : Outcome ε α} {f : α → Outcome ε β} {b : β} :
    (x >>= f) = ok b ↔ ∃ a, x = ok a ∧ f a = ok b := by
  cases x <;> simp

/-- The computation returned a value. -/
def Returns (x : Outcome ε α) : Prop := ∃ a, x = ok a

@[simp] theorem returns_ok (a : α) : (ok a : Outcome ε α).Returns := ⟨a, rfl⟩

@[simp] theorem not_returns_fault (e : ε) : ¬(fault e : Outcome ε α).Returns := by
  rintro ⟨a, ha⟩
  cases ha

@[simp] theorem not_returns_blocked : ¬(blocked : Outcome ε α).Returns := by
  rintro ⟨a, ha⟩
  cases ha

theorem not_returns_bind {x : Outcome ε α} {f : α → Outcome ε β}
    (h : ∀ a, x = ok a → ¬(f a).Returns) : ¬(x >>= f).Returns := by
  rintro ⟨b, hb⟩
  obtain ⟨a, ha, hf⟩ := bind_eq_ok.mp hb
  exact h a ha ⟨b, hf⟩

theorem returns_map_iff {x : Outcome ε α} {f : α → β} :
    (x >>= fun a => ok (f a)).Returns ↔ x.Returns := by
  cases x <;> simp

end Outcome
end Library
