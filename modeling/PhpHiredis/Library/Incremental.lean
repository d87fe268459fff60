import Mathlib.Data.Nat.Init
import Mathlib.Tactic.Common

/-!
# Consumers that may be stopped at any byte

A consumer looks at the input it has not used yet and either takes some of it
or asks for more. `drain` lets it run until it asks. When a consumer is `Local`
(what it takes does not depend on what follows), draining the input in pieces
ends in the same state, with the same rest, as draining it at once: the cuts
between the pieces cannot be observed.
-/
namespace Library.Incremental

variable {σ β : Type*}

/-- `none`: nothing can be done without more input. -/
abbrev Consumer (σ β : Type*) := σ → List β → Option (σ × List β)

/-- Every step takes something from the front, and depends only on what it takes. -/
structure Local (step : Consumer σ β) : Prop where
  takes : ∀ {s xs s' ys}, step s xs = some (s', ys) → ys <:+ xs ∧ ys.length < xs.length
  extend : ∀ {s xs s' ys}, step s xs = some (s', ys) →
    ∀ zs, step s (xs ++ zs) = some (s', ys ++ zs)

def drainFor (step : Consumer σ β) : ℕ → σ → List β → σ × List β
  | 0, s, xs => (s, xs)
  | n + 1, s, xs =>
      match step s xs with
      | none => (s, xs)
      | some (s', ys) => drainFor step n s' ys

/-- Run until more input is needed. A step takes at least one byte, so the
length of the input bounds the number of steps. -/
def drain (step : Consumer σ β) (s : σ) (xs : List β) : σ × List β :=
  drainFor step xs.length s xs

theorem drain_stop {step : Consumer σ β} {s : σ} {xs : List β} (h : step s xs = none) :
    drain step s xs = (s, xs) := by
  cases xs with
  | nil => rfl
  | cons x xs => simp only [drain, List.length_cons, drainFor, h]

section
variable {step : Consumer σ β} (hs : Local step)
include hs

theorem Local.shrinks {s s' : σ} {xs ys : List β} (h : step s xs = some (s', ys)) :
    ys.length < xs.length := (hs.takes h).2

theorem drainFor_succ (n : ℕ) (s : σ) (xs : List β) (h : xs.length ≤ n) :
    drainFor step n s xs = drainFor step (n + 1) s xs := by
  induction n generalizing s xs with
  | zero =>
      have hx : xs = [] := List.eq_nil_of_length_eq_zero (Nat.le_zero.mp h)
      subst hx
      cases he : step s [] with
      | none => simp only [drainFor, he]
      | some r => exact absurd (hs.shrinks he) (Nat.not_lt_zero _)
  | succ n ih =>
      rw [drainFor, drainFor]
      cases he : step s xs with
      | none => rfl
      | some r =>
          have hr := hs.shrinks he
          exact ih r.1 r.2 (by omega)

theorem drainFor_of_le {n : ℕ} {s : σ} {xs : List β} (h : xs.length ≤ n) :
    drainFor step n s xs = drain step s xs := by
  induction n, h using Nat.le_induction with
  | base => rfl
  | succ n hn ih => rw [← drainFor_succ hs n s xs hn, ih]

theorem drain_step {s s' : σ} {xs ys : List β} (h : step s xs = some (s', ys)) :
    drain step s xs = drain step s' ys := by
  have hl := hs.shrinks h
  rw [← drainFor_of_le hs (Nat.le_succ xs.length), drainFor, h]
  exact drainFor_of_le hs (Nat.le_of_lt hl)

theorem induction_on_steps {motive : σ → List β → Prop}
    (stop : ∀ s xs, step s xs = none → motive s xs)
    (next : ∀ s xs s' ys, step s xs = some (s', ys) → motive s' ys → motive s xs)
    (s : σ) (xs : List β) : motive s xs := by
  induction hn : xs.length using Nat.strong_induction_on generalizing s xs with
  | _ n ih =>
      cases he : step s xs with
      | none => exact stop s xs he
      | some r => exact next s xs r.1 r.2 he (ih _ (hn ▸ hs.shrinks he) r.1 r.2 rfl)

/-- What is left is the end of the input. -/
theorem drain_suffix (s : σ) (xs : List β) : (drain step s xs).2 <:+ xs := by
  induction s, xs using induction_on_steps hs with
  | stop s xs h => simp only [drain_stop h, List.suffix_refl]
  | next s xs s' ys h ih =>
      rw [drain_step hs h]
      exact ih.trans (hs.takes h).1

theorem step_drain (s : σ) (xs : List β) :
    step (drain step s xs).1 (drain step s xs).2 = none := by
  induction s, xs using induction_on_steps hs with
  | stop s xs h => rwa [drain_stop h]
  | next s xs s' ys h ih => rwa [drain_step hs h]

/-- Cutting the input anywhere changes neither the state nor the rest. -/
theorem drain_append (s : σ) (xs zs : List β) :
    drain step s (xs ++ zs) = drain step (drain step s xs).1 ((drain step s xs).2 ++ zs) := by
  induction s, xs using induction_on_steps hs with
  | stop s xs h => rw [drain_stop h]
  | next s xs s' ys h ih => rw [drain_step hs h, drain_step hs (hs.extend h zs), ih]

end

end Library.Incremental
