import Mathlib.Tactic.Common

/-!
# Reachable states

A system has states, some of them initial, and steps with labels. A run may be
restricted to steps that are allowed in the state where they are taken; so the
conditions of a result about runs are conditions on single steps. Nothing here
refers to a particular program.
-/
namespace Library

variable {S L : Type*}

/-- The states that runs of allowed steps lead to. -/
inductive Reached (init : S → Prop) (step : S → L → S → Prop) (allowed : S → L → Prop) : S → Prop
  | init {s : S} : init s → Reached init step allowed s
  | step {s s' : S} {l : L} : Reached init step allowed s → allowed s l → step s l s' →
      Reached init step allowed s'

/-- What holds at first, and is kept by every allowed step, holds of every state reached. -/
theorem Reached.invariant {init : S → Prop} {step : S → L → S → Prop} {allowed : S → L → Prop}
    {I : S → Prop} (hinit : ∀ s, init s → I s)
    (hstep : ∀ s l s', I s → allowed s l → step s l s' → I s') {s : S}
    (h : Reached init step allowed s) : I s := by
  induction h with
  | init h => exact hinit _ h
  | step _ hallowed hs ih => exact hstep _ _ _ ih hallowed hs

end Library
