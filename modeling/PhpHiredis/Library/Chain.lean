import Mathlib.Data.List.Basic
import Mathlib.Data.List.Perm.Subperm
import Mathlib.Data.List.Range
import Mathlib.Logic.Function.Basic

/-!
# Chains of pointers

`Chain next p l` says that the pointer `p` leads along `next` through exactly
the nodes `l`, and ends. Chains are finite, and so without repetition. A
program that only ever writes to the last node of a chain can lengthen chains,
and do nothing else to them; two chains that do not meet are lengthened one at
a time.
-/
namespace Library

variable {α : Type*} {next : α → Option α}

def Chain (next : α → Option α) : Option α → List α → Prop
  | p, [] => p = none
  | p, a :: l => p = some a ∧ Chain next (next a) l

namespace Chain

theorem head {p : Option α} {l : List α} (h : Chain next p l) : p = l.head? := by
  cases l with
  | nil => exact h
  | cons a l => exact h.1

theorem eq_nil {l : List α} (h : Chain next none l) : l = [] := by
  cases l with
  | nil => rfl
  | cons a l => cases h.1

theorem uncons {a : α} {l : List α} (h : Chain next (some a) l) :
    ∃ l', l = a :: l' ∧ Chain next (next a) l' := by
  cases l with
  | nil => cases h
  | cons b l =>
      obtain rfl := Option.some.inj h.1
      exact ⟨l, rfl, h.2⟩

theorem unique {p : Option α} {l l' : List α} (h : Chain next p l) (h' : Chain next p l') :
    l = l' := by
  induction l generalizing p l' with
  | nil =>
      rw [show p = none from h] at h'
      exact h'.eq_nil.symm
  | cons a l ih =>
      rw [h.1] at h'
      obtain ⟨m, rfl, hm⟩ := h'.uncons
      rw [ih h.2 hm]

theorem drop {p : Option α} {l m : List α} {a : α} (h : Chain next p (l ++ a :: m)) :
    Chain next (some a) (a :: m) := by
  induction l generalizing p with
  | nil => exact ⟨rfl, h.2⟩
  | cons b l ih => exact ih h.2

theorem nodup {p : Option α} {l : List α} (h : Chain next p l) : l.Nodup := by
  induction l generalizing p with
  | nil => exact List.nodup_nil
  | cons a l ih =>
      refine List.nodup_cons.mpr ⟨fun ha => ?_, ih h.2⟩
      obtain ⟨l₁, l₂, rfl⟩ := List.append_of_mem ha
      -- the same pointer would lead along two chains of different lengths
      have hlong : Chain next (some a) (a :: (l₁ ++ a :: l₂)) := ⟨rfl, h.2⟩
      have hlen := congrArg List.length (hlong.unique (drop h.2))
      simp only [List.length_cons, List.length_append] at hlen
      omega

theorem next_last {p : Option α} {l : List α} (h : Chain next p l) {a : α}
    (ha : l.getLast? = some a) : next a = none := by
  obtain ⟨l', rfl⟩ := List.getLast?_eq_some_iff.mp ha
  exact (drop h).2

theorem getLast_of_next {p : Option α} {l : List α} (h : Chain next p l) {a : α} (ha : a ∈ l)
    (hn : next a = none) : l.getLast? = some a := by
  obtain ⟨l₁, l₂, rfl⟩ := List.append_of_mem ha
  have hd := (drop h).2
  rw [hn] at hd
  cases l₂ with
  | nil => exact List.getLast?_concat
  | cons b l₂ => cases hd.1

theorem congr {next' : α → Option α} {p : Option α} {l : List α} (h : Chain next p l)
    (heq : ∀ a ∈ l, next' a = next a) : Chain next' p l := by
  induction l generalizing p with
  | nil => exact h
  | cons a l ih =>
      refine ⟨h.1, ?_⟩
      rw [heq a (by simp)]
      exact ih h.2 fun b hb => heq b (by simp [hb])

theorem length_le {next : ℕ → Option ℕ} {p : Option ℕ} {l : List ℕ} (h : Chain next p l) {n : ℕ}
    (hn : ∀ a ∈ l, a < n) : l.length ≤ n := by
  have hsub : l ⊆ List.range n := fun a ha => List.mem_range.mpr (hn a ha)
  simpa using (List.subperm_of_subset h.nodup hsub).length_le

section
variable [DecidableEq α] {p : Option α} {l : List α} {a c : α}

theorem snoc (h : Chain next p l) (ha : l.getLast? = some a) (hc : next c = none) (hne : c ≠ a) :
    Chain (Function.update next a (some c)) p (l ++ [c]) := by
  have hnd := h.nodup
  induction l generalizing p with
  | nil => cases ha
  | cons b l ih =>
      refine ⟨h.1, ?_⟩
      cases l with
      | nil =>
          obtain rfl : b = a := Option.some.inj ha
          rw [Function.update_self]
          refine ⟨rfl, ?_⟩
          rw [Function.update_of_ne hne]
          exact hc
      | cons b' l =>
          rw [List.getLast?_cons_cons] at ha
          have hb : b ≠ a := by
            rintro rfl
            exact (List.nodup_cons.mp hnd).1 (List.mem_of_getLast? ha)
          rw [Function.update_of_ne hb]
          exact ih h.2 ha (List.nodup_cons.mp hnd).2

/-- A write to a node that was the last of its chain, seen from any chain. -/
theorem write (h : Chain next p l) (ha : next a = none) (hc : next c = none) (hne : c ≠ a) :
    ∃ extra, extra ⊆ [c] ∧ Chain (Function.update next a (some c)) p (l ++ extra) := by
  by_cases hmem : a ∈ l
  · exact ⟨[c], List.Subset.refl _, h.snoc (h.getLast_of_next hmem ha) hc hne⟩
  · refine ⟨[], List.nil_subset _, ?_⟩
    rw [List.append_nil]
    refine h.congr fun b hb => Function.update_of_ne ?_ _ _
    rintro rfl
    exact hmem hb

end

end Chain
end Library
