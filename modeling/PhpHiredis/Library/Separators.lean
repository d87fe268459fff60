import Mathlib.Data.List.Basic
import Mathlib.Data.List.Infix
import Mathlib.Tactic.Common

/-!
# Lists with separators

`Splits sep s ts`: reading `s` from the left, every occurrence of `sep` that does not
overlap the one before it ends a piece, and `ts` are the pieces. Joining them again gives
`s`, and there is one such `ts` only. Nothing here refers to a particular program.
-/
namespace Library

variable {β : Type*} {sep s t rest : List β} {ts us : List (List β)}

/-- The first occurrence of `sep` in `t ++ sep` is at its end. -/
def EndsPiece (sep t : List β) : Prop := ∀ i < t.length, ¬sep <+: (t ++ sep).drop i

inductive Splits (sep : List β) : List β → List (List β) → Prop
  | last {t : List β} : ¬sep <:+: t → Splits sep t [t]
  | cons {t rest : List β} {ts : List (List β)} :
      EndsPiece sep t → Splits sep rest ts → Splits sep (t ++ (sep ++ rest)) (t :: ts)

namespace Splits

theorem ne_nil (h : Splits sep s ts) : ts ≠ [] := by
  cases h with
  | last => exact List.cons_ne_nil _ _
  | cons => exact List.cons_ne_nil _ _

theorem intercalate (h : Splits sep s ts) : sep.intercalate ts = s := by
  induction h with
  | last => exact List.intercalate_singleton
  | @cons t rest ts _ hrest ih =>
      rw [List.intercalate_cons_of_ne_nil hrest.ne_nil, ih, List.append_assoc]

end Splits

theorem infix_iff_prefix_drop : sep <:+: t ↔ ∃ i, sep <+: t.drop i := by
  constructor
  · intro ⟨front, back, h⟩
    refine ⟨front.length, back, ?_⟩
    rw [← h, List.append_assoc, List.drop_left]
  · intro ⟨i, h⟩
    exact h.isInfix.trans (List.drop_suffix i t).isInfix

theorem not_endsPiece_of_infix (hsep : sep ≠ []) (h : sep <:+: t) : ¬EndsPiece sep t := by
  obtain ⟨i, hi⟩ := infix_iff_prefix_drop.mp h
  intro hends
  have hpos := List.length_pos_iff.mpr hsep
  have hle := hi.length_le
  rw [List.length_drop] at hle
  refine hends i (by omega) ?_
  rw [List.drop_append_of_le_length (by omega)]
  exact hi.trans (List.prefix_append _ _)

namespace Splits

theorem clean (hsep : sep ≠ []) (h : Splits sep s ts) : ∀ t ∈ ts, ¬sep <:+: t := by
  induction h with
  | last hlast =>
      intro t ht
      rw [List.mem_singleton] at ht
      subst ht
      exact hlast
  | cons hends _ ih =>
      intro t ht
      cases ht with
      | head => exact fun hinfix => not_endsPiece_of_infix hsep hinfix hends
      | tail _ ht => exact ih t ht

end Splits

theorem EndsPiece.le {t' rest' : List β} (h : EndsPiece sep t)
    (heq : t ++ (sep ++ rest) = t' ++ (sep ++ rest')) : t.length ≤ t'.length := by
  by_contra hlt
  rw [not_le] at hlt
  apply h t'.length hlt
  -- the separator behind `t'` lies within `t ++ sep`
  have hprefix : sep <+: (t ++ (sep ++ rest)).drop t'.length := by
    rw [heq, List.drop_left]
    exact List.prefix_append _ _
  rw [← List.append_assoc,
    List.drop_append_of_le_length (by rw [List.length_append]; omega)] at hprefix
  refine List.prefix_of_prefix_length_le hprefix (List.prefix_append _ _) ?_
  rw [List.length_drop, List.length_append]
  omega

namespace Splits

theorem unique (h : Splits sep s ts) (h' : Splits sep s us) : ts = us := by
  induction h generalizing us with
  | @last t hlast =>
      generalize hs : t = s at h'
      cases h' with
      | last => rfl
      | cons =>
          subst hs
          exact absurd ⟨_, _, (List.append_assoc _ _ _)⟩ hlast
  | @cons t rest ts hends hrest ih =>
      generalize hs : t ++ (sep ++ rest) = s at h'
      cases h' with
      | last hlast =>
          subst hs
          exact absurd ⟨_, _, (List.append_assoc _ _ _)⟩ hlast
      | @cons t' rest' us hends' hrest' =>
          have hlen := Nat.le_antisymm (hends.le hs) (hends'.le hs.symm)
          obtain ⟨rfl, htail⟩ := List.append_inj hs hlen
          rw [List.append_cancel_left_eq] at htail
          subst htail
          rw [ih hrest']

end Splits
end Library
