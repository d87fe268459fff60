import PhpHiredis.Library.Chain
import PhpHiredis.Library.Outcome

/-!
# Loops that follow a pointer

A loop over linked nodes goes on while its pointer is not null and its condition
holds, and runs its body on the node. `Walk.Exec` derives an execution that
ends, with the nodes that the body was run on; along a cycle there may be no
derivation at all. Over a chain there is one, whatever the body does: the nodes
are those of the chain from its head on, in their order. A loop without a
condition takes them all, unless the body does not return. Nothing here refers
to a particular program.
-/
namespace Library

universe u v

/-- Where a loop goes next, the condition beside its pointer, and its body. -/
structure Walk (α : Type*) (S : Type v) (ε : Type u) where
  next : α → Option α
  more : S → Bool
  body : α → S → Outcome ε S

namespace Walk
variable {α : Type*} {S : Type v} {ε : Type u} {w : Walk α S ε}

/-- From the pointer and the state given, the loop runs its body on these nodes, and ends.
A body that does not return is the last one. -/
inductive Exec (w : Walk α S ε) : Option α → S → List α → Outcome ε S → Prop
  | null {s : S} : Exec w none s [] (.ok s)
  | stop {a : α} {s : S} : w.more s = false → Exec w (some a) s [] (.ok s)
  | fault {a : α} {s : S} {e : ε} : w.more s = true → w.body a s = .fault e →
      Exec w (some a) s [a] (.fault e)
  | blocked {a : α} {s : S} : w.more s = true → w.body a s = .blocked →
      Exec w (some a) s [a] .blocked
  | pass {a : α} {s s' : S} {m : List α} {o : Outcome ε S} : w.more s = true →
      w.body a s = .ok s' → Exec w (w.next a) s' m o → Exec w (some a) s (a :: m) o

/-- Over a chain the loop ends. -/
theorem exists_exec {p : Option α} {l : List α} (hl : Chain w.next p l) (s : S) :
    ∃ m o, w.Exec p s m o := by
  induction l generalizing p s with
  | nil =>
      rw [show p = none from hl]
      exact ⟨_, _, .null⟩
  | cons a l ih =>
      rw [hl.1]
      cases hmore : w.more s with
      | false => exact ⟨_, _, .stop hmore⟩
      | true =>
          cases hbody : w.body a s with
          | ok s' =>
              obtain ⟨m, o, hexec⟩ := ih hl.2 s'
              exact ⟨_, _, .pass hmore hbody hexec⟩
          | fault e => exact ⟨_, _, .fault hmore hbody⟩
          | blocked => exact ⟨_, _, .blocked hmore hbody⟩

namespace Exec
variable {p : Option α} {s : S} {l m : List α} {o : Outcome ε S}

/-- There is only one execution. -/
theorem unique {m' : List α} {o' : Outcome ε S} (h : w.Exec p s m o) (h' : w.Exec p s m' o') :
    m = m' ∧ o = o' := by
  induction h generalizing m' o' with
  | null =>
      cases h'
      exact ⟨rfl, rfl⟩
  | stop hm =>
      cases h' with
      | stop _ => exact ⟨rfl, rfl⟩
      | fault hm' _ => cases hm.symm.trans hm'
      | blocked hm' _ => cases hm.symm.trans hm'
      | pass hm' _ _ => cases hm.symm.trans hm'
  | fault hm hb =>
      cases h' with
      | stop hm' => cases hm.symm.trans hm'
      | fault _ hb' =>
          cases hb.symm.trans hb'
          exact ⟨rfl, rfl⟩
      | blocked _ hb' => cases hb.symm.trans hb'
      | pass _ hb' _ => cases hb.symm.trans hb'
  | blocked hm hb =>
      cases h' with
      | stop hm' => cases hm.symm.trans hm'
      | fault _ hb' => cases hb.symm.trans hb'
      | blocked _ _ => exact ⟨rfl, rfl⟩
      | pass _ hb' _ => cases hb.symm.trans hb'
  | pass hm hb _ ih =>
      cases h' with
      | stop hm' => cases hm.symm.trans hm'
      | fault _ hb' => cases hb.symm.trans hb'
      | blocked _ hb' => cases hb.symm.trans hb'
      | pass _ hb' h' =>
          cases hb.symm.trans hb'
          obtain ⟨rfl, rfl⟩ := ih h'
          exact ⟨rfl, rfl⟩

/-- The nodes are taken in the order of the chain, from its head on. -/
theorem isPrefix (h : w.Exec p s m o) (hl : Chain w.next p l) : m <+: l := by
  induction h generalizing l with
  | null => exact List.nil_prefix
  | stop _ => exact List.nil_prefix
  | fault _ _ =>
      obtain ⟨l', rfl, -⟩ := hl.uncons
      exact List.cons_prefix_cons.mpr ⟨rfl, List.nil_prefix⟩
  | blocked _ _ =>
      obtain ⟨l', rfl, -⟩ := hl.uncons
      exact List.cons_prefix_cons.mpr ⟨rfl, List.nil_prefix⟩
  | pass _ _ _ ih =>
      obtain ⟨l', rfl, hl'⟩ := hl.uncons
      exact List.cons_prefix_cons.mpr ⟨rfl, ih hl'⟩

theorem eq_chain (h : w.Exec p s m o) (hmore : ∀ s, w.more s = true) (hl : Chain w.next p l)
    (ho : o.Returns) : m = l := by
  induction h generalizing l with
  | null => exact hl.eq_nil.symm
  | stop hstop => cases (hmore _).symm.trans hstop
  | fault _ _ => exact absurd ho (Outcome.not_returns_fault _)
  | blocked _ _ => exact absurd ho Outcome.not_returns_blocked
  | pass _ _ _ ih =>
      obtain ⟨l', rfl, hl'⟩ := hl.uncons
      rw [ih hl' ho]

/-- The condition may count the passes that are left: then no more nodes are taken
than it allows at first. -/
theorem isPrefix_take {size : S → ℕ} (hmore : ∀ s, w.more s = true ↔ size s ≠ 0)
    (hbody : ∀ a s s', w.more s = true → w.body a s = .ok s' → size s = size s' + 1)
    (h : w.Exec p s m o) (hl : Chain w.next p l) : m <+: l.take (size s) := by
  refine List.prefix_take_iff.mpr ⟨h.isPrefix hl, ?_⟩
  clear hl
  induction h with
  | null => exact Nat.zero_le _
  | stop _ => exact Nat.zero_le _
  | fault hm _ => exact Nat.one_le_iff_ne_zero.mpr ((hmore _).mp hm)
  | blocked hm _ => exact Nat.one_le_iff_ne_zero.mpr ((hmore _).mp hm)
  | pass hm hb _ ih =>
      rw [hbody _ _ _ hm hb]
      exact Nat.succ_le_succ ih

theorem eq_take {size : S → ℕ} (hmore : ∀ s, w.more s = true ↔ size s ≠ 0)
    (hbody : ∀ a s s', w.more s = true → w.body a s = .ok s' → size s = size s' + 1)
    (h : w.Exec p s m o) (hl : Chain w.next p l) (ho : o.Returns) : m = l.take (size s) := by
  induction h generalizing l with
  | null => rw [hl.eq_nil, List.take_nil]
  | @stop a s hstop =>
      have hsize : size s = 0 := by
        by_contra hne
        cases ((hmore s).mpr hne).symm.trans hstop
      rw [hsize, List.take_zero]
  | fault _ _ => exact absurd ho (Outcome.not_returns_fault _)
  | blocked _ _ => exact absurd ho Outcome.not_returns_blocked
  | pass hm hb _ ih =>
      obtain ⟨l', rfl, hl'⟩ := hl.uncons
      rw [hbody _ _ _ hm hb, List.take_succ_cons, ih hl' ho]

/-- A loop that is given a number of passes, and returns some part of its state, does
not notice the bound if there are passes enough for the nodes. -/
theorem eq_loop {β : Type v} (out : S → β) (loop : ℕ → Option α → S → Outcome ε β)
    (hnull : ∀ n s, loop n none s = .ok (out s))
    (hstop : ∀ n a s, w.more s = false → loop n (some a) s = .ok (out s))
    (hpass : ∀ n a s, w.more s = true →
      loop (n + 1) (some a) s = w.body a s >>= loop n (w.next a))
    (h : w.Exec p s m o) {n : ℕ} (hn : m.length ≤ n) :
    loop n p s = o >>= fun s => .ok (out s) := by
  induction h generalizing n with
  | null => exact hnull n _
  | stop hm => exact hstop n _ _ hm
  | fault hm hb =>
      obtain ⟨k, rfl⟩ := Nat.exists_eq_add_of_le' hn
      rw [List.length_singleton, hpass _ _ _ hm, hb, Outcome.fault_bind, Outcome.fault_bind]
  | blocked hm hb =>
      obtain ⟨k, rfl⟩ := Nat.exists_eq_add_of_le' hn
      rw [List.length_singleton, hpass _ _ _ hm, hb, Outcome.blocked_bind, Outcome.blocked_bind]
  | pass hm hb _ ih =>
      obtain ⟨k, rfl⟩ := Nat.exists_eq_add_of_le' hn
      rw [List.length_cons, ← Nat.add_assoc, hpass _ _ _ hm, hb, Outcome.ok_bind]
      exact ih (Nat.le_add_left _ _)

end Exec

/-- The loop ends with `o`. It has taken the nodes of `l` in their order, from the first
one on, and all of them if it returns. -/
def Covers (w : Walk α S ε) (p : Option α) (s : S) (l : List α) (o : Outcome ε S) : Prop :=
  ∃ m, w.Exec p s m o ∧ m <+: l ∧ (o.Returns → m = l)

theorem exists_covers {p : Option α} {l : List α} (hmore : ∀ s, w.more s = true)
    (hl : Chain w.next p l) (s : S) : ∃ o, w.Covers p s l o := by
  obtain ⟨m, o, h⟩ := exists_exec hl s
  exact ⟨o, m, h, h.isPrefix hl, h.eq_chain hmore hl⟩

theorem exists_covers_take {p : Option α} {l : List α} {size : S → ℕ}
    (hmore : ∀ s, w.more s = true ↔ size s ≠ 0)
    (hbody : ∀ a s s', w.more s = true → w.body a s = .ok s' → size s = size s' + 1)
    (hl : Chain w.next p l) (s : S) : ∃ o, w.Covers p s (l.take (size s)) o := by
  obtain ⟨m, o, h⟩ := exists_exec hl s
  exact ⟨o, m, h, h.isPrefix_take hmore hbody hl, h.eq_take hmore hbody hl⟩

end Walk
end Library
