import Mathlib.Data.List.Basic
import Mathlib.Data.List.Infix
import Mathlib.Data.List.TakeDrop
import Mathlib.Tactic.Common

/-!
# Blocks of memory

A block is a row of cells; a cell that nothing was written to holds no value. A write
outside of the block does not succeed, and neither does a read of a cell without a value.
`Starts` says what the block holds from its first cell on; what comes behind is not
looked at. Nothing here refers to a particular program.
-/
namespace Library

variable {β : Type*}

abbrev Cells (β : Type*) := List (Option β)

namespace Cells

def alloc (n : ℕ) : Cells β := List.replicate n none

def resize (c : Cells β) (n : ℕ) : Cells β := c.take n ++ alloc (n - c.length)

def put (c : Cells β) (i : ℕ) (xs : List β) : Option (Cells β) :=
  if i + xs.length ≤ c.length then some (c.take i ++ (xs.map some ++ c.drop (i + xs.length)))
  else none

def get (c : Cells β) (i n : ℕ) : Option (List β) :=
  if i + n ≤ c.length then ((c.drop i).take n).mapM id else none

/-- The values from the first cell on. -/
def Starts (c : Cells β) (xs : List β) : Prop := xs.map some <+: c

variable {c : Cells β} {xs ys : List β} {i n : ℕ}

@[simp] theorem length_alloc (n : ℕ) : (alloc n : Cells β).length = n := List.length_replicate

theorem length_resize (c : Cells β) (n : ℕ) : (c.resize n).length = n := by
  rw [resize, List.length_append, List.length_take, length_alloc]
  omega

theorem length_put {c' : Cells β} (h : c.put i xs = some c') : c'.length = c.length := by
  unfold put at h
  split_ifs at h with hle
  cases h
  simp only [List.length_append, List.length_take, List.length_map, List.length_drop]
  omega

theorem exists_put (h : i + xs.length ≤ c.length) :
    ∃ c', c.put i xs = some c' ∧ c'.length = c.length := by
  have hput : c.put i xs = some (c.take i ++ (xs.map some ++ c.drop (i + xs.length))) := if_pos h
  exact ⟨_, hput, length_put hput⟩

theorem Starts.length_le (h : Starts c xs) : xs.length ≤ c.length := by
  have hle := List.IsPrefix.length_le h
  rwa [List.length_map] at hle

theorem Starts.of_append (h : Starts c (xs ++ ys)) : Starts c xs := by
  refine List.IsPrefix.trans ?_ h
  rw [List.map_append]
  exact List.prefix_append _ _

theorem starts_nil (c : Cells β) : Starts c [] := List.nil_prefix

theorem Starts.resize (h : Starts c xs) (hn : xs.length ≤ n) : Starts (c.resize n) xs := by
  obtain ⟨rest, rfl⟩ := h
  refine ⟨rest.take (n - xs.length) ++ alloc (n - (xs.map some ++ rest).length), ?_⟩
  have htake : (xs.map some).take n = xs.map some := List.take_of_length_le (by simpa using hn)
  rw [Cells.resize, List.take_append, htake, List.length_map, List.append_assoc]

theorem Starts.put (h : Starts c xs) (hi : i ≤ xs.length) (hle : i + ys.length ≤ c.length) :
    ∃ c', c.put i ys = some c' ∧ Starts c' (xs.take i ++ ys) ∧ c'.length = c.length := by
  have hput : c.put i ys = some (c.take i ++ (ys.map some ++ c.drop (i + ys.length))) := if_pos hle
  refine ⟨_, hput, ⟨c.drop (i + ys.length), ?_⟩, length_put hput⟩
  obtain ⟨rest, rfl⟩ := h
  have htake : (xs.map some ++ rest).take i = (xs.take i).map some := by
    rw [List.take_append_of_le_length (by simpa using hi), List.map_take]
  rw [htake, List.map_append, List.append_assoc]

theorem Starts.put_end (h : Starts c xs) (hle : xs.length + ys.length ≤ c.length) :
    ∃ c', c.put xs.length ys = some c' ∧ Starts c' (xs ++ ys) ∧ c'.length = c.length := by
  have hput := h.put (Nat.le_refl _) hle
  rwa [List.take_length] at hput

theorem Starts.put_over {zs : List β} (h : Starts c (xs ++ zs)) (hlen : ys.length = xs.length) :
    ∃ c', c.put 0 ys = some c' ∧ Starts c' (ys ++ zs) ∧ c'.length = c.length := by
  have hle := h.length_le
  rw [List.length_append] at hle
  have hput : c.put 0 ys = some (c.take 0 ++ (ys.map some ++ c.drop (0 + ys.length))) :=
    if_pos (by omega)
  refine ⟨_, hput, ?_, length_put hput⟩
  obtain ⟨rest, rfl⟩ := h
  refine ⟨rest, ?_⟩
  have hdrop : ((xs ++ zs).map some ++ rest).drop xs.length = zs.map some ++ rest := by
    rw [List.map_append, List.append_assoc]
    exact List.drop_left' (List.length_map some)
  rw [Nat.zero_add, hlen, hdrop, List.take_zero, List.nil_append, List.map_append,
    List.append_assoc]

theorem mapM_some (xs : List β) : (xs.map some).mapM id = some xs := by
  induction xs with
  | nil => rfl
  | cons x xs ih => simp [ih]

theorem Starts.get (h : Starts c xs) (hle : i + n ≤ xs.length) :
    c.get i n = some ((xs.drop i).take n) := by
  have hlen := h.length_le
  obtain ⟨rest, rfl⟩ := h
  rw [Cells.get, if_pos (by omega), List.drop_append_of_le_length (by rw [List.length_map]; omega),
    List.take_append_of_le_length (by rw [List.length_drop, List.length_map]; omega),
    ← List.map_drop, ← List.map_take, mapM_some]

theorem get_put_front {c' : Cells β} {j : ℕ} (h : c.put 0 xs = some c') (hj : xs.length ≤ j) :
    c'.get j n = c.get j n := by
  have hlen := length_put h
  unfold put at h
  split_ifs at h with hle
  cases h
  unfold Cells.get
  rw [hlen]
  have hdrop : (c.take 0 ++ (xs.map some ++ c.drop (0 + xs.length))).drop j = c.drop j := by
    obtain ⟨k, rfl⟩ := Nat.exists_eq_add_of_le hj
    have hskip := @List.drop_length_add_append _ (xs.map some) (c.drop xs.length) k
    rw [List.length_map] at hskip
    rw [List.take_zero, List.nil_append, Nat.zero_add, hskip, List.drop_drop]
  rw [hdrop]

theorem get_put {c' : Cells β} (h : c.put i xs = some c') : c'.get i xs.length = some xs := by
  have hlen := length_put h
  unfold put at h
  split_ifs at h with hle
  cases h
  have htake : (c.take i).length = i := by
    rw [List.length_take]
    omega
  rw [Cells.get, if_pos (by rw [hlen]; exact hle), List.drop_left' htake,
    List.take_left' (List.length_map some), mapM_some]

/-! A block that is filled from its end. -/

theorem put_back (n : ℕ) (xs : List β) (c : Cells β) :
    (alloc (n + xs.length) ++ c).put n xs = some (alloc n ++ (xs.map some ++ c)) := by
  have hlen : (alloc (n + xs.length) : Cells β).length = n + xs.length := length_alloc _
  have hfront : (alloc (n + xs.length) : Cells β).take n = alloc n := by
    rw [alloc, List.take_replicate, Nat.min_eq_left (Nat.le_add_right _ _), alloc]
  rw [put, if_pos (by rw [List.length_append, hlen]; omega),
    List.take_append_of_le_length (by omega), hfront, List.drop_left' hlen]

theorem get_back (n : ℕ) (xs : List β) : (alloc n ++ xs.map some).get n xs.length = some xs := by
  rw [Cells.get, if_pos (by rw [List.length_append, length_alloc, List.length_map]),
    List.drop_left' (length_alloc n), List.take_of_length_le (by rw [List.length_map]), mapM_some]

end Cells
end Library
