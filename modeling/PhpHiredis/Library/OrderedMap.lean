import Mathlib.Data.List.Basic
import Mathlib.Tactic.Common

/-!
# Maps that remember the order of insertion

An association list in which storing under a present key replaces the value
where it stands, and storing under a new key appends.
-/
namespace Library.OrderedMap

variable {κ ν : Type*} [DecidableEq κ]

def insert (k : κ) (v : ν) : List (κ × ν) → List (κ × ν)
  | [] => [(k, v)]
  | e :: es => if e.1 = k then (k, v) :: es else e :: insert k v es

def lookup (k : κ) : List (κ × ν) → Option ν
  | [] => none
  | e :: es => if e.1 = k then some e.2 else lookup k es

@[simp] theorem lookup_insert_self (k : κ) (v : ν) (es : List (κ × ν)) :
    lookup k (insert k v es) = some v := by
  induction es with
  | nil => simp [insert, lookup]
  | cons e es ih =>
      simp only [insert]
      split_ifs with h
      · simp [lookup]
      · simp [lookup, h, ih]

theorem insert_of_notMem {k : κ} {es : List (κ × ν)} (h : k ∉ es.map Prod.fst) (v : ν) :
    insert k v es = es ++ [(k, v)] := by
  induction es with
  | nil => rfl
  | cons e es ih =>
      rw [List.map_cons, List.mem_cons, not_or] at h
      rw [insert, if_neg (fun he => h.1 he.symm), ih h.2, List.cons_append]

/-- Storing twice under one key keeps the second value. -/
@[simp] theorem insert_insert_self (k : κ) (v w : ν) (es : List (κ × ν)) :
    insert k w (insert k v es) = insert k w es := by
  induction es with
  | nil => simp [insert]
  | cons e es ih =>
      simp only [insert]
      split_ifs with h
      · simp [insert]
      · simp only [insert, h, if_false, ih]

/-- A present key keeps its place; a new one comes last. -/
theorem keys_insert (k : κ) (v : ν) (es : List (κ × ν)) :
    (insert k v es).map Prod.fst =
      if k ∈ es.map Prod.fst then es.map Prod.fst else es.map Prod.fst ++ [k] := by
  induction es with
  | nil => rfl
  | cons e es ih =>
      simp only [insert]
      split_ifs with he hk hk
      · simp [he]
      · exact absurd (by simp [he]) hk
      · have hk' : k ∈ es.map Prod.fst := by simpa [Ne.symm he] using hk
        rw [List.map_cons, ih, if_pos hk', List.map_cons]
      · have hk' : k ∉ es.map Prod.fst := fun h => hk (List.mem_cons_of_mem _ h)
        rw [List.map_cons, ih, if_neg hk', List.map_cons, List.cons_append]

/-- Store entries one after another. -/
def insertAll (es new : List (κ × ν)) : List (κ × ν) :=
  new.foldl (fun es e => insert e.1 e.2 es) es

@[simp] theorem insertAll_nil (es : List (κ × ν)) : insertAll es [] = es := rfl

@[simp] theorem insertAll_cons (es : List (κ × ν)) (e : κ × ν) (new : List (κ × ν)) :
    insertAll es (e :: new) = insertAll (insert e.1 e.2 es) new := rfl

theorem insertAll_of_nodup {es new : List (κ × ν)} (h : ((es ++ new).map Prod.fst).Nodup) :
    insertAll es new = es ++ new := by
  induction new generalizing es with
  | nil => rw [insertAll_nil, List.append_nil]
  | cons e new ih =>
      have hnew : e.1 ∉ es.map Prod.fst := by
        rw [List.map_append, List.map_cons, List.nodup_append] at h
        intro he
        exact h.2.2 e.1 he e.1 List.mem_cons_self rfl
      rw [insertAll_cons, insert_of_notMem hnew, ih, List.append_assoc, List.singleton_append]
      rwa [List.append_assoc, List.singleton_append]

theorem keys_insertAll_subset (es new : List (κ × ν)) :
    (insertAll es new).map Prod.fst ⊆ es.map Prod.fst ++ new.map Prod.fst := by
  induction new generalizing es with
  | nil => simp
  | cons e new ih =>
      intro k hk
      rw [insertAll_cons] at hk
      rcases List.mem_append.mp (ih _ hk) with hk | hk
      · rw [keys_insert] at hk
        split_ifs at hk
        · exact List.mem_append_left _ hk
        · rcases List.mem_append.mp hk with hk | hk
          · exact List.mem_append_left _ hk
          · rw [List.mem_singleton] at hk
            simp [hk]
      · exact List.mem_append_right _ (List.mem_cons_of_mem _ hk)

end Library.OrderedMap
