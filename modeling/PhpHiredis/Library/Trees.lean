import Mathlib.Data.Finset.Card
import Mathlib.Data.Finset.Disjoint
import Mathlib.Data.Finset.Lattice.Lemmas
import Mathlib.Tactic.Common

/-!
# Trees of cells in memory

A memory of cells, each with a value and the pointers to its children. `Holds`
says that a pointer leads to a tree and lists the cells of it; no cell is used
twice, so that the tree can be built, read and freed without regard to the rest
of the memory. `Spine` is a tree with a place left open, as it stands while it is
built from the root down: the cells from the open place up to the root, with the
complete trees on both sides of the way. Nothing here refers to a particular
program.
-/
namespace Library.Trees

variable {ν : Type}

structure Node (ν : Type) where
  val : ν
  children : List (Option ℕ)

/-- `next` is the address that is handed out next; none is handed out twice. -/
structure Heap (ν : Type) where
  next : ℕ
  cells : ℕ → Option (Node ν)

namespace Heap

def empty : Heap ν := ⟨0, fun _ => none⟩

def alloc (h : Heap ν) (n : Node ν) : Heap ν :=
  ⟨h.next + 1, fun a => if a = h.next then some n else h.cells a⟩

def write (h : Heap ν) (a : ℕ) (n : Node ν) : Heap ν :=
  { h with cells := fun b => if b = a then some n else h.cells b }

def free (h : Heap ν) (a : ℕ) : Heap ν :=
  { h with cells := fun b => if b = a then none else h.cells b }

def Fresh (h : Heap ν) : Prop := ∀ a, h.next ≤ a → h.cells a = none

@[simp] theorem alloc_next (h : Heap ν) (n : Node ν) : (h.alloc n).next = h.next + 1 := rfl

@[simp] theorem alloc_self (h : Heap ν) (n : Node ν) : (h.alloc n).cells h.next = some n :=
  if_pos rfl

theorem alloc_of_ne {h : Heap ν} {a : ℕ} (ha : a ≠ h.next) (n : Node ν) :
    (h.alloc n).cells a = h.cells a := if_neg ha

@[simp] theorem write_next (h : Heap ν) (a : ℕ) (n : Node ν) : (h.write a n).next = h.next := rfl

@[simp] theorem write_self (h : Heap ν) (a : ℕ) (n : Node ν) : (h.write a n).cells a = some n :=
  if_pos rfl

theorem write_of_ne {h : Heap ν} {a b : ℕ} (hb : b ≠ a) (n : Node ν) :
    (h.write a n).cells b = h.cells b := if_neg hb

theorem Fresh.alloc {h : Heap ν} (hh : h.Fresh) (n : Node ν) : (h.alloc n).Fresh := by
  intro a ha
  rw [alloc_next] at ha
  rw [alloc_of_ne (by omega)]
  exact hh a (by omega)

theorem Fresh.write {h : Heap ν} (hh : h.Fresh) {a : ℕ} (ha : a < h.next) (n : Node ν) :
    (h.write a n).Fresh := by
  intro b hb
  rw [write_next] at hb
  rw [write_of_ne (by omega)]
  exact hh b hb

theorem Fresh.lt {h : Heap ν} (hh : h.Fresh) {a : ℕ} {n : Node ν} (ha : h.cells a = some n) :
    a < h.next := by
  by_contra hge
  rw [hh a (by omega)] at ha
  cases ha

end Heap

/-- `null` is where a pointer is `NULL`. -/
inductive Rose (ν : Type) where
  | null
  | node (val : ν) (children : List (Rose ν))

mutual

def Rose.size : Rose ν → ℕ
  | .null => 0
  | .node _ ts => sizeAll ts + 1

def sizeAll : List (Rose ν) → ℕ
  | [] => 0
  | t :: ts => t.size + sizeAll ts

end

mutual

/-- The pointer `p` leads to the tree, whose cells are those in `F`. -/
def Holds (h : Heap ν) : Option ℕ → Rose ν → Finset ℕ → Prop
  | p, .null, F => p = none ∧ F = ∅
  | p, .node v ts, F => ∃ a ps G, p = some a ∧ h.cells a = some ⟨v, ps⟩ ∧
      HoldsAll h ps ts G ∧ a ∉ G ∧ F = insert a G

def HoldsAll (h : Heap ν) : List (Option ℕ) → List (Rose ν) → Finset ℕ → Prop
  | ps, [], F => ps = [] ∧ F = ∅
  | ps, t :: ts, F => ∃ p qs A B, ps = p :: qs ∧ Holds h p t A ∧ HoldsAll h qs ts B ∧
      Disjoint A B ∧ F = A ∪ B

end

section
variable {h h' : Heap ν}

theorem holds_null {p : Option ℕ} {F : Finset ℕ} : Holds h p .null F ↔ p = none ∧ F = ∅ := by
  rw [Holds]

theorem holds_node {p : Option ℕ} {v : ν} {ts : List (Rose ν)} {F : Finset ℕ} :
    Holds h p (.node v ts) F ↔ ∃ a ps G, p = some a ∧ h.cells a = some ⟨v, ps⟩ ∧
      HoldsAll h ps ts G ∧ a ∉ G ∧ F = insert a G := by
  rw [Holds]

@[simp] theorem holdsAll_nil {ps : List (Option ℕ)} {F : Finset ℕ} :
    HoldsAll h ps [] F ↔ ps = [] ∧ F = ∅ := by
  rw [HoldsAll]

theorem holdsAll_cons {ps : List (Option ℕ)} {t : Rose ν} {ts : List (Rose ν)} {F : Finset ℕ} :
    HoldsAll h ps (t :: ts) F ↔ ∃ p qs A B, ps = p :: qs ∧ Holds h p t A ∧ HoldsAll h qs ts B ∧
      Disjoint A B ∧ F = A ∪ B := by
  rw [HoldsAll]

mutual

/-- A tree depends on its own cells only. -/
theorem Holds.congr {p : Option ℕ} {F : Finset ℕ} : {t : Rose ν} → Holds h p t F →
    (∀ a ∈ F, h'.cells a = h.cells a) → Holds h' p t F
  | .null, ht, _ => holds_null.mpr (holds_null.mp ht)
  | .node v ts, ht, hcells => by
      obtain ⟨a, ps, G, hp, ha, hts, hG, rfl⟩ := holds_node.mp ht
      refine holds_node.mpr ⟨a, ps, G, hp, ?_, ?_, hG, rfl⟩
      · rw [hcells a (Finset.mem_insert_self a G), ha]
      · exact hts.congr fun b hb => hcells b (Finset.mem_insert_of_mem hb)

theorem HoldsAll.congr {ps : List (Option ℕ)} {F : Finset ℕ} : {ts : List (Rose ν)} →
    HoldsAll h ps ts F → (∀ a ∈ F, h'.cells a = h.cells a) → HoldsAll h' ps ts F
  | [], hts, _ => holdsAll_nil.mpr (holdsAll_nil.mp hts)
  | t :: ts, hts, hcells => by
      obtain ⟨p, qs, A, B, rfl, ht, hrest, hAB, rfl⟩ := holdsAll_cons.mp hts
      exact holdsAll_cons.mpr ⟨p, qs, A, B, rfl,
        ht.congr fun a ha => hcells a (Finset.mem_union_left B ha),
        hrest.congr fun a ha => hcells a (Finset.mem_union_right A ha), hAB, rfl⟩

end

mutual

theorem Holds.card {p : Option ℕ} {F : Finset ℕ} : {t : Rose ν} → Holds h p t F → F.card = t.size
  | .null, ht => by
      rw [(holds_null.mp ht).2, Finset.card_empty, Rose.size]
  | .node v ts, ht => by
      obtain ⟨a, ps, G, -, -, hts, hG, rfl⟩ := holds_node.mp ht
      rw [Finset.card_insert_of_notMem hG, hts.card, Rose.size]

theorem HoldsAll.card {ps : List (Option ℕ)} {F : Finset ℕ} : {ts : List (Rose ν)} →
    HoldsAll h ps ts F → F.card = sizeAll ts
  | [], hts => by
      rw [(holdsAll_nil.mp hts).2, Finset.card_empty, sizeAll]
  | t :: ts, hts => by
      obtain ⟨p, qs, A, B, -, ht, hrest, hAB, rfl⟩ := holdsAll_cons.mp hts
      rw [Finset.card_union_of_disjoint hAB, ht.card, hrest.card, sizeAll]

end

mutual

theorem Holds.used {p : Option ℕ} {F : Finset ℕ} : {t : Rose ν} → Holds h p t F →
    ∀ a ∈ F, h.cells a ≠ none
  | .null, ht, a, ha => by
      rw [(holds_null.mp ht).2] at ha
      exact absurd ha (Finset.notMem_empty a)
  | .node v ts, ht, a, ha => by
      obtain ⟨b, ps, G, -, hb, hts, -, rfl⟩ := holds_node.mp ht
      rcases Finset.mem_insert.mp ha with rfl | ha
      · rw [hb]
        exact Option.some_ne_none _
      · exact hts.used a ha

theorem HoldsAll.used {ps : List (Option ℕ)} {F : Finset ℕ} : {ts : List (Rose ν)} →
    HoldsAll h ps ts F → ∀ a ∈ F, h.cells a ≠ none
  | [], hts, a, ha => by
      rw [(holdsAll_nil.mp hts).2] at ha
      exact absurd ha (Finset.notMem_empty a)
  | t :: ts, hts, a, ha => by
      obtain ⟨p, qs, A, B, -, ht, hrest, -, rfl⟩ := holdsAll_cons.mp hts
      rcases Finset.mem_union.mp ha with ha | ha
      · exact ht.used a ha
      · exact hrest.used a ha

end

theorem HoldsAll.snoc {ps : List (Option ℕ)} {p : Option ℕ} {ts : List (Rose ν)} {t : Rose ν}
    {A B : Finset ℕ} (hts : HoldsAll h ps ts A) (ht : Holds h p t B) (hAB : Disjoint A B) :
    HoldsAll h (ps ++ [p]) (ts ++ [t]) (A ∪ B) := by
  induction ts generalizing ps A with
  | nil =>
      obtain ⟨rfl, rfl⟩ := holdsAll_nil.mp hts
      exact holdsAll_cons.mpr ⟨p, [], B, ∅, rfl, ht, holdsAll_nil.mpr ⟨rfl, rfl⟩,
        Finset.disjoint_empty_right B, by rw [Finset.empty_union, Finset.union_empty]⟩
  | cons u ts ih =>
      obtain ⟨q, qs, C, D, rfl, hu, hrest, hCD, rfl⟩ := holdsAll_cons.mp hts
      obtain ⟨hCB, hDB⟩ := Finset.disjoint_union_left.mp hAB
      exact holdsAll_cons.mpr ⟨q, qs ++ [p], C, D ∪ B, rfl, hu, ih hrest hDB,
        Finset.disjoint_union_right.mpr ⟨hCD, hCB⟩, Finset.union_assoc C D B⟩

theorem HoldsAll.length {ps : List (Option ℕ)} {ts : List (Rose ν)} {F : Finset ℕ}
    (hts : HoldsAll h ps ts F) : ps.length = ts.length := by
  induction ts generalizing ps F with
  | nil => rw [(holdsAll_nil.mp hts).1]; rfl
  | cons t ts ih =>
      obtain ⟨p, qs, A, B, rfl, -, hrest, -, -⟩ := holdsAll_cons.mp hts
      rw [List.length_cons, List.length_cons, ih hrest]

theorem HoldsAll.eraseIdx {ps : List (Option ℕ)} {ts : List (Rose ν)} {F : Finset ℕ} {i : ℕ}
    {p : Option ℕ} (hts : HoldsAll h ps ts F) (hp : ps[i]? = some p) :
    ∃ t A B, ts[i]? = some t ∧ Holds h p t A ∧ HoldsAll h (ps.eraseIdx i) (ts.eraseIdx i) B ∧
      Disjoint A B ∧ F = A ∪ B := by
  induction ts generalizing ps F i with
  | nil =>
      rw [(holdsAll_nil.mp hts).1] at hp
      cases hp
  | cons t ts ih =>
      obtain ⟨q, qs, A, B, rfl, ht, hrest, hAB, rfl⟩ := holdsAll_cons.mp hts
      cases i with
      | zero =>
          cases hp
          exact ⟨t, A, B, rfl, ht, hrest, hAB, rfl⟩
      | succ i =>
          obtain ⟨u, C, D, hu, hold, hothers, hCD, rfl⟩ := ih hrest hp
          obtain ⟨hAC, hAD⟩ := Finset.disjoint_union_right.mp hAB
          refine ⟨u, C, A ∪ D, hu, hold, holdsAll_cons.mpr ⟨q, _, A, D, rfl, ht, hothers, hAD, rfl⟩,
            Finset.disjoint_union_right.mpr ⟨hAC.symm, hCD⟩, ?_⟩
          rw [← Finset.union_assoc, ← Finset.union_assoc, Finset.union_comm A C]

theorem holdsAll_replicate (n : ℕ) :
    HoldsAll h (List.replicate n none) (List.replicate n .null) ∅ := by
  induction n with
  | zero => exact holdsAll_nil.mpr ⟨rfl, rfl⟩
  | succ n ih =>
      exact holdsAll_cons.mpr ⟨none, _, ∅, ∅, rfl, holds_null.mpr ⟨rfl, rfl⟩, ih,
        Finset.disjoint_empty_left ∅, (Finset.empty_union ∅).symm⟩

end

/-- A cell on the way from the open place up: the trees before the way and those
after it. -/
structure Level (ν : Type) where
  val : ν
  left : List (Rose ν)
  right : List (Rose ν)

def plug : List (ℕ × Level ν) → Rose ν → Rose ν
  | [], t => t
  | (_, l) :: C, t => plug C (.node l.val (l.left ++ t :: l.right))

/-- The pointer `root` leads to a tree with an open place. `C` lists the cells from
there up; the pointer in the open place is `q`. -/
def Spine (h : Heap ν) (root : Option ℕ) : List (ℕ × Level ν) → Option ℕ → Finset ℕ → Prop
  | [], q, F => root = q ∧ F = ∅
  | (a, l) :: C, q, F => ∃ ps rs A B G, h.cells a = some ⟨l.val, ps ++ q :: rs⟩ ∧
      HoldsAll h ps l.left A ∧ HoldsAll h rs l.right B ∧ Spine h root C (some a) G ∧
      Disjoint A B ∧ Disjoint (A ∪ B) G ∧ a ∉ A ∪ B ∪ G ∧ F = insert a (A ∪ B ∪ G)

section
variable {h h' : Heap ν} {root q : Option ℕ} {F G : Finset ℕ}

@[simp] theorem spine_nil : Spine h root [] q F ↔ root = q ∧ F = ∅ := Iff.rfl

theorem Spine.congr {C : List (ℕ × Level ν)} (hC : Spine h root C q F)
    (hcells : ∀ a ∈ F, h'.cells a = h.cells a) : Spine h' root C q F := by
  induction C generalizing q F with
  | nil => exact hC
  | cons x C ih =>
      obtain ⟨ps, rs, A, B, G, ha, hA, hB, hG, hAB, hABG, hout, rfl⟩ := hC
      refine ⟨ps, rs, A, B, G, ?_, hA.congr fun b hb => ?_, hB.congr fun b hb => ?_,
        ih hG fun b hb => ?_, hAB, hABG, hout, rfl⟩
      · rw [hcells _ (Finset.mem_insert_self _ _), ha]
      all_goals exact hcells b (by simp [hb])

theorem Spine.used {C : List (ℕ × Level ν)} (hC : Spine h root C q F) :
    ∀ a ∈ F, h.cells a ≠ none := by
  induction C generalizing q F with
  | nil =>
      intro a ha
      rw [hC.2] at ha
      exact absurd ha (Finset.notMem_empty a)
  | cons x C ih =>
      obtain ⟨ps, rs, A, B, G, ha, hA, hB, hG, -, -, -, rfl⟩ := hC
      intro b hb
      simp only [Finset.mem_insert, Finset.mem_union] at hb
      rcases hb with rfl | (hb | hb) | hb
      · rw [ha]
        exact Option.some_ne_none _
      · exact hA.used b hb
      · exact hB.used b hb
      · exact ih hG b hb

theorem Spine.root_ne_none {C : List (ℕ × Level ν)} {a : ℕ} (hC : Spine h none C (some a) F) :
    False := by
  induction C generalizing a F with
  | nil => exact absurd hC.1 (Option.some_ne_none a).symm
  | cons x C ih =>
      obtain ⟨ps, rs, A, B, G, -, -, -, hG, -⟩ := hC
      exact ih hG

theorem holdsAll_around {ps rs : List (Option ℕ)} {ts us : List (Rose ν)} {t : Rose ν}
    {A B : Finset ℕ} (hA : HoldsAll h ps ts A) (ht : Holds h q t G) (hB : HoldsAll h rs us B)
    (hAG : Disjoint A G) (hAB : Disjoint A B) (hGB : Disjoint G B) :
    HoldsAll h (ps ++ q :: rs) (ts ++ t :: us) (A ∪ (G ∪ B)) := by
  induction ts generalizing ps A with
  | nil =>
      obtain ⟨rfl, rfl⟩ := holdsAll_nil.mp hA
      rw [Finset.empty_union]
      exact holdsAll_cons.mpr ⟨q, rs, G, B, rfl, ht, hB, hGB, rfl⟩
  | cons u ts ih =>
      obtain ⟨p, qs, C, D, rfl, hu, hrest, hCD, rfl⟩ := holdsAll_cons.mp hA
      obtain ⟨hCG, hDG⟩ := Finset.disjoint_union_left.mp hAG
      obtain ⟨hCB, hDB⟩ := Finset.disjoint_union_left.mp hAB
      refine holdsAll_cons.mpr ⟨p, qs ++ q :: rs, C, D ∪ (G ∪ B), rfl, hu, ih hrest hDG hDB, ?_,
        Finset.union_assoc C D (G ∪ B)⟩
      exact Finset.disjoint_union_right.mpr ⟨hCD, Finset.disjoint_union_right.mpr ⟨hCG, hCB⟩⟩

theorem Spine.plug {C : List (ℕ × Level ν)} (hC : Spine h root C q F) {t : Rose ν}
    (ht : Holds h q t G) (hFG : Disjoint F G) : Holds h root (plug C t) (F ∪ G) := by
  induction C generalizing q t F G with
  | nil =>
      obtain ⟨rfl, rfl⟩ := hC
      rw [Finset.empty_union]
      exact ht
  | cons x C ih =>
      obtain ⟨a, l⟩ := x
      obtain ⟨ps, rs, A, B, K, ha, hA, hB, hK, hAB, hABK, hout, rfl⟩ := hC
      have hdisj : a ∉ G ∧ Disjoint A G ∧ Disjoint B G ∧ Disjoint K G := by
        simpa [Finset.disjoint_insert_left, Finset.disjoint_union_left, and_assoc] using hFG
      obtain ⟨haG, hAG, hBG, hKG⟩ := hdisj
      have hnode : Holds h (some a) (.node l.val (l.left ++ t :: l.right))
          (insert a (A ∪ (G ∪ B))) :=
        holds_node.mpr ⟨a, _, _, rfl, ha, holdsAll_around hA ht hB hAG hAB hBG.symm, by grind, rfl⟩
      have hsep : Disjoint K (insert a (A ∪ (G ∪ B))) := by
        rw [Finset.disjoint_union_left] at hABK
        simp only [Finset.disjoint_insert_right, Finset.disjoint_union_right]
        exact ⟨by grind, hABK.1.symm, hKG, hABK.2.symm⟩
      have hwhole := ih hK hnode hsep
      rwa [show K ∪ insert a (A ∪ (G ∪ B)) = insert a (A ∪ B ∪ K) ∪ G by grind] at hwhole

theorem Spine.retarget {C : List (ℕ × Level ν)} {a : ℕ} {l : Level ν}
    (hC : Spine h root ((a, l) :: C) q F) (q' : Option ℕ) :
    ∃ ps, h.cells a = some ⟨l.val, ps⟩ ∧ l.left.length < ps.length ∧
      Spine (h.write a ⟨l.val, ps.set l.left.length q'⟩) root ((a, l) :: C) q' F := by
  obtain ⟨ps, rs, A, B, K, ha, hA, hB, hK, hAB, hABK, hout, rfl⟩ := hC
  have hlen := hA.length
  refine ⟨ps ++ q :: rs, ha, by simp [← hlen], ?_⟩
  have hframe : ∀ b ∈ A ∪ B ∪ K,
      (h.write a ⟨l.val, (ps ++ q :: rs).set l.left.length q'⟩).cells b = h.cells b := by
    intro b hb
    exact Heap.write_of_ne (by rintro rfl; exact hout hb) _
  refine ⟨ps, rs, A, B, K, ?_, hA.congr fun b hb => hframe b (by grind),
    hB.congr fun b hb => hframe b (by grind), hK.congr fun b hb => hframe b (by grind),
    hAB, hABK, hout, rfl⟩
  rw [Heap.write_self, ← hlen, List.set_append_right _ _ le_rfl, Nat.sub_self, List.set_cons_zero]

theorem Spine.enter {C : List (ℕ × Level ν)} {a : ℕ} {v : ν} {n : ℕ}
    (hC : Spine h root C (some a) F) (ha : h.cells a = some ⟨v, List.replicate (n + 1) none⟩)
    (haF : a ∉ F) :
    Spine h root ((a, ⟨v, [], List.replicate n .null⟩) :: C) none (insert a F) := by
  refine ⟨[], List.replicate n none, ∅, ∅, F, ha, holdsAll_nil.mpr ⟨rfl, rfl⟩, holdsAll_replicate n,
    hC, Finset.disjoint_empty_left ∅, ?_, ?_, ?_⟩
  all_goals simp [haF]

/-- The tree in the open place is complete, and there is a place after it. -/
theorem Spine.advance {C : List (ℕ × Level ν)} {a : ℕ} {v : ν} {left right : List (Rose ν)}
    {t : Rose ν}
    (hC : Spine h root ((a, ⟨v, left, .null :: right⟩) :: C) q F) (ht : Holds h q t G)
    (hFG : Disjoint F G) :
    Spine h root ((a, ⟨v, left ++ [t], right⟩) :: C) none (F ∪ G) := by
  obtain ⟨ps, rs, A, B, K, ha, hA, hB, hK, hAB, hABK, hout, rfl⟩ := hC
  obtain ⟨p, rs', E, B', rfl, hnull, hB', -, rfl⟩ := holdsAll_cons.mp hB
  obtain ⟨rfl, rfl⟩ := holds_null.mp hnull
  have hdisj : a ∉ G ∧ Disjoint A G ∧ Disjoint B' G ∧ Disjoint K G := by
    simpa [Finset.disjoint_insert_left, Finset.disjoint_union_left, and_assoc] using hFG
  obtain ⟨haG, hAG, hBG, hKG⟩ := hdisj
  rw [Finset.empty_union] at hAB hABK hout ⊢
  obtain ⟨hAK, hBK⟩ := Finset.disjoint_union_left.mp hABK
  refine ⟨ps ++ [q], rs', A ∪ G, B', K, ?_, hA.snoc ht hAG, hB', hK, ?_, ?_, ?_, ?_⟩
  · rw [ha, List.append_assoc, List.singleton_append]
  · exact Finset.disjoint_union_left.mpr ⟨hAB, hBG.symm⟩
  · simp only [Finset.disjoint_union_left]
    exact ⟨⟨hAK, hKG.symm⟩, hBK⟩
  · grind
  · grind

/-- The tree in the open place is complete, and was the last of its cell. -/
theorem Spine.leave {C : List (ℕ × Level ν)} {a : ℕ} {v : ν} {left : List (Rose ν)} {t : Rose ν}
    (hC : Spine h root ((a, ⟨v, left, []⟩) :: C) q F) (ht : Holds h q t G) (hFG : Disjoint F G) :
    ∃ F' G', Spine h root C (some a) F' ∧ Holds h (some a) (.node v (left ++ [t])) G' ∧
      Disjoint F' G' ∧ F' ∪ G' = F ∪ G := by
  obtain ⟨ps, rs, A, B, K, ha, hA, hB, hK, hAB, hABK, hout, rfl⟩ := hC
  obtain ⟨rfl, rfl⟩ := holdsAll_nil.mp hB
  have hdisj : a ∉ G ∧ Disjoint A G ∧ Disjoint K G := by
    simpa [Finset.disjoint_insert_left, Finset.disjoint_union_left, and_assoc] using hFG
  obtain ⟨haG, hAG, hKG⟩ := hdisj
  rw [Finset.union_empty] at hABK hout ⊢
  refine ⟨K, insert a (A ∪ G), hK,
    holds_node.mpr ⟨a, _, _, rfl, ha, hA.snoc ht hAG, by grind, rfl⟩, ?_, ?_⟩
  · simp only [Finset.disjoint_insert_right, Finset.disjoint_union_right]
    exact ⟨by grind, hABK.symm, hKG⟩
  · grind

end

end Library.Trees
