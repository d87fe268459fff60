import PhpHiredis.Pushdown

/-!
# The reply objects of the library

The default table of functions in `hiredis.c`, which builds trees of `redisReply`
structures, and `freeReplyObject`. A cell of the memory is one structure together
with its `str` or its `element` vector; the pointers in that vector are the children
of the cell. Memory does not run out, but for a vector that no memory holds.
-/
namespace PhpHiredis.Objects

open Library Library.Trees Reader

abbrev ReplyHeap := Heap Content

/-- The object becomes the element of its parent that the task is for. -/
def setElement (parent : Option (RedisReadTask ℕ)) (idx : ℤ) (r : ℕ) (h : ReplyHeap) :
    Run ReplyHeap :=
  match parent with
  | none => .ok h
  | some task =>
      match task.obj with
      | none => .fault .nullPointer
      | some p =>
          match h.cells p with
          | none => .fault .useAfterFree
          | some cell =>
              if cell.val ≠ .array then .fault .assertion
              else if 0 ≤ idx ∧ idx < cell.children.length then
                .ok (h.write p { cell with children := cell.children.set idx.toNat (some r) })
              else .fault .outOfBounds

def createReplyObject (task : RedisReadTask ℕ) (parent : Option (RedisReadTask ℕ))
    (val : Content) (element : List (Option ℕ)) (h : ReplyHeap) : Run (ℕ × ReplyHeap) := do
  let r := h.next
  let h ← setElement parent task.idx r (h.alloc ⟨val, element⟩)
  return (r, h)

def createStringObject (task : RedisReadTask ℕ) (parent : Option (RedisReadTask ℕ)) (str : Bytes)
    (len : ℕ) (h : ReplyHeap) : Run (ℕ × ReplyHeap) :=
  match task.type with
  | some .error => createReplyObject task parent (.text .error (str.take len)) [] h
  | some .status => createReplyObject task parent (.text .status (str.take len)) [] h
  | some .string => createReplyObject task parent (.text .string (str.take len)) [] h
  | _ => .fault .assertion

/-- A negative count is one that no memory holds; the process ends there. -/
def createArrayObject (task : RedisReadTask ℕ) (parent : Option (RedisReadTask ℕ)) (elements : ℤ)
    (h : ReplyHeap) : Run (ℕ × ReplyHeap) :=
  if elements < 0 then .fault .assertion
  else createReplyObject task parent .array (List.replicate elements.toNat none) h

def createIntegerObject (task : RedisReadTask ℕ) (parent : Option (RedisReadTask ℕ)) (value : ℤ)
    (h : ReplyHeap) : Run (ℕ × ReplyHeap) :=
  createReplyObject task parent (.integer value) [] h

def createNilObject (task : RedisReadTask ℕ) (parent : Option (RedisReadTask ℕ)) (h : ReplyHeap) :
    Run (ℕ × ReplyHeap) :=
  createReplyObject task parent .nil [] h

def freeElement (free : ℕ → ReplyHeap → Run ReplyHeap) (h : ReplyHeap) : Option ℕ → Run ReplyHeap
  | some r => free r h
  | none => .ok h

/-- The calls nest at most `n` deep. -/
def freeReplyObjectFor : ℕ → ℕ → ReplyHeap → Run ReplyHeap
  | 0, _, _ => .blocked
  | n + 1, r, h =>
      match h.cells r with
      | none => .fault .useAfterFree
      | some cell => do
          let h ←
            match cell.val with
            | .array => cell.children.foldlM (freeElement (freeReplyObjectFor n)) h
            | .integer _ | .text _ _ | .nil => Outcome.ok h
          return h.free r

/-- Objects nest no deeper than there are objects. -/
def freeReplyObject (r : ℕ) (h : ReplyHeap) : Run ReplyHeap := freeReplyObjectFor h.next r h

def defaultFunctions : RedisReplyObjectFunctions ℕ ReplyHeap where
  createString := createStringObject
  createArray := createArrayObject
  createInteger := createIntegerObject
  createNil := createNilObject
  freeObject := freeReplyObject

mutual

/-- Only arrays have elements. -/
def Shaped : Obj → Prop
  | .null => True
  | .node v ts => (v = .array ∨ ts = []) ∧ ShapedAll ts

def ShapedAll : List Obj → Prop
  | [] => True
  | t :: ts => Shaped t ∧ ShapedAll ts

end

theorem shaped_null : Shaped .null := by
  rw [Shaped]
  trivial

theorem shaped_node {v : Content} {ts : List Obj} :
    Shaped (.node v ts) ↔ (v = .array ∨ ts = []) ∧ ShapedAll ts := by
  rw [Shaped]

theorem shapedAll_iff {ts : List Obj} : ShapedAll ts ↔ ∀ t ∈ ts, Shaped t := by
  induction ts with
  | nil => simp [ShapedAll]
  | cons t ts ih => rw [ShapedAll, ih, List.forall_mem_cons]

theorem shaped_array {ts : List Obj} : Shaped (Obj.array ts) ↔ ∀ t ∈ ts, Shaped t := by
  rw [Obj.array, shaped_node, shapedAll_iff]
  simp

/-- The cells in `F` are no longer in use, and the others are as they were. -/
structure Freed (h : ReplyHeap) (F : Finset ℕ) (h' : ReplyHeap) : Prop where
  next : h'.next = h.next
  cells : ∀ a, h'.cells a = if a ∈ F then none else h.cells a

namespace Freed
variable {h h₁ h₂ : ReplyHeap} {A B : Finset ℕ}

theorem refl (h : ReplyHeap) : Freed h ∅ h := ⟨rfl, fun _ => (if_neg (Finset.notMem_empty _)).symm⟩

theorem trans (hA : Freed h A h₁) (hB : Freed h₁ B h₂) : Freed h (A ∪ B) h₂ := by
  refine ⟨hB.next.trans hA.next, fun a => ?_⟩
  rw [hB.cells, hA.cells]
  by_cases hb : a ∈ B <;> by_cases ha : a ∈ A <;> simp [ha, hb]

theorem free (hA : Freed h A h₁) (r : ℕ) : Freed h (insert r A) (h₁.free r) := by
  refine ⟨hA.next, fun a => ?_⟩
  by_cases ha : a = r
  · simp [Heap.free, ha]
  · simp [Heap.free, ha, hA.cells]

/-- Cells that were not freed are not touched. -/
theorem kept (hA : Freed h A h₁) (hAB : Disjoint A B) : ∀ a ∈ B, h₁.cells a = h.cells a := by
  intro a ha
  rw [hA.cells, if_neg fun haA => Finset.disjoint_left.mp hAB haA ha]

theorem fresh (hA : Freed h A h₁) (hh : h.Fresh) : h₁.Fresh := by
  intro a ha
  rw [hA.next] at ha
  rw [hA.cells, hh a ha, ite_self]

end Freed

mutual

theorem freeReplyObjectFor_holds {n r : ℕ} {h : ReplyHeap} {F : Finset ℕ} : {t : Obj} → Shaped t →
    Holds h (some r) t F → t.size ≤ n → ∃ h', freeReplyObjectFor n r h = .ok h' ∧ Freed h F h'
  | .null, _, ht, _ => by
      have := (holds_null.mp ht).1
      cases this
  | .node v ts, hshape, ht, hn => by
      obtain ⟨a, ps, G, hp, ha, hts, -, rfl⟩ := holds_node.mp ht
      obtain rfl := Option.some.inj hp
      rw [Rose.size] at hn
      obtain ⟨n, rfl⟩ : ∃ m, n = m + 1 := ⟨n - 1, by omega⟩
      obtain ⟨hv, hall⟩ := shaped_node.mp hshape
      rw [freeReplyObjectFor, ha]
      simp only []
      cases v with
      | array =>
          obtain ⟨h', hfree, hfreed⟩ := freeElements_holds (n := n) hall hts (by omega)
          exact ⟨h'.free r, by simp only [hfree, Outcome.ok_bind, Outcome.pure_eq], hfreed.free r⟩
      | text | integer | nil =>
          obtain rfl := hv.resolve_left nofun
          obtain ⟨-, rfl⟩ := holdsAll_nil.mp hts
          exact ⟨h.free r, rfl, (Freed.refl h).free r⟩

theorem freeElements_holds {n : ℕ} {h : ReplyHeap} {ps : List (Option ℕ)} {F : Finset ℕ} :
    {ts : List Obj} → ShapedAll ts → HoldsAll h ps ts F → sizeAll ts ≤ n →
    ∃ h', ps.foldlM (freeElement (freeReplyObjectFor n)) h = .ok h' ∧ Freed h F h'
  | [], _, hts, _ => by
      obtain ⟨rfl, rfl⟩ := holdsAll_nil.mp hts
      exact ⟨h, rfl, Freed.refl h⟩
  | t :: ts, hshape, hts, hn => by
      obtain ⟨p, qs, A, B, rfl, ht, hrest, hAB, rfl⟩ := holdsAll_cons.mp hts
      rw [ShapedAll] at hshape
      rw [sizeAll] at hn
      obtain ⟨h₁, hfree, hfreed⟩ : ∃ h₁, freeElement (freeReplyObjectFor n) h p = .ok h₁ ∧
          Freed h A h₁ := by
        cases p with
        | some r => exact freeReplyObjectFor_holds hshape.1 ht (by omega)
        | none =>
            cases t with
            | null =>
                rw [(holds_null.mp ht).2]
                exact ⟨h, rfl, Freed.refl h⟩
            | node v us =>
                obtain ⟨a, -, -, hp, -⟩ := holds_node.mp ht
                cases hp
      obtain ⟨h₂, hfree', hfreed'⟩ := freeElements_holds (n := n) hshape.2
        (hrest.congr (hfreed.kept hAB)) (by omega)
      refine ⟨h₂, ?_, hfreed.trans hfreed'⟩
      rw [List.foldlM_cons, hfree, Outcome.ok_bind]
      exact hfree'

end

/-- `freeReplyObject` frees the cells of an object and nothing else. -/
theorem freeReplyObject_holds {r : ℕ} {h : ReplyHeap} {t : Obj} {F : Finset ℕ} (hh : h.Fresh)
    (hshape : Shaped t) (ht : Holds h (some r) t F) :
    ∃ h', freeReplyObject r h = .ok h' ∧ Freed h F h' := by
  refine freeReplyObjectFor_holds hshape ht ?_
  have hsub : F ⊆ Finset.range h.next := by
    intro a ha
    obtain ⟨n, hn⟩ := Option.ne_none_iff_exists'.mp (ht.used a ha)
    exact Finset.mem_range.mpr (hh.lt hn)
  have hcard := Finset.card_le_card hsub
  rwa [Finset.card_range, ht.card] at hcard

/-- The stack has room for the item at hand, and the objects in it are shaped. -/
def Valid : State → Prop
  | .item stack type => stack.length ≤ 2 ∧ type ≠ some .nil ∧
      (type = some .array → stack.length ≠ 2) ∧ ∀ l ∈ stack, ∀ o ∈ l.items, Shaped o
  | .done o => Shaped o ∧ o ≠ .null
  | .failed _ | .overflow => True

theorem shaped_leaf {v : Content} : Shaped (.node v []) :=
  shaped_node.mpr ⟨.inr rfl, trivial⟩

theorem valid_complete {stack : List OpenArray} {o : Obj} (hlen : stack.length ≤ 2)
    (hstack : ∀ l ∈ stack, ∀ o ∈ l.items, Shaped o) (ho : Shaped o) (hnode : o ≠ .null) :
    Valid (complete stack o) := by
  induction stack generalizing o with
  | nil => exact ⟨ho, hnode⟩
  | cons l stack ih =>
      obtain ⟨items, rest⟩ := l
      simp only [List.length_cons] at hlen
      obtain ⟨hl, hbelow⟩ := List.forall_mem_cons.mp hstack
      have hitems : ∀ t ∈ items ++ [o], Shaped t := by
        intro t ht
        rcases List.mem_append.mp ht with ht | ht
        · exact hl t ht
        · exact List.mem_singleton.mp ht ▸ ho
      cases rest with
      | zero => exact ih (by omega) hbelow (shaped_array.mpr hitems) nofun
      | succ n => exact ⟨by simpa using hlen, nofun, nofun,
            List.forall_mem_cons.mpr ⟨hitems, hbelow⟩⟩

theorem valid_typedStep {stack : List OpenArray} {t : ReplyType} {xs ys : Bytes} {st : State}
    (h : Valid (.item stack (some t))) (hstep : typedStep stack t xs = some (st, ys)) :
    Valid st := by
  obtain ⟨hlen, -, harray, hstack⟩ := h
  have hleaf : ∀ v, Valid (complete stack (.node v [])) :=
    fun v => valid_complete hlen hstack shaped_leaf nofun
  unfold typedStep at hstep
  cases hline : findCRLF xs with
  | none =>
      rw [hline] at hstep
      cases hstep
  | some i =>
      rw [hline] at hstep
      cases t with
      | error | status | integer =>
          cases hstep
          exact hleaf _
      | string =>
          simp only [] at hstep
          split_ifs at hstep <;> cases hstep <;> exact hleaf _
      | array =>
          cases hstep
          unfold openArray
          split_ifs with h₁ h₂ h₃
          · exact hleaf _
          · exact hleaf _
          · have hroom := harray rfl
            refine ⟨?_, nofun, nofun, List.forall_mem_cons.mpr ⟨by simp, hstack⟩⟩
            simp only [List.length_cons]
            omega
          · trivial
      | nil => cases hstep

theorem Valid.typeStep {stack : List OpenArray} (h : Valid (.item stack none)) (b : UInt8) :
    Valid (typeStep stack b) := by
  unfold Objects.typeStep
  cases hb : replyTypeOf b with
  | none => trivial
  | some t =>
      simp only []
      split_ifs with hdeep
      · trivial
      · refine ⟨h.1, ?_, ?_, h.2.2.2⟩
        · simpa using replyTypeOf_ne_nil hb
        · intro ht hlen
          exact hdeep ⟨Option.some.inj ht, hlen⟩

end PhpHiredis.Objects
