import PhpHiredis.DefaultObjects

/-!
# The reply reader builds the objects of the library

The reader with its default functions, on arbitrary bytes, next to the pushdown
machine: the stack of tasks is the stack of open arrays, and the memory holds the
reply under way as a tree with an open place. From this follow at once what is read,
that no function is called in a state it is not made for, and which cells are in use
at any moment.
-/
namespace PhpHiredis.Objects

open Library Library.Incremental Library.Trees Reader

abbrev ObjectReader := RedisReader ℕ ReplyHeap

/-- The cells in use are those in `F`, of the reply under way, and those in `out`,
which are as they were in `h₀`. -/
structure CellLedger (h₀ h : ReplyHeap) (F out : Finset ℕ) : Prop where
  fresh : h.Fresh
  apart : Disjoint F out
  used : ∀ a, h.cells a ≠ none ↔ a ∈ F ∪ out
  kept : ∀ a ∈ out, h.cells a = h₀.cells a

namespace CellLedger
variable {h₀ h : ReplyHeap} {F out : Finset ℕ}

theorem next_notMem (hl : CellLedger h₀ h F out) : h.next ∉ F ∪ out := fun hmem =>
  (hl.used _).mpr hmem (hl.fresh _ le_rfl)

theorem alloc (hl : CellLedger h₀ h F out) (n : Node Content) :
    CellLedger h₀ (h.alloc n) (insert h.next F) out := by
  have hnew := hl.next_notMem
  rw [Finset.mem_union, not_or] at hnew
  refine ⟨hl.fresh.alloc n, Finset.disjoint_insert_left.mpr ⟨hnew.2, hl.apart⟩, fun a => ?_,
    fun a ha => ?_⟩
  · by_cases ha : a = h.next
    · simp [ha]
    · rw [Heap.alloc_of_ne ha, hl.used]
      simp [ha]
  · rw [Heap.alloc_of_ne (by rintro rfl; exact hnew.2 ha), hl.kept a ha]

theorem write (hl : CellLedger h₀ h F out) {a : ℕ} (ha : a ∈ F) (n : Node Content) :
    CellLedger h₀ (h.write a n) F out := by
  have hused := (hl.used a).mpr (Finset.mem_union_left _ ha)
  obtain ⟨m, hm⟩ := Option.ne_none_iff_exists'.mp hused
  refine ⟨hl.fresh.write (hl.fresh.lt hm) n, hl.apart, fun b => ?_, fun b hb => ?_⟩
  · by_cases hb : b = a
    · subst hb
      simp [ha]
    · rw [Heap.write_of_ne hb, hl.used]
  · have hne : b ≠ a := by
      rintro rfl
      exact Finset.disjoint_left.mp hl.apart ha hb
    rw [Heap.write_of_ne hne, hl.kept b hb]

theorem freed (hl : CellLedger h₀ h F out) {h' : ReplyHeap} (hf : Freed h F h') :
    CellLedger h₀ h' ∅ out := by
  refine ⟨hf.fresh hl.fresh, Finset.disjoint_empty_left _, fun a => ?_, fun a ha => ?_⟩
  · rw [hf.cells, Finset.empty_union]
    have hused := hl.used a
    by_cases ha : a ∈ F
    · simp [ha, Finset.disjoint_left.mp hl.apart ha]
    · simpa [ha] using hused
  · rw [hf.kept hl.apart a ha, hl.kept a ha]

end CellLedger

/-- The open arrays as the way from the open place up. -/
def wayOf (arrays : List (ℕ × OpenArray)) : List (ℕ × Trees.Level Content) :=
  arrays.map fun x => (x.1, ⟨.array, x.2.items, List.replicate x.2.rest .null⟩)

/-- A task for every open array, and one for the item at hand. -/
def Tasks (rstack : ℕ → RedisReadTask ℕ) : List (ℕ × OpenArray) → Prop
  | [] => (rstack 0).parent = none
  | (a, l) :: arrays =>
      (rstack arrays.length).type = some .array ∧
      (rstack arrays.length).obj = some a ∧
      (rstack arrays.length).elements = l.items.length + l.rest + 1 ∧
      (rstack (arrays.length + 1)).idx = l.items.length ∧
      (rstack (arrays.length + 1)).parent = some arrays.length ∧
      Tasks rstack arrays

theorem Tasks.congr {rstack rstack' : ℕ → RedisReadTask ℕ} {arrays : List (ℕ × OpenArray)}
    (h : Tasks rstack arrays) (hbelow : ∀ j < arrays.length, rstack' j = rstack j)
    (hidx : (rstack' arrays.length).idx = (rstack arrays.length).idx)
    (hparent : (rstack' arrays.length).parent = (rstack arrays.length).parent) :
    Tasks rstack' arrays := by
  induction arrays with
  | nil => exact hparent.trans h
  | cons x arrays ih =>
      obtain ⟨a, l⟩ := x
      obtain ⟨htype, hobj, helements, hi, hp, hrest⟩ := h
      have htop := hbelow arrays.length (Nat.lt_succ_self _)
      refine ⟨by rw [htop, htype], by rw [htop, hobj], by rw [htop, helements], hidx.trans hi,
        hparent.trans hp, ih hrest (fun j hj => hbelow j (Nat.lt_succ_of_lt hj)) ?_ ?_⟩
      · rw [htop]
      · rw [htop]

theorem Tasks.advance {rstack : ℕ → RedisReadTask ℕ} {arrays : List (ℕ × OpenArray)} {a k : ℕ}
    {items : List Obj} {o : Obj} {task : RedisReadTask ℕ}
    (h : Tasks rstack ((a, ⟨items, k + 1⟩) :: arrays)) (hidx : task.idx = items.length + 1)
    (hparent : task.parent = some arrays.length) :
    Tasks (Function.update rstack (arrays.length + 1) task) ((a, ⟨items ++ [o], k⟩) :: arrays) := by
  obtain ⟨htype, hobj, helements, -, -, hbelow⟩ := h
  have hkept : ∀ j < arrays.length + 1,
      Function.update rstack (arrays.length + 1) task j = rstack j :=
    fun j hj => Function.update_of_ne (by omega) _ _
  have htop := hkept arrays.length (Nat.lt_succ_self _)
  refine ⟨by rw [htop, htype], by rw [htop, hobj], ?_, ?_, ?_,
    hbelow.congr (fun j hj => hkept j (by omega)) (by rw [htop]) (by rw [htop])⟩
  · rw [htop, helements]
    simp only [List.length_append, List.length_singleton]
    push_cast
    omega
  · rw [Function.update_self, hidx]
    simp
  · rw [Function.update_self, hparent]

/-- The reader at an item: its stack of tasks and the reply under way. -/
structure Working (r : ObjectReader) (arrays : List (ℕ × OpenArray)) (F : Finset ℕ) : Prop where
  error : r.error = none
  ridx : r.ridx = arrays.length
  tasks : Tasks r.rstack arrays
  tree : Spine r.mem r.reply (wayOf arrays) none F

/-- The reader in a state of the machine, with the reply under way in the cells of `F`. -/
def Represents (r : ObjectReader) : State → Finset ℕ → Prop
  | .item stack type, F =>
      ∃ arrays, arrays.map Prod.snd = stack ∧ Working r arrays F ∧ r.cur.type = type
  | .done o, F => r.error = none ∧ r.ridx = -1 ∧ Holds r.mem r.reply o F
  | .failed err, F => r.error = some err ∧ r.ridx = -1 ∧ F = ∅
  | .overflow, _ => False

/-- The unread bytes. -/
structure Buffered (r : ObjectReader) (xs : Bytes) : Prop where
  len : r.len = r.buf.length
  pos : r.pos ≤ r.len
  unread : r.unread = xs

theorem Buffered.length {r : ObjectReader} {xs : Bytes} (h : Buffered r xs) :
    r.len - r.pos = xs.length := by
  rw [← h.unread, RedisReader.unread, List.length_drop, h.len]

theorem Buffered.skip {r : ObjectReader} {xs : Bytes} (h : Buffered r xs) {n : ℕ}
    (hn : n ≤ xs.length) : Buffered { r with pos := r.pos + n } (xs.drop n) := by
  have hlen := h.length
  refine ⟨h.len, ?_, ?_⟩
  · have := h.pos
    change r.pos + n ≤ r.len
    omega
  · rw [← h.unread]
    exact (List.drop_drop).symm

theorem Buffered.setRootReply {r : ObjectReader} {xs : Bytes} (h : Buffered r xs) (root : Bool)
    (obj : ℕ) : Buffered (setRootReply root obj r) xs := by
  cases root <;> exact ⟨h.len, h.pos, h.unread⟩

def finish (obj : ℕ) (r : ObjectReader) : Run ObjectReader :=
  moveToNextTask (setRootReply (r.ridx = 0) obj r)

/-- `moveToNextTask` moves to the next item of the machine, by induction on the open
arrays: each that this completes is one turn of the loop. -/
theorem moveToNextTaskFor_complete {r : ObjectReader} {arrays : List (ℕ × OpenArray)}
    {q : Option ℕ} {o : Obj} {F G : Finset ℕ} {n : ℕ} (hn : arrays.length < n)
    (herror : r.error = none) (hridx : r.ridx = arrays.length) (htasks : Tasks r.rstack arrays)
    (htree : Spine r.mem r.reply (wayOf arrays) q F) (ho : Holds r.mem q o G)
    (hFG : Disjoint F G) :
    ∃ rstack ridx, moveToNextTaskFor n r = .ok { r with rstack := rstack, ridx := ridx } ∧
      Represents { r with rstack := rstack, ridx := ridx }
        (complete (arrays.map Prod.snd) o) (F ∪ G) := by
  induction arrays generalizing r q o F G n with
  | nil =>
      obtain ⟨m, rfl⟩ : ∃ m, n = m + 1 := ⟨n - 1, by omega⟩
      obtain ⟨hq, rfl⟩ := htree
      have h0 : r.ridx = 0 := hridx
      refine ⟨r.rstack, r.ridx - 1, ?_, herror, by simp [h0], ?_⟩
      · rw [moveToNextTaskFor, if_neg (by omega), if_pos h0]
        rfl
      · rw [Finset.empty_union]
        exact hq ▸ ho
  | cons x arrays ih =>
      obtain ⟨m, rfl⟩ : ∃ m, n = m + 1 := ⟨n - 1, by omega⟩
      obtain ⟨a, items, rest⟩ := x
      obtain ⟨htype, hobj, helements, hidx, hparent, hbelow⟩ := htasks
      have hpos : r.ridx = arrays.length + 1 := by rw [hridx]; rfl
      have hcur : r.cur = r.rstack (arrays.length + 1) := by
        rw [RedisReader.cur, hpos]
        rfl
      have hprv : r.rstack (r.ridx.toNat - 1) = r.rstack arrays.length := by
        rw [hpos]
        rfl
      rw [moveToNextTaskFor, if_neg (by omega), if_neg (by omega)]
      simp only [hcur, hprv, htype, hidx, helements, ne_eq, not_true_eq_false, if_false]
      cases rest with
      | zero =>
          obtain ⟨F', G', htree', ho', hFG', hunion⟩ := htree.leave ho hFG
          rw [if_pos (by simp)]
          obtain ⟨rstack, ridx, hmove, hrep⟩ := ih (r := r.pop) (n := m)
            (by simp only [List.length_cons] at hn; omega) herror (by simp [RedisReader.pop, hpos])
            hbelow htree' ho' hFG'
          refine ⟨rstack, ridx, hmove, ?_⟩
          rw [hunion] at hrep
          exact hrep
      | succ k =>
          rw [if_neg (by push_cast; omega), if_pos (by push_cast; omega)]
          refine ⟨_, r.ridx, rfl, (a, ⟨items ++ [o], k⟩) :: arrays, rfl, ?_, ?_⟩
          · have htoNat : r.ridx.toNat = arrays.length + 1 := by rw [hpos]; rfl
            refine ⟨herror, hridx, ?_, htree.advance ho hFG⟩
            change Tasks (Function.update r.rstack r.ridx.toNat _) _
            rw [htoNat]
            exact Tasks.advance ⟨htype, hobj, helements, hidx, hparent, hbelow⟩ rfl hparent
          · simp [RedisReader.cur]

theorem moveToNextTask_complete {r : ObjectReader} {arrays : List (ℕ × OpenArray)} {q : Option ℕ}
    {o : Obj} {F G : Finset ℕ} (herror : r.error = none) (hridx : r.ridx = arrays.length)
    (htasks : Tasks r.rstack arrays) (htree : Spine r.mem r.reply (wayOf arrays) q F)
    (ho : Holds r.mem q o G) (hFG : Disjoint F G) :
    ∃ rstack ridx, moveToNextTask r = .ok { r with rstack := rstack, ridx := ridx } ∧
      Represents { r with rstack := rstack, ridx := ridx }
        (complete (arrays.map Prod.snd) o) (F ∪ G) :=
  moveToNextTaskFor_complete (by omega) herror hridx htasks htree ho hFG

section
variable {r : ObjectReader} {arrays : List (ℕ × OpenArray)} {F out : Finset ℕ} {h₀ : ReplyHeap}

theorem Working.created (h : Working r arrays F) (hl : CellLedger h₀ r.mem F out) (val : Content)
    (element : List (Option ℕ)) :
    ∃ mem, createReplyObject r.cur (r.parentOf r.cur) val element r.mem = .ok (r.mem.next, mem) ∧
      CellLedger h₀ mem (insert r.mem.next F) out ∧ r.mem.next ∉ F ∧
      mem.cells r.mem.next = some ⟨val, element⟩ ∧
      Spine mem (setRootReply (r.ridx = 0) r.mem.next r).reply (wayOf arrays) (some r.mem.next)
        F := by
  have hcur : r.cur = r.rstack arrays.length := by rw [RedisReader.cur, h.ridx]; rfl
  have hnew : r.mem.next ∉ F := fun hmem => hl.next_notMem (Finset.mem_union_left _ hmem)
  have hledger := hl.alloc ⟨val, element⟩
  have htree : Spine (r.mem.alloc ⟨val, element⟩) r.reply (wayOf arrays) none F :=
    h.tree.congr fun a ha => Heap.alloc_of_ne (by rintro rfl; exact hnew ha) _
  have htasks := h.tasks
  have hridx := h.ridx
  cases arrays with
  | nil =>
      have hparent : r.parentOf r.cur = none := by
        rw [RedisReader.parentOf, hcur]
        simp only [List.length_nil]
        rw [show (r.rstack 0).parent = none from htasks]
        rfl
      have hroot : (setRootReply (r.ridx = 0) r.mem.next r).reply = some r.mem.next := by
        rw [show r.ridx = 0 from hridx]
        rfl
      exact ⟨_, by rw [hparent]; rfl, hledger, hnew, Heap.alloc_self _ _, hroot, htree.2⟩
  | cons x arrays =>
      obtain ⟨a, l⟩ := x
      obtain ⟨-, hobj, -, hidx, hparent, -⟩ := htasks
      have hroot : (setRootReply (r.ridx = 0) r.mem.next r).reply = r.reply := by
        rw [hridx, decide_eq_false (by simp only [List.length_cons]; omega)]
        rfl
      obtain ⟨ps, hcell, hlen, htree'⟩ := htree.retarget (some r.mem.next)
      have ha : a ∈ F := by
        obtain ⟨_, _, _, _, _, -, -, -, -, -, -, -, rfl⟩ := htree
        exact Finset.mem_insert_self _ _
      have hcall : createReplyObject r.cur (r.parentOf r.cur) val element r.mem =
          .ok (r.mem.next, (r.mem.alloc ⟨val, element⟩).write a
            ⟨.array, ps.set l.items.length (some r.mem.next)⟩) := by
        have htask : r.cur.idx = l.items.length := by rw [hcur]; exact hidx
        have hlen' : l.items.length < ps.length := hlen
        simp only [createReplyObject, setElement, RedisReader.parentOf, hcur, List.length_cons,
          hparent, hidx, Option.map_some, hobj, hcell, ne_eq, not_true_eq_false, if_false,
          Outcome.pure_eq, Int.toNat_natCast]
        rw [if_pos ⟨by omega, by exact_mod_cast hlen'⟩]
        rfl
      refine ⟨_, hcall, hledger.write (Finset.mem_insert_of_mem ha) _, hnew, ?_, ?_⟩
      · rw [Heap.write_of_ne (by rintro rfl; exact hnew ha), Heap.alloc_self]
      · rw [hroot]
        exact htree'

/-- An object without elements is made, and the item left after `n` more bytes. -/
theorem Working.leaf (h : Working r arrays F) (hl : CellLedger h₀ r.mem F out)
    (val : Content) (n : ℕ) :
    ∃ r' G, (create (fun parent mem => createReplyObject r.cur parent val [] mem) r r.cur >>=
        fun x => finish x.1 { x.2 with pos := x.2.pos + n }) = .ok r' ∧
      r'.buf = r.buf ∧ r'.len = r.len ∧ r'.pos = r.pos + n ∧
      Represents r' (complete (arrays.map Prod.snd) (.node val [])) G ∧
      CellLedger h₀ r'.mem G out := by
  obtain ⟨mem, hcall, hledger, hnew, hcell, htree⟩ := h.created hl val []
  have ho : Holds mem (some r.mem.next) (.node val []) {r.mem.next} :=
    holds_node.mpr ⟨_, [], ∅, rfl, hcell, holdsAll_nil.mpr ⟨rfl, rfl⟩, Finset.notMem_empty _, rfl⟩
  have hroot : ∀ mem : ReplyHeap,
      setRootReply (r.ridx = 0) r.mem.next { r with mem := mem, pos := r.pos + n } =
      { r with
        mem := mem, pos := r.pos + n, reply :=
          (setRootReply (r.ridx = 0) r.mem.next r).reply } := by
    intro mem
    cases decide (r.ridx = 0) <;> rfl
  obtain ⟨rstack, ridx, hmove, hrep⟩ := moveToNextTask_complete
    (r := { r with
      mem := mem, pos := r.pos + n, reply := (setRootReply (r.ridx = 0) r.mem.next r).reply })
    h.error h.ridx h.tasks htree ho (Finset.disjoint_singleton_right.mpr hnew)
  refine ⟨{ r with
      mem := mem, pos := r.pos + n, reply := (setRootReply (r.ridx = 0) r.mem.next r).reply,
      rstack := rstack, ridx := ridx }, F ∪ {r.mem.next}, ?_, rfl, rfl, rfl, hrep, ?_⟩
  · simp only [Objects.create, hcall, Outcome.ok_bind, Outcome.pure_eq, finish, hroot, hmove]
  · rw [Finset.union_comm, ← Finset.insert_eq]
    exact hledger

end

theorem moveToNextTask_root {r : ObjectReader} (h : r.ridx = 0) : moveToNextTask r = .ok r.pop := by
  rw [moveToNextTask, h]
  change moveToNextTaskFor 1 r = _
  rw [moveToNextTaskFor, if_neg (by omega), if_pos h]

theorem create_late (call : Option (RedisReadTask ℕ) → ReplyHeap → Run (ℕ × ReplyHeap))
    (r : ObjectReader) (task : RedisReadTask ℕ) :
    (create call r task >>= fun x => moveToNextTask x.2 >>= fun r' =>
        Outcome.ok (true, setRootReply (r.ridx = 0) x.1 r')) =
      (create call r task >>= fun x => finish x.1 x.2 >>= fun r' => Outcome.ok (true, r')) := by
  unfold create finish
  cases call (r.parentOf task) r.mem with
  | fault e => rfl
  | blocked => rfl
  | ok x =>
      simp only [Outcome.ok_bind, Outcome.pure_eq]
      by_cases h : r.ridx = 0
      · rw [decide_eq_true h, moveToNextTask_root (r := { r with mem := x.2 }) h,
          moveToNextTask_root (r := setRootReply true x.1 { r with mem := x.2 }) h]
        rfl
      · rw [decide_eq_false h]
        rfl

theorem Buffered.seek {r : ObjectReader} {xs : Bytes} (h : Buffered r xs) :
    seekNewline r.unread (r.len - r.pos) = findCRLF xs := by
  rw [h.unread, h.length, seekNewline_eq]

section
variable {r : ObjectReader} {arrays : List (ℕ × OpenArray)} {F out : Finset ℕ} {h₀ : ReplyHeap}
variable {xs ys : Bytes} {st : State} {t : ReplyType}

/-- The reader is in the state `st`, in front of the bytes `ys`. -/
def InFront (h₀ : ReplyHeap) (out : Finset ℕ) (st : State) (ys : Bytes)
    (x : Run (Bool × ObjectReader)) : Prop :=
  ∃ r' G, x = .ok (true, r') ∧ Represents r' st G ∧ Buffered r' ys ∧ CellLedger h₀ r'.mem G out

/-- An object without elements is made out of the next `m` bytes, of which the reader
skips the first `k` before and the others after. -/
theorem Working.leafItem (h : Working r arrays F) (hl : CellLedger h₀ r.mem F out)
    (hb : Buffered r xs) (val : Content) {m k : ℕ} (hk : k ≤ m) (hm : m ≤ xs.length) :
    InFront h₀ out (complete (arrays.map Prod.snd) (.node val [])) (xs.drop m)
      (create (fun parent mem => createReplyObject r.cur parent val [] mem)
          { r with pos := r.pos + k } r.cur >>= fun x =>
        finish x.1 { x.2 with pos := x.2.pos + (m - k) } >>= fun r' => Outcome.ok (true, r')) := by
  have hwork : Working { r with pos := r.pos + k } arrays F := ⟨h.error, h.ridx, h.tasks, h.tree⟩
  obtain ⟨r', G, hrun, hbuf, hlen, hpos, hrep, hledger⟩ := hwork.leaf hl val (m - k)
  have hskip := hb.skip hm
  have hpos' : r'.pos = r.pos + m := by rw [hpos]; change r.pos + k + (m - k) = _; omega
  refine ⟨r', G, ?_, hrep, ⟨?_, ?_, ?_⟩, hledger⟩
  · rw [← bind_assoc]
    exact congrArg (· >>= fun r' => Outcome.ok (true, r')) hrun
  · rw [hlen, hbuf]
    exact hskip.len
  · rw [hlen, hpos']
    exact hskip.pos
  · rw [RedisReader.unread, hbuf, hpos']
    exact hskip.unread

theorem Working.wholeArray (h : Working r arrays F) (hl : CellLedger h₀ r.mem F out)
    (hb : Buffered r xs) (val : Content) {m : ℕ} (hm : m ≤ xs.length) :
    InFront h₀ out (complete (arrays.map Prod.snd) (.node val [])) (xs.drop m)
      (create (fun parent mem => createReplyObject r.cur parent val [] mem)
          { r with pos := r.pos + m } r.cur >>= fun x =>
        moveToNextTask x.2 >>= fun r' => Outcome.ok (true, setRootReply (r.ridx = 0) x.1 r')) := by
  have hmade := h.leafItem hl hb val (le_refl m) hm
  rw [Nat.sub_self] at hmade
  have hlate := create_late (fun parent mem => createReplyObject r.cur parent val [] mem)
    { r with pos := r.pos + m } r.cur
  exact hlate ▸ hmade

theorem createStringObject_eq {task : RedisReadTask ℕ} (htype : task.type = some t)
    (ht : t = .error ∨ t = .status ∨ t = .string) (str : Bytes) (len : ℕ) :
    (fun parent => createStringObject task parent str len) =
      fun parent => createReplyObject task parent (.text t (str.take len)) [] := by
  funext parent h
  rw [createStringObject, htype]
  rcases ht with rfl | rfl | rfl <;> rfl

theorem Working.line (h : Working r arrays F) (hl : CellLedger h₀ r.mem F out) (hb : Buffered r xs)
    (htype : r.cur.type = some t) (ht : t = .error ∨ t = .status ∨ t = .integer)
    (hstep : typedStep (arrays.map Prod.snd) t xs = some (st, ys)) :
    InFront h₀ out st ys (processLineItem defaultFunctions r) := by
  cases hline : findCRLF xs with
  | none =>
      simp only [typedStep, hline] at hstep
      cases hstep
  | some i =>
      have hle := findCRLF_le hline
      have hread : readLine r = some ((xs, i), { r with pos := r.pos + (i + 2) }) := by
        rw [readLine, hb.seek, hline, hb.unread]
      have hmade := fun val => h.leafItem hl hb val (le_refl (i + 2)) hle
      rw [Nat.sub_self] at hmade
      unfold processLineItem
      simp only [typedStep, hline] at hstep
      have hstring := createStringObject_eq htype
      rcases ht with rfl | rfl | rfl
      · cases hstep
        simp only [hread, htype, defaultFunctions, hstring (.inl rfl), Option.some.injEq,
          reduceCtorEq, if_false]
        exact hmade (.text .error (xs.take i))
      · cases hstep
        simp only [hread, htype, defaultFunctions, hstring (.inr (.inl rfl)), Option.some.injEq,
          reduceCtorEq, if_false]
        exact hmade (.text .status (xs.take i))
      · cases hstep
        simp only [hread, htype, if_true]
        exact hmade (.integer (readLongLong xs))

theorem Working.bulk (h : Working r arrays F) (hl : CellLedger h₀ r.mem F out) (hb : Buffered r xs)
    (htype : r.cur.type = some .string)
    (hstep : typedStep (arrays.map Prod.snd) .string xs = some (st, ys)) :
    InFront h₀ out st ys (processBulkItem defaultFunctions r) := by
  cases hline : findCRLF xs with
  | none =>
      simp only [typedStep, hline] at hstep
      cases hstep
  | some i =>
      have hle := findCRLF_le hline
      have hseek := hb.seek
      rw [hb.unread, hline] at hseek
      unfold processBulkItem
      simp only [typedStep, hline] at hstep
      simp only [hb.unread, hseek]
      split_ifs at hstep with hneg hwhole
      · cases hstep
        rw [if_pos hneg]
        exact h.leafItem hl hb .nil (Nat.zero_le _) hle
      · cases hstep
        have hlen := hb.length
        have hpos := hb.pos
        rw [if_neg hneg, if_pos (by omega)]
        simp only [defaultFunctions, createStringObject_eq htype (.inr (.inr rfl))]
        exact h.leafItem hl hb (.text .string _) (Nat.zero_le _) hwhole

theorem Working.opened (h : Working r arrays F) (hl : CellLedger h₀ r.mem F out) {n : ℤ}
    (hpos : 0 < n) (htype : r.cur.type = some .array) :
    ∃ mem, createReplyObject r.cur (r.parentOf r.cur) .array (List.replicate n.toNat none) r.mem =
        .ok (r.mem.next, mem) ∧ CellLedger h₀ mem (insert r.mem.next F) out ∧
      Represents (setRootReply (r.ridx = 0) r.mem.next (pushTask ({ r with mem := mem }.setCur
          { r.cur with elements := n, obj := some r.mem.next })))
        (.item (⟨[], n.toNat - 1⟩ :: arrays.map Prod.snd) none) (insert r.mem.next F) := by
  obtain ⟨mem, hcall, hledger, hnew, hcell, htree⟩ :=
    h.created hl .array (List.replicate n.toNat none)
  have hridx : r.ridx.toNat = arrays.length := by rw [h.ridx]; rfl
  have hcur : r.cur = r.rstack arrays.length := by rw [RedisReader.cur, hridx]
  have hsucc : (r.ridx + 1).toNat = arrays.length + 1 := by rw [h.ridx]; rfl
  have hkept : ∀ (root : Bool) (s : ObjectReader),
      (setRootReply root r.mem.next s).error = s.error ∧
      (setRootReply root r.mem.next s).ridx = s.ridx ∧
      (setRootReply root r.mem.next s).rstack = s.rstack ∧
      (setRootReply root r.mem.next s).mem = s.mem := by
    intro root s
    cases root <;> exact ⟨rfl, rfl, rfl, rfl⟩
  refine ⟨mem, hcall, hledger, (r.mem.next, ⟨[], n.toNat - 1⟩) :: arrays, rfl, ?_, ?_⟩
  · refine ⟨?_, ?_, ?_, ?_⟩
    · rw [(hkept _ _).1]
      exact h.error
    · rw [(hkept _ _).2.1]
      simp [pushTask, RedisReader.setCur, h.ridx]
    · rw [(hkept _ _).2.2.1]
      simp only [pushTask, RedisReader.setCur, hsucc, hridx]
      refine ⟨?_, ?_, ?_, ?_, ?_, h.tasks.congr (fun j hj => ?_) ?_ ?_⟩
      · rw [Function.update_of_ne (by omega), Function.update_self, htype]
      · rw [Function.update_of_ne (by omega), Function.update_self]
      · rw [Function.update_of_ne (by omega), Function.update_self]
        simp only [List.length_nil]
        omega
      · rw [Function.update_self]
        rfl
      · rw [Function.update_self]
      · rw [Function.update_of_ne (by omega), Function.update_of_ne (by omega)]
      · rw [Function.update_of_ne (by omega), Function.update_self, hcur]
      · rw [Function.update_of_ne (by omega), Function.update_self, hcur]
    · have hreply : (setRootReply (r.ridx = 0) r.mem.next (pushTask ({ r with mem := mem }.setCur
          { r.cur with elements := n, obj := some r.mem.next }))).reply =
          (setRootReply (r.ridx = 0) r.mem.next r).reply := by
        cases decide (r.ridx = 0) <;> rfl
      rw [hreply, (hkept _ _).2.2.2]
      refine htree.enter ?_ hnew
      rw [Nat.sub_add_cancel (by omega)]
      exact hcell
  · rw [RedisReader.cur, (hkept _ _).2.1, (hkept _ _).2.2.1]
    simp [pushTask, RedisReader.setCur]

theorem Working.array (h : Working r arrays F) (hl : CellLedger h₀ r.mem F out) (hb : Buffered r xs)
    (htype : r.cur.type = some .array) (hroom : arrays.length ≠ 2)
    (hstep : typedStep (arrays.map Prod.snd) .array xs = some (st, ys)) (hst : st ≠ .overflow) :
    InFront h₀ out st ys (processMultiBulkItem defaultFunctions r) := by
  cases hline : findCRLF xs with
  | none =>
      simp only [typedStep, hline] at hstep
      cases hstep
  | some i =>
      have hle := findCRLF_le hline
      have hread : readLine r = some ((xs, i), { r with pos := r.pos + (i + 2) }) := by
        rw [readLine, hb.seek, hline, hb.unread]
      have hridx : r.ridx ≠ 2 := by rw [h.ridx]; exact_mod_cast hroom
      unfold processMultiBulkItem
      simp only [typedStep, hline] at hstep
      rw [if_neg hridx]
      simp only [hread, defaultFunctions]
      cases hstep
      unfold openArray at hst ⊢
      by_cases h₁ : readLongLong xs = -1
      · rw [if_pos h₁, if_pos h₁]
        exact h.wholeArray hl hb .nil hle
      · rw [if_neg h₁] at hst
        rw [if_neg h₁, if_neg h₁]
        by_cases h₂ : readLongLong xs = 0
        · rw [if_pos h₂, h₂]
          exact h.wholeArray hl hb .array hle
        · rw [if_neg h₂] at hst
          have h₃ : 0 < readLongLong xs ∧ readLongLong xs < 2 ^ 31 := by
            by_contra h₃
            exact hst (if_neg h₃)
          have hwrap : wrap 32 (readLongLong xs) = readLongLong xs :=
            @wrap_of_range 31 _ (by omega) (by omega)
          have hwork : Working { r with pos := r.pos + (i + 2) } arrays F :=
            ⟨h.error, h.ridx, h.tasks, h.tree⟩
          obtain ⟨mem, hcall, hledger, hrep⟩ := hwork.opened hl h₃.1 htype
          have hmem : ∀ (root : Bool) (o : ℕ) (s : ObjectReader),
              (setRootReply root o s).mem = s.mem := by
            intro root o s
            cases root <;> rfl
          have hskip := hb.skip hle
          rw [if_neg h₂, if_pos h₃]
          refine ⟨_, _, ?_, hrep, ?_, ?_⟩
          · have hcreate : createArrayObject r.cur
              (RedisReader.parentOf { r with pos := r.pos + (i + 2) } r.cur)
                (readLongLong xs) r.mem = .ok (r.mem.next, mem) := by
              rw [createArrayObject, if_neg (by omega)]
              exact hcall
            simp only [create, hwrap, hcreate, Outcome.ok_bind, Outcome.pure_eq, if_pos h₃.1]
            rfl
          · apply Buffered.setRootReply
            exact ⟨hskip.len, hskip.pos, hskip.unread⟩
          · rw [hmem]
            exact hledger

/-- The reader takes a step of the machine in an item of known type. -/
theorem Working.typed (h : Working r arrays F) (hl : CellLedger h₀ r.mem F out) (hb : Buffered r xs)
    (htype : r.cur.type = some t) (hroom : t = .array → arrays.length ≠ 2)
    (hstep : typedStep (arrays.map Prod.snd) t xs = some (st, ys)) (hst : st ≠ .overflow) :
    InFront h₀ out st ys (processTyped defaultFunctions r) := by
  unfold processTyped
  cases t with
  | error =>
      rw [htype]
      exact h.line hl hb htype (.inl rfl) hstep
  | status =>
      rw [htype]
      exact h.line hl hb htype (.inr (.inl rfl)) hstep
  | integer =>
      rw [htype]
      exact h.line hl hb htype (.inr (.inr rfl)) hstep
  | string =>
      rw [htype]
      exact h.bulk hl hb htype hstep
  | array =>
      rw [htype]
      exact h.array hl hb htype (hroom rfl) hstep hst
  | nil =>
      simp only [typedStep] at hstep
      cases hline : findCRLF xs <;> rw [hline] at hstep <;> cases hstep

theorem Working.typed_waits (h : Working r arrays F) (hb : Buffered r xs)
    (htype : r.cur.type = some t) (hnil : t ≠ .nil) (hroom : t = .array → arrays.length ≠ 2)
    (hstep : typedStep (arrays.map Prod.snd) t xs = none) :
    processTyped defaultFunctions r = .ok (false, r) := by
  have hread : findCRLF xs = none → readLine r = none := by
    intro hline
    rw [readLine, hb.seek, hline]
  have hbulk := hb.seek
  unfold processTyped
  cases hline : findCRLF xs with
  | none =>
      rw [hline] at hbulk
      cases t with
      | error | status | integer =>
          simp only [htype, processLineItem, hread hline]
          rfl
      | string =>
          simp only [htype, processBulkItem, hbulk]
          rfl
      | array =>
          have hridx : r.ridx ≠ 2 := by rw [h.ridx]; exact_mod_cast hroom rfl
          simp only [htype, processMultiBulkItem, if_neg hridx, hread hline]
          rfl
      | nil => exact absurd rfl hnil
  | some i =>
      simp only [typedStep, hline] at hstep
      cases t with
      | error | status | integer | array => cases hstep
      | string =>
          simp only [] at hstep
          split_ifs at hstep with hneg hwhole
          rw [hline, hb.unread] at hbulk
          have hlen := hb.length
          have hpos := hb.pos
          simp only [htype, processBulkItem, hb.unread, hbulk, if_neg hneg]
          rw [if_neg (by omega)]
          rfl
      | nil => exact absurd rfl hnil

end

theorem shaped_plug {arrays : List (ℕ × OpenArray)} {o : Obj}
    (hitems : ∀ l ∈ arrays.map Prod.snd, ∀ o ∈ l.items, Shaped o) (ho : Shaped o) :
    Shaped (plug (wayOf arrays) o) := by
  induction arrays generalizing o with
  | nil => exact ho
  | cons x arrays ih =>
      obtain ⟨a, l⟩ := x
      rw [List.map_cons, List.forall_mem_cons] at hitems
      refine ih hitems.2 (shaped_array.mpr fun t ht => ?_)
      rcases List.mem_append.mp ht with ht | ht
      · exact hitems.1 t ht
      · rcases List.mem_cons.mp ht with rfl | ht
        · exact ho
        · rw [List.eq_of_mem_replicate ht]
          exact shaped_null

section
variable {r : ObjectReader} {arrays : List (ℕ × OpenArray)} {F out : Finset ℕ} {h₀ : ReplyHeap}
variable {xs ys : Bytes} {st : State} {t : ReplyType}

theorem Working.readerFree (h : Working r arrays F) (hl : CellLedger h₀ r.mem F out)
    (hitems : ∀ l ∈ arrays.map Prod.snd, ∀ o ∈ l.items, Shaped o) :
    ∃ mem, redisReplyReaderFree defaultFunctions r = .ok mem ∧ CellLedger h₀ mem ∅ out := by
  unfold redisReplyReaderFree
  have htree := h.tree
  cases hreply : r.reply with
  | none =>
      rw [hreply] at htree
      have hF : F = ∅ := by
        cases arrays with
        | nil => exact htree.2
        | cons x arrays =>
            obtain ⟨_, _, _, _, _, -, -, -, hroot, -⟩ := htree
            exact hroot.root_ne_none.elim
      exact ⟨r.mem, rfl, hF ▸ hl⟩
  | some obj =>
      have hwhole := htree.plug (t := .null) (G := ∅) (holds_null.mpr ⟨rfl, rfl⟩)
        (Finset.disjoint_empty_right F)
      rw [hreply, Finset.union_empty] at hwhole
      obtain ⟨mem, hfree, hfreed⟩ :=
        freeReplyObject_holds hl.fresh (shaped_plug hitems shaped_null) hwhole
      exact ⟨mem, hfree, hl.freed hfreed⟩

theorem Working.fails (h : Working r arrays F) (hl : CellLedger h₀ r.mem F out)
    (hitems : ∀ l ∈ arrays.map Prod.snd, ∀ o ∈ l.items, Shaped o) (err : Bytes) :
    ∃ r', redisSetReplyReaderError defaultFunctions r err = .ok r' ∧
      Represents r' (.failed err) ∅ ∧ CellLedger h₀ r'.mem ∅ out := by
  obtain ⟨mem, hfree, hledger⟩ := h.readerFree hl hitems
  refine ⟨{ r with mem := mem, buf := [], pos := 0, ridx := -1, error := some err }, ?_,
    ⟨rfl, rfl, rfl⟩, hledger⟩
  have herr : redisSetReplyReaderError defaultFunctions r err =
      (redisReplyReaderFree defaultFunctions r >>= fun mem =>
        Outcome.ok { r with mem := mem, buf := [], pos := 0, ridx := -1, error := some err }) := by
    unfold redisSetReplyReaderError redisReplyReaderFree
    cases r.reply <;> rfl
  rw [herr, hfree, Outcome.ok_bind]

/-- The reader has come where the machine has, and in front of the same bytes unless
it met an error. -/
def Settles (h₀ : ReplyHeap) (out : Finset ℕ) (p : State × Bytes) (x : Run ObjectReader) : Prop :=
  ∃ r' G, x = .ok r' ∧ Represents r' p.1 G ∧ ((∀ err, p.1 ≠ .failed err) → Buffered r' p.2) ∧
    CellLedger h₀ r'.mem G out

def afterItem (n : ℕ) (x : Bool × ObjectReader) : Run ObjectReader :=
  if x.1 then processItems defaultFunctions n x.2 else .ok x.2

theorem processItems_succ (n : ℕ) (h : ¬r.ridx < 0) :
    processItems defaultFunctions (n + 1) r =
      (processItem defaultFunctions r >>= afterItem n) := by
  rw [processItems, if_neg h]
  rfl

/-- `n` turns of the loop are enough for less than `n` bytes. -/
def LoopSettles (n : ℕ) : Prop :=
  ∀ {r : ObjectReader} {arrays : List (ℕ × OpenArray)} {F out : Finset ℕ} {h₀ : ReplyHeap}
    {xs : Bytes},
    Working r arrays F → CellLedger h₀ r.mem F out → Buffered r xs →
    Valid (.item (arrays.map Prod.snd) r.cur.type) → xs.length < n →
    (drain step (.item (arrays.map Prod.snd) r.cur.type) xs).1 ≠ .overflow →
    Settles h₀ out (drain step (.item (arrays.map Prod.snd) r.cur.type) xs)
      (processItems defaultFunctions n r)

theorem Working.settles_typed {n : ℕ} (hloop : LoopSettles n) (h : Working r arrays F)
    (hl : CellLedger h₀ r.mem F out) (hb : Buffered r xs) (htype : r.cur.type = some t)
    (hvalid : Valid (.item (arrays.map Prod.snd) (some t))) (hn : xs.length ≤ n)
    (hover : (drain step (.item (arrays.map Prod.snd) (some t)) xs).1 ≠ .overflow) :
    Settles h₀ out (drain step (.item (arrays.map Prod.snd) (some t)) xs)
      (processTyped defaultFunctions r >>= afterItem n) := by
  have hroom : t = .array → arrays.length ≠ 2 := by
    intro ht
    simpa using hvalid.2.2.1 (congrArg some ht)
  have hnil : t ≠ .nil := fun ht => hvalid.2.1 (congrArg some ht)
  cases hstep : typedStep (arrays.map Prod.snd) t xs with
  | none =>
      have hstop : step (.item (arrays.map Prod.snd) (some t)) xs = none := hstep
      rw [h.typed_waits hb htype hnil hroom hstep, drain_stop hstop]
      exact ⟨r, F, rfl, ⟨arrays, rfl, h, htype⟩, fun _ => hb, hl⟩
  | some p =>
      obtain ⟨st, ys⟩ := p
      have hnext : step (.item (arrays.map Prod.snd) (some t)) xs = some (st, ys) := hstep
      have htakes := (typedStep_takes hstep).2
      rw [drain_step step_local hnext] at hover ⊢
      have hst : st ≠ .overflow := by
        rintro rfl
        rw [drain_overflow] at hover
        exact hover rfl
      obtain ⟨r', G, hrun, hrep, hb', hl'⟩ := h.typed hl hb htype hroom hstep hst
      have hvalid' := valid_typedStep hvalid hstep
      rw [hrun, Outcome.ok_bind, afterItem, if_pos rfl]
      cases st with
      | item stack type =>
          obtain ⟨arrays', rfl, hwork, rfl⟩ := hrep
          exact hloop hwork hl' hb' hvalid' (by omega) hover
      | done o =>
          rw [drain_done]
          refine ⟨r', G, ?_, hrep, fun _ => hb', hl'⟩
          cases n with
          | zero => rfl
          | succ n => rw [processItems, if_pos (by rw [hrep.2.1]; decide)]
      | failed err =>
          rw [drain_failed]
          refine ⟨r', G, ?_, hrep, fun hne => absurd rfl (hne err), hl'⟩
          cases n with
          | zero => rfl
          | succ n => rw [processItems, if_pos (by rw [hrep.2.1]; decide)]
      | overflow => exact absurd rfl hst

theorem setCur_type (r : ObjectReader) (t : ReplyType) :
    (r.setCur { r.cur with type := some t }).cur = { r.cur with type := some t } := by
  simp [RedisReader.cur, RedisReader.setCur]

theorem Working.setType (h : Working r arrays F) (t : ReplyType) :
    Working (r.setCur { r.cur with type := some t }) arrays F := by
  have hridx : r.ridx.toNat = arrays.length := by rw [h.ridx]; rfl
  refine ⟨h.error, h.ridx, h.tasks.congr (fun j hj => ?_) ?_ ?_, h.tree⟩
  · exact Function.update_of_ne (by omega) _ _
  · simp [RedisReader.setCur, RedisReader.cur, hridx]
  · simp [RedisReader.setCur, RedisReader.cur, hridx]

theorem processItem_typeByte (hb : Buffered r xs) (htype : r.cur.type = none) {b : UInt8}
    (hxs : xs = b :: ys) :
    processItem defaultFunctions r =
      match replyTypeOf b with
      | some t => processTyped defaultFunctions
          ({ r with pos := r.pos + 1 }.setCur { r.cur with type := some t })
      | none => redisSetReplyReaderError defaultFunctions { r with pos := r.pos + 1 }
          (typeByteError b) >>= fun r => Outcome.ok (false, r) := by
  have hlen := hb.length
  have hread : readBytes r 1 = some (xs, { r with pos := r.pos + 1 }) := by
    rw [readBytes, if_pos (by rw [hlen, hxs, List.length_cons]; omega), hb.unread]
  have hbyte : xs.getD 0 0 = b := by rw [hxs]; rfl
  rw [processItem, htype]
  simp only [hread, hbyte]
  cases replyTypeOf b <;> rfl

/-- The reader refuses an array that is too deep right after its type byte, in the same call. -/
theorem processTyped_deep (htype : r.cur.type = some .array) (hridx : r.ridx = 2) :
    processTyped defaultFunctions r =
      (redisSetReplyReaderError defaultFunctions r depthError >>= fun r =>
        Outcome.ok (false, r)) := by
  rw [processTyped, htype]
  simp only [processMultiBulkItem]
  rw [if_pos hridx]
  rfl

/-- The loop runs as far as the machine, by induction on its turns. -/
theorem loop_settles (n : ℕ) : LoopSettles n := by
  induction n with
  | zero =>
      intro r arrays F out h₀ xs _ _ _ _ hn
      exact absurd hn (Nat.not_lt_zero _)
  | succ n ih =>
      intro r arrays F out h₀ xs h hl hb hvalid hn hover
      rw [processItems_succ n (by rw [h.ridx]; omega)]
      cases htype : r.cur.type with
      | some t =>
          rw [htype] at hvalid hover
          have hitem : processItem defaultFunctions r = processTyped defaultFunctions r := by
            rw [processItem, htype]
          rw [hitem]
          exact h.settles_typed ih hl hb htype hvalid (by omega) hover
      | none =>
          rw [htype] at hvalid hover
          cases xs with
          | nil =>
              have hread : readBytes r 1 = none := by
                have hlen := hb.length
                rw [readBytes, if_neg (by rw [hlen]; simp)]
              have hitem : processItem defaultFunctions r = .ok (false, r) := by
                rw [processItem, htype]
                simp only [hread]
                rfl
              have hstop : step (.item (arrays.map Prod.snd) none) [] = none := rfl
              rw [hitem, drain_stop hstop]
              exact ⟨r, F, rfl, ⟨arrays, rfl, h, htype⟩, fun _ => hb, hl⟩
          | cons b ys =>
              have hskip : Buffered { r with pos := r.pos + 1 } ys := hb.skip (by simp)
              have hwork : Working { r with pos := r.pos + 1 } arrays F :=
                ⟨h.error, h.ridx, h.tasks, h.tree⟩
              have hnext : step (.item (arrays.map Prod.snd) none) (b :: ys) =
                  some (typeStep (arrays.map Prod.snd) b, ys) := rfl
              have hvalid' := hvalid.typeStep b
              rw [drain_step step_local hnext] at hover ⊢
              rw [processItem_typeByte hb htype rfl]
              cases hbyte : replyTypeOf b with
              | none =>
                  obtain ⟨r', herr, hrep, hl'⟩ := hwork.fails hl hvalid.2.2.2 (typeByteError b)
                  simp only [typeStep, hbyte, drain_failed, herr, Outcome.ok_bind]
                  exact ⟨r', ∅, rfl, hrep, fun hne => absurd rfl (hne _), hl'⟩
              | some t =>
                  simp only [typeStep, hbyte, List.length_map] at hvalid' hover ⊢
                  have hset := hwork.setType t
                  by_cases hdeep : t = .array ∧ arrays.length = 2
                  · obtain ⟨r', herr, hrep, hl'⟩ := hset.fails hl hvalid.2.2.2 depthError
                    have hridx : r.ridx = 2 := by rw [h.ridx, hdeep.2]; rfl
                    have htop := congrArg RedisReadTask.type
                      (setCur_type { r with pos := r.pos + 1 } t)
                    have htyped := processTyped_deep (htop.trans (congrArg some hdeep.1)) hridx
                    rw [if_pos hdeep, drain_failed]
                    refine ⟨r', ∅, ?_, hrep, fun hne => absurd rfl (hne _), hl'⟩
                    rw [herr] at htyped
                    exact congrArg (· >>= afterItem n) htyped
                  · rw [if_neg hdeep] at hvalid' hover ⊢
                    have hcur := congrArg RedisReadTask.type
                      (setCur_type { r with pos := r.pos + 1 } t)
                    exact hset.settles_typed ih hl ⟨hskip.len, hskip.pos, hskip.unread⟩ hcur hvalid'
                      (by simp only [List.length_cons] at hn; omega) hover

end

end PhpHiredis.Objects
