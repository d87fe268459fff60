import PhpHiredis.Hooks
import PhpHiredis.Library.Reached

/-!
# The hooks are safe on any bytes

While a reply is read every task below the top of the stack is an array that a
hook created for this reply, and the zvals hung on it so far are its elements up
to the index of the task above it. `Building` says so, of the stack and the memory
together. No byte can break it: an item is put at the next index of the innermost
array, or it opens an array there; and an error empties the stack.
-/
namespace PhpHiredis

open Library

def Zval.find : List ℤ → Zval → Option Zval
  | [], z => some z
  | i :: p, .array es => (OrderedMap.lookup (.index i) es).bind (Zval.find p)
  | _ :: _, _ => none

def Mem.find (m : Mem) (l : Loc) : Option Zval := (m l.var).bind (Zval.find l.path)

theorem Zval.find_append (p q : List ℤ) (z : Zval) :
    z.find (p ++ q) = (z.find p).bind (Zval.find q) := by
  induction p generalizing z with
  | nil => rfl
  | cons i p ih =>
      cases z with
      | array es =>
          simp only [List.cons_append, Zval.find, Option.bind_assoc]
          exact congrArg _ (funext ih)
      | _ => rfl

theorem Mem.find_child (m : Mem) (l : Loc) (i : ℤ) :
    m.find (l.child i) = (m.find l).bind (Zval.find [i]) := by
  have happend : Zval.find (l.child i).path = fun z => (z.find l.path).bind (Zval.find [i]) :=
    funext (Zval.find_append l.path [i])
  rw [Mem.find, Mem.find, happend, Option.bind_assoc]
  rfl

theorem find_listTable_last (vs : List Zval) (w : Zval) :
    Zval.find [(vs.length : ℤ)] (.array (listTable (vs ++ [w]))) = some w := by
  rw [← insert_listTable, Zval.find, OrderedMap.lookup_insert_self]
  rfl

namespace Reader

/-- A value can be put where the task of level `k` wants it: in the variable at the
root, or at the next index of an array that was made before and has elements to
come. The memory is `m` now, and will be that of the value under the last function. -/
inductive Under (st : ℕ → RedisReadTask) (made : List Loc) :
    ℕ → Mem → Target → (Zval → Mem) → Prop
  | root {m : Mem} {x : ℕ} {z : Zval} (parent : (st 0).parent = none)
      (privdata : (st 0).privdata = some x) (var : m x = some z) :
      Under st made 0 m (.root x) (m.set x)
  | element {k : ℕ} {m : Mem} {t : Target} {f : Zval → Mem} {vs : List Zval}
      (below : Under st made k m t f) (array : t.loc ∈ made) (type : (st k).type = some .array)
      (obj : (st k).obj = some t.loc) (parent : (st (k + 1)).parent = some k)
      (idx : (st (k + 1)).idx = vs.length) (more : (vs.length : ℤ) < (st k).elements) :
      Under st made (k + 1) (f (.array (listTable vs))) (.element t.loc vs.length)
        (fun w => f (.array (listTable (vs ++ [w]))))

namespace Under
variable {st st' : ℕ → RedisReadTask} {made made' : List Loc} {k : ℕ} {m : Mem} {t : Target}
  {f : Zval → Mem}

theorem isOpen (h : Under st made k m t f) : Open m t f := by
  induction h with
  | root _ _ var => exact open_root var
  | element _ _ _ _ _ _ _ ih => exact ih.grow _

theorem find (h : Under st made k m t f) (v : Zval) : (f v).find t.loc = some v := by
  induction h generalizing v with
  | @root m x z _ _ _ =>
      rw [Mem.find, Target.loc, set_self]
      rfl
  | element _ _ _ _ _ _ _ ih =>
      rw [Target.loc, Mem.find_child, ih]
      exact find_listTable_last _ v

theorem mono (h : Under st made k m t f) (hmade : ∀ l ∈ made, l ∈ made') :
    Under st made' k m t f := by
  induction h with
  | root parent privdata var => exact .root parent privdata var
  | element _ array type obj parent idx more ih =>
      exact .element ih (hmade _ array) type obj parent idx more

theorem congr (h : Under st made k m t f) (hbelow : ∀ j < k, st' j = st j)
    (hparent : (st' k).parent = (st k).parent) (hidx : (st' k).idx = (st k).idx)
    (hpriv : (st' k).privdata = (st k).privdata) : Under st' made k m t f := by
  induction h with
  | root parent privdata var => exact .root (hparent.trans parent) (hpriv.trans privdata) var
  | @element k m t f vs _ array type obj parent idx more ih =>
      have hk : st' k = st k := hbelow k (Nat.lt_succ_self k)
      have hunder := ih (fun j hj => hbelow j (Nat.lt_succ_of_lt hj)) (by rw [hk]) (by rw [hk])
        (by rw [hk])
      refine .element hunder array ?_ ?_ (hparent.trans parent) (hidx.trans idx) ?_
      · rw [hk]
        exact type
      · rw [hk]
        exact obj
      · rw [hk]
        exact more

theorem frame (h : Under st made k m t f) (hbelow : ∀ j ≤ k, st' j = st j) :
    Under st' made k m t f :=
  h.congr (fun j hj => hbelow j (Nat.le_of_lt hj)) (by rw [hbelow k le_rfl])
    (by rw [hbelow k le_rfl]) (by rw [hbelow k le_rfl])

/-- Only the variable at the root matters: the other variables may have any content. -/
theorem elsewhere {x : ℕ} (h : Under st made k m t f) (hx : t.loc.var = x) (m' : Mem) :
    Under st made k (Function.update m' x (m x)) t (fun w => Function.update m' x (f w x)) := by
  induction h with
  | @root m y z parent privdata var =>
      obtain rfl : y = x := hx
      have hset : (fun w => Function.update m' y (m.set y w y)) =
          Mem.set (Function.update m' y (m y)) y := by
        funext w
        rw [set_self]
        exact (Function.update_idem ..).symm
      rw [hset]
      exact .root parent privdata ((Function.update_self ..).trans var)
  | element _ array type obj parent idx more ih =>
      exact .element (ih hx) array type obj parent idx more

end Under

/-- The object a task puts in place, and where: of the hook only what it fills in
matters. -/
theorem Under.parentize {s : RedisReader} {made : List Loc} {k : ℕ} {t : Target} {f : Zval → Mem}
    (h : Under s.rstack made k s.mem t f) (hk : s.ridx = k) (fill : Zval → Zval) :
    ∃ z, tryParentize s s.cur fill = .ok (t.loc, { s with mem := f (fill z) }) := by
  have hcur : s.cur = s.rstack k := by rw [RedisReader.cur, hk, Int.toNat_natCast]
  generalize hm : s.mem = m at h
  cases h with
  | @root m x z parent privdata var =>
      refine ⟨z, ?_⟩
      rw [tryParentize, hcur, parent]
      simp only [privdata, hm, var]
      rfl
  | @element k m t f vs below array type obj parent idx more =>
      refine ⟨.undef, ?_⟩
      have hadd := below.isOpen.grow vs (fill .undef)
      simp only [place] at hadd
      rw [tryParentize, hcur, parent]
      simp only [obj, idx, hm, hadd]
      rfl

/-- The task on top of the stack has level `k`. It is that of a whole reply, or it
wants an element of an array that was made for this reply. -/
structure Busy (made : List Loc) (s : RedisReader) (k : ℕ) : Prop where
  ridx : s.ridx = k
  depth : k ≤ 2
  type : s.cur.type ≠ some .nil
  root : k = 0 → s.cur.parent = none
  inside : 0 < k → ∃ t f, Under s.rstack made k s.mem t f ∧ s.reply.map Loc.var = some t.loc.var

/-- A reader between two items; `made` are the arrays made for this reply. -/
def Building (made : List Loc) (s : RedisReader) : Prop := s.ridx = -1 ∨ ∃ k, Busy made s k

theorem Busy.cur {made : List Loc} {s : RedisReader} {k : ℕ} (h : Busy made s k) :
    s.cur = s.rstack k := by
  rw [RedisReader.cur, h.ridx, Int.toNat_natCast]

/-- The buffer, the error and the private data for the next reply are of no account. -/
theorem Building.congr {made : List Loc} {s s' : RedisReader} (h : Building made s)
    (hi : s'.ridx = s.ridx) (hstack : s'.rstack = s.rstack) (hm : s'.mem = s.mem)
    (hreply : s'.reply = s.reply) : Building made s' := by
  have hcur : s'.cur = s.cur := by rw [RedisReader.cur, RedisReader.cur, hi, hstack]
  rcases h with h | ⟨k, h⟩
  · exact Or.inl (hi.trans h)
  · refine Or.inr ⟨k, hi.trans h.ridx, h.depth, ?_, ?_, ?_⟩
    · rw [hcur]
      exact h.type
    · rw [hcur]
      exact h.root
    · rw [hstack, hm, hreply]
      exact h.inside

theorem Building.assign {made : List Loc} {s : RedisReader} {mem : Mem} (h : Building made s)
    (hsame : ∀ o, s.reply = some o → mem o.var = s.mem o.var) :
    Building made { s with mem := mem } := by
  rcases h with h | ⟨k, h⟩
  · exact Or.inl h
  · refine Or.inr ⟨k, h.ridx, h.depth, h.type, h.root, fun hk => ?_⟩
    obtain ⟨t, f, hu, hreply⟩ := h.inside hk
    obtain ⟨o, ho, hvar⟩ := Option.map_eq_some_iff.mp hreply
    have hmem : Function.update mem t.loc.var (s.mem t.loc.var) = mem := by
      rw [← hvar, ← hsame o ho, Function.update_eq_self]
    have hother := hu.elsewhere rfl mem
    rw [hmem] at hother
    exact ⟨t, _, hother, hreply⟩

theorem Building.bounds {made : List Loc} {s : RedisReader} (h : Building made s) :
    -1 ≤ s.ridx ∧ s.ridx ≤ 2 := by
  rcases h with h | ⟨k, h⟩
  · omega
  · have := h.ridx
    have := h.depth
    omega

/-- An element was hung on an array that wants more: its task is that of the next. -/
theorem busy_next {made : List Loc} {k : ℕ} {s : RedisReader} {m : Mem} {t : Target}
    {f : Zval → Mem} {vs : List Zval} {w : Zval} (below : Under s.rstack made k m t f)
    (array : t.loc ∈ made) (type : (s.rstack k).type = some .array)
    (obj : (s.rstack k).obj = some t.loc) (parent : (s.rstack (k + 1)).parent = some k)
    (hi : s.ridx = (k + 1 : ℕ)) (hk : k + 1 ≤ 2)
    (hm : s.mem = f (.array (listTable (vs ++ [w]))))
    (more : (vs.length : ℤ) + 1 < (s.rstack k).elements)
    (hreply : s.reply.map Loc.var = some t.loc.var) :
    Busy made (s.setCur { s.cur with type := none, elements := -1, idx := vs.length + 1 })
      (k + 1) := by
  let task : RedisReadTask := { s.cur with type := none, elements := -1, idx := vs.length + 1 }
  have htop : s.ridx.toNat = k + 1 := by omega
  have hbelow : ∀ j ≤ k, (s.setCur task).rstack j = s.rstack j := fun j hj =>
    setCur_below hi (Nat.lt_succ_of_le hj) _
  have htask : (s.setCur task).rstack (k + 1) = task := by simp [RedisReader.setCur, htop]
  have hcur : (s.setCur task).cur = task := by
    rw [RedisReader.cur, show (s.setCur task).ridx.toNat = k + 1 from htop, htask]
  have hunder : Under (s.setCur task).rstack made (k + 1) (f (.array (listTable (vs ++ [w]))))
      (.element t.loc (vs ++ [w]).length)
      (fun w' => f (.array (listTable (vs ++ [w] ++ [w'])))) := by
    refine .element (below.frame hbelow) array ?_ ?_ ?_ ?_ ?_
    · rw [hbelow k le_rfl, type]
    · rw [hbelow k le_rfl, obj]
    · rw [htask, show task.parent = s.cur.parent from rfl, RedisReader.cur, htop]
      exact parent
    · rw [htask]
      simp [task]
    · rw [hbelow k le_rfl, List.length_append, List.length_singleton]
      exact more
  rw [← hm] at hunder
  exact {
    ridx := hi
    depth := hk
    type := by rw [hcur]; exact Option.some_ne_none _ ∘ Eq.symm
    root := fun h0 => absurd h0 (Nat.succ_ne_zero k)
    inside := fun _ => ⟨_, _, hunder, hreply⟩ }

/-- The next task, wherever the value of level `k` was the last of its array: by
induction on the level. -/
theorem moveToNextTaskFor_building {made : List Loc} {n k : ℕ} {s : RedisReader} {m : Mem}
    {t : Target} {f : Zval → Mem} {w : Zval} (hn : k < n) (hi : s.ridx = k) (hk : k ≤ 2)
    (hu : Under s.rstack made k m t f) (hm : s.mem = f w)
    (hreply : 0 < k → s.reply.map Loc.var = some t.loc.var) :
    ∃ s', moveToNextTaskFor n s = .ok s' ∧ Building made s' := by
  induction k generalizing n s m t f w with
  | zero =>
      obtain ⟨n, rfl⟩ := Nat.exists_eq_succ_of_ne_zero (show n ≠ 0 by omega)
      refine ⟨s.pop, ?_, Or.inl (by simp [RedisReader.pop, hi])⟩
      rw [moveToNextTaskFor, if_neg (by omega), if_pos (by simpa using hi)]
  | succ k ih =>
      obtain ⟨n, rfl⟩ := Nat.exists_eq_succ_of_ne_zero (show n ≠ 0 by omega)
      have hprv : s.ridx.toNat - 1 = k := by omega
      have htop : s.ridx.toNat = k + 1 := by omega
      have hreply' := hreply (Nat.succ_pos k)
      cases hu with
      | @element _ m t f vs below array type obj parent idx more =>
          have hidx : s.cur.idx = vs.length := by
            rw [RedisReader.cur, htop]
            exact idx
          rw [moveToNextTaskFor, if_neg (by omega), if_neg (by omega)]
          simp only [hprv, type, hidx, ne_eq, not_true_eq_false, if_false]
          by_cases hlast : (vs.length : ℤ) = (s.rstack k).elements - 1
          · rw [if_pos hlast]
            have hpop : s.pop.ridx = k := by
              simp only [RedisReader.pop]
              omega
            exact ih (by omega) hpop (by omega) below hm fun _ => hreply'
          · rw [if_neg hlast, if_pos more]
            exact ⟨_, rfl, Or.inr ⟨k + 1, busy_next below array type obj parent hi hk hm
              (by omega) hreply'⟩⟩

/-- The call hangs its object on an open array. The parent task is still on the
stack and wants more elements; its object is the array at `l`, which was made for
this reply and holds `vs`; and the object goes behind them. -/
structure HookCall.Appends (made : List Loc) (c : HookCall) (p : ℕ) (l : Loc) (vs : List Zval) :
    Prop where
  below : (p : ℤ) < c.reader.ridx
  obj : (c.reader.rstack p).obj = some l
  made : l ∈ made
  array : c.reader.mem.find l = some (.array (listTable vs))
  more : (vs.length : ℤ) < (c.reader.rstack p).elements
  idx : c.task.idx = vs.length
  appended : ∃ v m, c.run = .ok (l.child vs.length, { c.reader with mem := m }) ∧
    m.find l = some (.array (listTable (vs ++ [v])))

/-- A call with a parent task hangs its object on an array made for this reply. -/
def HookCall.Safe (made : List Loc) (c : HookCall) : Prop :=
  ∀ p, c.task.parent = some p → ∃ l vs, c.Appends made p l vs

section
variable {made : List Loc} {c : HookCall} {k : ℕ}

theorem Under.hook {t : Target} {f : Zval → Mem}
    (h : Under c.reader.rstack made k c.reader.mem t f) (hk : c.reader.ridx = k)
    (htask : c.task = c.reader.cur) :
    c.object = some t.loc ∧ ∃ v, c.run = .ok (t.loc, { c.reader with mem := f v }) ∧
      ∀ n, c.hook = .array n → v = .array [] := by
  obtain ⟨fill, hput, harray⟩ := c.run_eq
  obtain ⟨z, hz⟩ := h.parentize hk fill
  have hrun : c.run = .ok (t.loc, { c.reader with mem := f (fill z) }) := by
    rw [hput, htask, hz]
  exact ⟨HookCall.run_object hrun, fill z, hrun, fun n hn => harray n hn z⟩

theorem Busy.safe (h : Busy made c.reader k) (htask : c.task = c.reader.cur) : c.Safe made := by
  intro p hp
  cases k with
  | zero =>
      rw [htask, h.root rfl] at hp
      cases hp
  | succ k =>
      obtain ⟨t, f, hu, -⟩ := h.inside (Nat.succ_pos k)
      have hcur : c.task = c.reader.rstack (k + 1) := htask.trans h.cur
      obtain ⟨-, v, hrun, -⟩ := hu.hook h.ridx htask
      generalize hm : c.reader.mem = m at hu
      cases hu with
      | @element _ m t f vs below array type obj parent idx more =>
          have hpk : p = k := by
            rw [hcur, parent] at hp
            exact (Option.some.inj hp).symm
          subst hpk
          have hi := h.ridx
          exact ⟨t.loc, vs, {
            below := by omega
            obj := obj
            made := array
            array := by rw [hm, below.find]
            more := more
            idx := by rw [hcur, idx]
            appended := ⟨v, _, hrun, below.find _⟩ }⟩

theorem Busy.hook (h : Busy made c.reader k) (htask : c.task = c.reader.cur) :
    (c.run = .fault .nullPointer ∨ c.run = .fault .useAfterFree) ∨
      ∃ t f, Under c.reader.rstack made k c.reader.mem t f ∧
        (0 < k → c.reader.reply.map Loc.var = some t.loc.var) := by
  cases k with
  | succ k =>
      obtain ⟨t, f, hu, hreply⟩ := h.inside (Nat.succ_pos k)
      exact Or.inr ⟨t, f, hu, fun _ => hreply⟩
  | zero =>
      obtain ⟨fill, hrun, -⟩ := c.run_eq
      have hparent := h.root rfl
      rw [htask, tryParentize, hparent] at hrun
      cases hpriv : c.reader.cur.privdata with
      | none =>
          rw [hpriv] at hrun
          exact Or.inl (Or.inl hrun)
      | some x =>
          rw [hpriv] at hrun
          cases hvar : c.reader.mem x with
          | none =>
              simp only [hvar] at hrun
              exact Or.inl (Or.inr hrun)
          | some z =>
              rw [h.cur] at hparent hpriv
              exact Or.inr ⟨_, _, .root hparent hpriv hvar, fun h0 => absurd h0 (lt_irrefl 0)⟩

end

theorem Building.mono {made made' : List Loc} {s : RedisReader} (h : Building made s)
    (hmade : ∀ l ∈ made, l ∈ made') : Building made' s := by
  rcases h with h | ⟨k, h⟩
  · exact Or.inl h
  · refine Or.inr ⟨k, { h with inside := fun hk => ?_ }⟩
    obtain ⟨t, f, hu, hreply⟩ := h.inside hk
    exact ⟨t, f, hu.mono hmade, hreply⟩

theorem Busy.withPos {made : List Loc} {s : RedisReader} {k : ℕ} (h : Busy made s k) (p : ℕ) :
    Busy made { s with pos := p } k :=
  ⟨h.ridx, h.depth, h.type, h.root, h.inside⟩

theorem Busy.typed {made : List Loc} {s : RedisReader} {k : ℕ} (h : Busy made s k)
    {ty : ReplyType} (hty : ty ≠ .nil) : Busy made (typed s ty) k := by
  have hbelow : ∀ j < k, (Reader.typed s ty).rstack j = s.rstack j := fun j hj =>
    setCur_below h.ridx hj _
  have htop : (Reader.typed s ty).rstack k = { s.cur with type := some ty } := by
    rw [← typed_cur, RedisReader.cur, show (Reader.typed s ty).ridx = k from h.ridx,
      Int.toNat_natCast]
  refine ⟨h.ridx, h.depth, ?_, ?_, fun hk => ?_⟩
  · rw [typed_cur]
    simpa using hty
  · rw [typed_cur]
    exact h.root
  · obtain ⟨t, f, hu, hreply⟩ := h.inside hk
    have hcur := h.cur
    exact ⟨t, f, hu.congr hbelow (by rw [htop, hcur]) (by rw [htop, hcur]) (by rw [htop, hcur]),
      hreply⟩

/-- It returns with `P`, or the variable for the whole reply is missing. -/
def Proceeds {α : Type} (P : α → Prop) : Run α → Prop
  | .ok a => P a
  | .fault e => e = .nullPointer ∨ e = .useAfterFree
  | .blocked => False

/-- What is planned keeps the reader building; its hook, if any, is called safely. -/
def Plan.Safe (made : List Loc) : Plan → Prop
  | .returns success r => success = false ∧ Building made r
  | .asserts => False
  | .calls c next => c.Safe made ∧ (c.Fits →
      Proceeds (fun x => x.1 = true ∧ Building (made ++ c.created) x.2) (c.run >>= next))

section
variable {made : List Loc} {k : ℕ}

/-- After a hook has put its object in place `next` goes on from there. -/
theorem Busy.calls {c : HookCall} {next : Loc × RedisReader → Run (Bool × RedisReader)}
    (h : Busy made c.reader k) (htask : c.task = c.reader.cur)
    (hnext : ∀ t f v, Under c.reader.rstack made k c.reader.mem t f →
      (0 < k → c.reader.reply.map Loc.var = some t.loc.var) → c.object = some t.loc →
      (∀ n, c.hook = .array n → v = .array []) → c.Fits →
      ∃ r, next (t.loc, { c.reader with mem := f v }) = .ok (true, r) ∧
        Building (made ++ c.created) r) :
    (Plan.calls c next).Safe made := by
  refine ⟨h.safe htask, fun hfits => ?_⟩
  rcases h.hook htask with (hrun | hrun) | ⟨t, f, hu, hreply⟩
  · rw [hrun]
    exact Or.inl rfl
  · rw [hrun]
    exact Or.inr rfl
  · obtain ⟨hobj, v, hrun, harray⟩ := hu.hook h.ridx htask
    obtain ⟨r, hr, hb⟩ := hnext t f v hu hreply hobj harray hfits
    rw [hrun, Outcome.ok_bind, hr]
    exact ⟨rfl, hb⟩

variable {s : RedisReader} {m : Mem} {t : Target} {f : Zval → Mem} {w : Zval}

theorem moveToNextTask_building (hi : s.ridx = k) (hk : k ≤ 2) (hu : Under s.rstack made k m t f)
    (hm : s.mem = f w) (hreply : 0 < k → s.reply.map Loc.var = some t.loc.var) :
    ∃ s', moveToNextTask s = .ok s' ∧ Building made s' := by
  rw [moveToNextTask]
  exact moveToNextTaskFor_building (by omega) hi hk hu hm hreply

theorem completeItem_building (n : ℕ) (hi : s.ridx = k) (hk : k ≤ 2)
    (hu : Under s.rstack made k m t f)
    (hreply : 0 < k → s.reply.map Loc.var = some t.loc.var) (v : Zval) :
    ∃ r, completeItem n (t.loc, { s with mem := f v }) = .ok (true, r) ∧ Building made r := by
  let s₁ := setRootReply (s.ridx = 0) t.loc { s with mem := f v, pos := s.pos + n }
  have hs₁ : s₁ = { s with
      mem := f v, pos := s.pos + n
      reply := if decide (s.ridx = 0) then some t.loc else s.reply } :=
    setRootReply_eq _ _ _
  obtain ⟨r, hmove, hb⟩ := @moveToNextTask_building made k s₁ m t f v (by rw [hs₁]; exact hi) hk
    (by rw [hs₁]; exact hu) (by rw [hs₁]) fun h0 => by
      rw [hs₁]
      simp only [hi, show ¬(k : ℤ) = 0 by omega, decide_false]
      exact hreply h0
  refine ⟨r, ?_, hb⟩
  change (moveToNextTask s₁ >>= fun r => .ok (true, r)) = _
  rw [hmove, Outcome.ok_bind]

theorem completeArray_building (hi : s.ridx = k) (hk : k ≤ 2) (hu : Under s.rstack made k m t f)
    (hreply : 0 < k → s.reply.map Loc.var = some t.loc.var) (v : Zval) :
    ∃ r, completeArray (s.ridx = 0) (t.loc, { s with mem := f v }) = .ok (true, r) ∧
      Building made r := by
  by_cases hroot : s.ridx = 0
  · have hmove : moveToNextTask { s with mem := f v } = .ok { s with mem := f v, ridx := -1 } := by
      rw [@moveToNextTask_root { s with mem := f v } hroot, RedisReader.pop]
      simp only [hroot, zero_sub]
    refine ⟨setRootReply true t.loc { s with mem := f v, ridx := -1 }, ?_, Or.inl rfl⟩
    rw [completeArray, hmove]
    simp only [hroot, decide_true, Outcome.ok_bind, Outcome.pure_eq]
  · obtain ⟨r, hmove, hb⟩ := @moveToNextTask_building made k { s with mem := f v } m t f v hi hk hu
      rfl hreply
    refine ⟨r, ?_, hb⟩
    rw [completeArray, hmove]
    simp only [hroot, decide_false, Outcome.ok_bind, Outcome.pure_eq]
    rfl

theorem openArray_building (hi : s.ridx = k) (hk : k ≤ 1) (hu : Under s.rstack made k m t f)
    (hreply : 0 < k → s.reply.map Loc.var = some t.loc.var) (htype : s.cur.type = some .array)
    {elements : ℤ} (hpos : 0 < elements) (hwrap : wrap 32 elements = elements) :
    ∃ r, openArray (s.ridx = 0) s.cur elements (t.loc, { s with mem := f (.array []) }) =
      .ok (true, r) ∧ Building (made ++ [t.loc]) r := by
  let task : RedisReadTask := { s.cur with elements := wrap 32 elements, obj := some t.loc }
  let first : RedisReadTask := ⟨none, -1, 0, none, some k, s.privdata⟩
  let st := Function.update (Function.update s.rstack k task) (k + 1) first
  let r : RedisReader := { s with
    mem := f (.array []), ridx := (k + 1 : ℕ), rstack := st
    reply := if decide (s.ridx = 0) then some t.loc else s.reply }
  have hcur : s.cur = s.rstack k := by rw [RedisReader.cur, hi, Int.toNat_natCast]
  have hfirst : st (k + 1) = first := Function.update_self ..
  have htask : st k = task := by simp [st]
  have hbelow : ∀ j < k, st j = s.rstack j := fun j hj => by
    simp [st, show j ≠ k + 1 by omega, show j ≠ k by omega]
  have hr : openArray (s.ridx = 0) s.cur elements (t.loc, { s with mem := f (.array []) }) =
      .ok (true, r) := by
    rw [openArray, setRootReply_eq]
    simp only [pushTask, RedisReader.setCur, hi, Int.toNat_natCast, Outcome.pure_eq]
    simp only [r, hi]
    rfl
  have hunder : Under st (made ++ [t.loc]) (k + 1) (f (.array (listTable []))) (.element t.loc 0)
      (fun w => f (.array (listTable ([] ++ [w])))) := by
    have hbase : Under st made k m t f :=
      hu.congr hbelow (by rw [htask, ← hcur]) (by rw [htask, ← hcur]) (by rw [htask, ← hcur])
    refine .element (hbase.mono fun l hl => ?_) ?_ ?_ ?_ ?_ ?_ ?_
    · exact List.mem_append_left _ hl
    · exact List.mem_append_right _ (List.mem_singleton_self _)
    · rw [htask]
      exact htype
    · rw [htask]
    · rw [hfirst]
    · rw [hfirst]
      rfl
    · rw [htask]
      change (0 : ℤ) < wrap 32 elements
      rw [hwrap]
      exact hpos
  refine ⟨r, hr, Or.inr ⟨k + 1, ?_⟩⟩
  have htop : r.cur = first := hfirst
  exact {
    ridx := rfl
    depth := by omega
    type := by rw [htop]; exact Option.some_ne_none _ ∘ Eq.symm
    root := fun h0 => absurd h0 (Nat.succ_ne_zero k)
    inside := fun _ => by
      refine ⟨_, _, hunder, ?_⟩
      by_cases h0 : k = 0
      · simp [r, hi, h0, Target.loc, Loc.child]
      · simpa [r, hi, h0, Target.loc, Loc.child] using hreply (Nat.pos_of_ne_zero h0) }

theorem Busy.calls_completeItem {c : HookCall} (h : Busy made c.reader k)
    (htask : c.task = c.reader.cur) (n : ℕ) : (Plan.calls c (completeItem n)).Safe made := by
  refine h.calls htask fun t f v hu hreply _ _ _ => ?_
  obtain ⟨r, hr, hb⟩ := completeItem_building n h.ridx h.depth hu hreply v
  exact ⟨r, hr, hb.mono fun l hl => List.mem_append_left _ hl⟩

theorem Busy.calls_completeArray {c : HookCall} (h : Busy made c.reader k)
    (htask : c.task = c.reader.cur) :
    (Plan.calls c (completeArray (c.reader.ridx = 0))).Safe made := by
  refine h.calls htask fun t f v hu hreply _ _ _ => ?_
  obtain ⟨r, hr, hb⟩ := completeArray_building h.ridx h.depth hu hreply v
  exact ⟨r, hr, hb.mono fun l hl => List.mem_append_left _ hl⟩

theorem Busy.linePlan (h : Busy made s k) : (linePlan s).Safe made := by
  unfold Reader.linePlan readLine
  cases seekNewline s.unread (s.len - s.pos) with
  | none => exact ⟨rfl, Or.inr ⟨k, h⟩⟩
  | some len =>
      simp only []
      split_ifs <;> exact (h.withPos _).calls_completeItem rfl 0

theorem Busy.bulkPlan (h : Busy made s k) : (bulkPlan s).Safe made := by
  unfold Reader.bulkPlan
  simp only []
  cases seekNewline s.unread (s.len - s.pos) with
  | none => exact ⟨rfl, Or.inr ⟨k, h⟩⟩
  | some i =>
      simp only []
      split_ifs
      · exact h.calls_completeItem rfl (i + 2)
      · exact h.calls_completeItem rfl _
      · exact ⟨rfl, Or.inr ⟨k, h⟩⟩

theorem Busy.arrayPlan (h : Busy made s k) (htype : s.cur.type = some .array) :
    (arrayPlan s).Safe made := by
  unfold Reader.arrayPlan readLine
  split_ifs with hdeep
  · exact ⟨rfl, Or.inl rfl⟩
  · cases seekNewline s.unread (s.len - s.pos) with
    | none => exact ⟨rfl, Or.inr ⟨k, h⟩⟩
    | some len =>
        simp only []
        split_ifs with hnil hpos
        · exact (h.withPos _).calls_completeArray rfl
        · -- the first element is one level up, so level 2 at most
          refine (h.withPos _).calls rfl fun t f v hu hreply hobj harray hfits => ?_
          have hi := h.ridx
          have hk := h.depth
          obtain rfl := harray _ rfl
          have hwrap : wrap 32 (readLongLong s.unread) = readLongLong s.unread :=
            @wrap_of_range 31 _ hfits.1 hfits.2
          obtain ⟨r, hr, hb⟩ := openArray_building (s := { s with pos := s.pos + (len + 2) }) hi
            (by omega) hu hreply htype hpos hwrap
          refine ⟨r, hr, ?_⟩
          rw [HookCall.created, hobj]
          exact hb
        · exact (h.withPos _).calls_completeArray rfl

theorem Busy.typedPlan (h : Busy made s k) (htype : s.cur.type ≠ none) :
    (typedPlan s).Safe made := by
  unfold Reader.typedPlan
  cases hty : s.cur.type with
  | none => exact absurd hty htype
  | some ty =>
      cases ty with
      | error | status | integer => exact h.linePlan
      | string => exact h.bulkPlan
      | array => exact h.arrayPlan hty
      | nil => exact absurd hty h.type

theorem Busy.itemPlan (h : Busy made s k) : (itemPlan s).Safe made := by
  unfold Reader.itemPlan
  cases hty : s.cur.type with
  | some ty =>
      have htype : s.cur.type ≠ none := by
        rw [hty]
        exact Option.some_ne_none ty
      exact h.typedPlan htype
  | none =>
      simp only [readBytes]
      split_ifs
      · simp only []
        cases hb : replyTypeOf (s.unread.getD 0 0) with
        | none => exact ⟨rfl, Or.inl rfl⟩
        | some ty =>
            have htype : (Reader.typed { s with pos := s.pos + 1 } ty).cur.type ≠ none := by
              rw [typed_cur]
              exact Option.some_ne_none ty
            exact ((h.withPos _).typed (replyTypeOf_ne_nil hb)).typedPlan htype
      · exact ⟨rfl, Or.inr ⟨k, h⟩⟩

end

end Reader

end PhpHiredis
