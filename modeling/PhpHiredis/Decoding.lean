import PhpHiredis.Consumer
import PhpHiredis.Reply

/-!
# Reply trees and the values the hooks build

The value of a reply grows in place, by side effects on the variable at its
root. `Open` says that a value can be put where the task on top of the stack
wants it, and what the memory is then. With that, the consumer turns the
encoding of every tree into its value, whatever bytes follow: by induction on
the depth of the tree, and on the elements already read within an array.
-/
namespace PhpHiredis.Reader

open Library Library.Incremental

/-- Where a task puts its object. -/
inductive Target where
  | root (x : ℕ)
  | element (parent : Loc) (i : ℤ)

def Target.loc : Target → Loc
  | root x => ⟨x, []⟩
  | element parent i => parent.child i

def place (m : Mem) : Target → Zval → Run Mem
  | .root x, v =>
      match m x with
      | none => .fault .useAfterFree
      | some _ => .ok (m.set x v)
  | .element parent i, v => m.addIndex parent i v

/-- Every value can be put at `t`, with the memory `f` as the result. -/
def Open (m : Mem) (t : Target) (f : Zval → Mem) : Prop := ∀ v, place m t v = .ok (f v)

theorem open_root {m : Mem} {x : ℕ} {z : Zval} (h : m x = some z) :
    Open m (.root x) (m.set x) := fun v => by simp only [place, h]

theorem set_set (m : Mem) (x : ℕ) (v w : Zval) : (m.set x v).set x w = m.set x w :=
  Function.update_idem ..

theorem set_self (m : Mem) (x : ℕ) (v : Zval) : m.set x v x = some v :=
  Function.update_self ..

theorem Open.grow {m : Mem} {t : Target} {f : Zval → Mem} (h : Open m t f) (vs : List Zval) :
    Open (f (.array (listTable vs))) (.element t.loc vs.length)
      (fun w => f (.array (listTable (vs ++ [w])))) := by
  intro w
  cases t with
  | root x =>
      have hf : ∀ v, f v = m.set x v := by
        intro v
        have hv := h v
        cases hx : m x with
        | none =>
            simp only [place, hx] at hv
            cases hv
        | some z =>
            simp only [place, hx] at hv
            exact (Outcome.ok.inj hv).symm
      simp only [place, Target.loc, Mem.addIndex, hf, set_self, Zval.modifyAt, addIndexTo,
        Outcome.ok_bind, insert_listTable, Outcome.pure_eq, set_set]
  | element l i =>
      cases hroot : m l.var with
      | none =>
          have hv := h .null
          simp only [place, Mem.addIndex, hroot] at hv
          cases hv
      | some root =>
          have hf : ∀ v, ∃ r, root.modifyAt (addIndexTo i v) l.path = .ok r ∧
              f v = m.set l.var r := by
            intro v
            have hv := h v
            simp only [place, Mem.addIndex, hroot] at hv
            obtain ⟨r, hr, he⟩ := Outcome.bind_eq_ok.mp hv
            exact ⟨r, hr, (Outcome.ok.inj he).symm⟩
          have hgrow : ∀ z, (addIndexTo i (.array (listTable vs)) z >>=
              Zval.modifyAt (addIndexTo vs.length w) [i]) =
                addIndexTo i (.array (listTable (vs ++ [w]))) z := by
            intro z
            cases z <;> simp [addIndexTo, Zval.modifyAt, Zval.arrval, modifyElem_insert,
              insert_listTable]
          obtain ⟨r, hr, hfr⟩ := hf (.array (listTable vs))
          obtain ⟨r', hr', hfr'⟩ := hf (.array (listTable (vs ++ [w])))
          have hstep : r.modifyAt (addIndexTo vs.length w) (l.path ++ [i]) = .ok r' := by
            rw [modifyAt_append]
            have hb := modifyAt_bind (addIndexTo i (.array (listTable vs)))
              (Zval.modifyAt (addIndexTo vs.length w) [i]) l.path root
            rw [hr, funext hgrow, hr'] at hb
            exact hb
          simp only [place, Target.loc, Loc.child, Mem.addIndex, hfr, set_self, hstep,
            Outcome.ok_bind, Outcome.pure_eq, hfr', set_set]

/-- Where the object of a task belongs. -/
def targetOf (s : RedisReader) (task : RedisReadTask) : Option Target :=
  match task.parent with
  | some p => (s.rstack p).obj.map fun l => .element l task.idx
  | none => task.privdata.map .root

theorem tryParentize_place {s : RedisReader} {task : RedisReadTask} {t : Target} {f : Zval → Mem}
    {fill : Zval → Zval} {v : Zval} (ht : targetOf s task = some t) (ho : Open s.mem t f)
    (hfill : ∀ z, fill z = v) :
    tryParentize s task fill = .ok (t.loc, { s with mem := f v }) := by
  have hv := ho v
  unfold targetOf at ht
  unfold tryParentize
  cases hp : task.parent with
  | some p =>
      rw [hp] at ht
      obtain ⟨l, hl, rfl⟩ := Option.map_eq_some_iff.mp ht
      simp only [place] at hv
      simp only [hl, hfill, hv, Outcome.ok_bind, Outcome.pure_eq, Target.loc]
  | none =>
      rw [hp] at ht
      obtain ⟨x, hx, rfl⟩ := Option.map_eq_some_iff.mp ht
      simp only [place] at hv
      cases hz : s.mem x with
      | none =>
          simp only [hz] at hv
          cases hv
      | some z =>
          simp only [hz] at hv
          simp only [hx, hz, hfill, Outcome.pure_eq, Target.loc, Outcome.ok.inj hv]

/-- The reader is at the type byte of an item of level `k`, whose object goes
to `t`. -/
structure Awaits (s : RedisReader) (k : ℕ) (t : Target) (f : Zval → Mem) : Prop where
  error : s.error = none
  ridx : s.ridx = k
  type : s.cur.type = none
  parent : ∀ p, s.cur.parent = some p → p < k
  target : targetOf s s.cur = some t
  place : Open s.mem t f

/-- The item is complete, its value is where it belongs, and the reader has not
moved on. -/
structure Built (s s' : RedisReader) (k : ℕ) (t : Target) (mem : Mem) : Prop where
  error : s'.error = none
  ridx : s'.ridx = k
  mem : s'.mem = mem
  privdata : s'.privdata = s.privdata
  below : ∀ j < k, s'.rstack j = s.rstack j
  idx : s'.cur.idx = s.cur.idx
  parent : s'.cur.parent = s.cur.parent
  reply : s'.reply = if k = 0 then some t.loc else s.reply

def typed (s : RedisReader) (ty : ReplyType) : RedisReader :=
  s.setCur { s.cur with type := some ty }

theorem typed_cur (s : RedisReader) (ty : ReplyType) :
    (typed s ty).cur = { s.cur with type := some ty } := by
  simp [typed, RedisReader.setCur, RedisReader.cur]

theorem setCur_below {s : RedisReader} {k j : ℕ} (hi : s.ridx = k) (hj : j < k)
    (task : RedisReadTask) : (s.setCur task).rstack j = s.rstack j := by
  have hne : j ≠ s.ridx.toNat := by omega
  simp [RedisReader.setCur, hne]

section
variable {s : RedisReader} {k : ℕ} {t : Target} {f : Zval → Mem}

theorem Awaits.target_typed (h : Awaits s k t f) (ty : ReplyType) :
    targetOf (typed s ty) (typed s ty).cur = some t := by
  rw [typed_cur, ← h.target]
  unfold targetOf
  simp only []
  cases hp : s.cur.parent with
  | none => rfl
  | some p =>
      have hb : (typed s ty).rstack p = s.rstack p := setCur_below h.ridx (h.parent p hp) _
      simp only [hb]

/-- The reader just after the hook has put the value of a whole item in place. -/
def withValue (s : RedisReader) (ty : ReplyType) (t : Target) (mem : Mem) : RedisReader :=
  setRootReply (s.ridx = 0) t.loc { typed s ty with mem := mem }

theorem setRootReply_eq (root : Bool) (o : Loc) (s : RedisReader) :
    setRootReply root o s = { s with reply := if root then some o else s.reply } := by
  cases root <;> rfl

theorem Awaits.built (h : Awaits s k t f) (ty : ReplyType) (mem : Mem) :
    Built s (withValue s ty t mem) k t mem := by
  have hreply : (if decide (s.ridx = 0) then some t.loc else s.reply) =
      if k = 0 then some t.loc else s.reply := by
    simp [h.ridx]
  unfold withValue
  rw [setRootReply_eq]
  exact {
    error := h.error
    ridx := h.ridx
    mem := rfl
    privdata := rfl
    below := fun j hj => setCur_below h.ridx hj _
    idx := show (typed s ty).cur.idx = s.cur.idx by rw [typed_cur]
    parent := show (typed s ty).cur.parent = s.cur.parent by rw [typed_cur]
    reply := hreply }

theorem Awaits.hook (h : Awaits s k t f) (ty : ReplyType) {fill : Zval → Zval} {v : Zval}
    (hfill : ∀ z, fill z = v) :
    (tryParentize (typed s ty) (typed s ty).cur fill >>= finishItem) =
      moveToNextTask (withValue s ty t (f v)) := by
  rw [tryParentize_place (h.target_typed ty) (show Open (typed s ty).mem t f from h.place) hfill]
  rfl

theorem Awaits.typeStep (h : Awaits s k t f) {c : UInt8} {ty : ReplyType}
    (hc : replyTypeOf c = some ty) (hd : ty = .array → k ≠ 2) : typeStep s c = typed s ty := by
  unfold Reader.typeStep
  rw [hc]
  simp only []
  rw [if_neg]
  · rfl
  · rintro ⟨ha, h2⟩
    have := hd ha
    have := h.ridx
    omega

theorem Awaits.drain_item (h : Awaits s k t f) {c : UInt8} {ty : ReplyType}
    (hc : replyTypeOf c = some ty) (hd : ty = .array → k ≠ 2) {xs rest : Bytes}
    {x : Run RedisReader}
    (hx : parseTyped (typed s ty) xs = some (x, rest)) :
    drain parseStep (.ok s) (c :: xs) = drain parseStep x rest := by
  have hi := h.ridx
  have h₁ : parseStep (.ok s) (c :: xs) = some (.ok (typed s ty), xs) := by
    rw [parseStep_ok (by omega), parseItem_cons h.type, h.typeStep hc hd]
  have h₂ : parseStep (.ok (typed s ty)) xs = some (x, rest) := by
    have h0 : 0 ≤ (typed s ty).ridx := show 0 ≤ s.ridx by omega
    rw [parseStep_ok h0, parseItem_typed (by rw [typed_cur]; simp), hx]
  rw [drain_step parseStep_local h₁, drain_step parseStep_local h₂]

theorem Awaits.leaf (h : Awaits s k t f) {c : UInt8} {ty : ReplyType} (hc : replyTypeOf c = some ty)
    (hd : ty = .array → k ≠ 2) {fill : Zval → Zval} {v : Zval} (hfill : ∀ z, fill z = v)
    {payload : Bytes}
    (hp : ∀ rest, parseTyped (typed s ty) (payload ++ rest) =
      some (tryParentize (typed s ty) (typed s ty).cur fill >>= finishItem, rest)) :
    ∃ s', Built s s' k t (f v) ∧ ∀ rest,
      drain parseStep (.ok s) (c :: payload ++ rest) =
        drain parseStep (moveToNextTask s') rest := by
  refine ⟨_, h.built ty (f v), fun rest => ?_⟩
  rw [← h.hook ty hfill]
  exact h.drain_item hc hd (hp rest)

end

theorem line_split (text rest : Bytes) :
    (text ++ CRLF ++ rest).take text.length = text ∧
      (text ++ CRLF ++ rest).drop (text.length + 2) = rest := by
  constructor
  · rw [List.append_assoc, List.take_left]
  · exact List.drop_left' (by simp)

theorem parseTyped_text {s : RedisReader} {text : Bytes} (ht : findCRLF text = none)
    (hs : s.cur.type = some .status ∨ s.cur.type = some .error) (rest : Bytes) :
    parseTyped s (text ++ CRLF ++ rest) = some (textItem s text text.length, rest) := by
  obtain ⟨h₁, h₂⟩ := line_split text rest
  rcases hs with hs | hs <;> simp only [parseTyped, findCRLF_line ht, hs, h₁, h₂]

theorem parseTyped_integer {s : RedisReader} {n : ℤ} (hl : -2 ^ 63 ≤ n) (hu : n < 2 ^ 63)
    (hs : s.cur.type = some .integer) (rest : Bytes) :
    parseTyped s (decimalInt n ++ CRLF ++ rest) = some (integerItem s n, rest) := by
  have hline := findCRLF_line (findCRLF_eq_none (cr_notMem_decimalInt n)) rest
  simp only [parseTyped, hline, hs, readLongLong_decimalInt hl hu, (line_split _ rest).2]

theorem parseTyped_nil {s : RedisReader} (hs : s.cur.type = some .string) (rest : Bytes) :
    parseTyped s (ascii "-1" ++ CRLF ++ rest) = some (nilItem s, rest) := by
  have hm : decimalInt (-1) = ascii "-1" := rfl
  have hn : readLongLong (ascii "-1" ++ CRLF ++ rest) = -1 := by
    rw [← hm, readLongLong_decimalInt (by decide) (by decide)]
  have hline := @findCRLF_line (ascii "-1") (by decide) rest
  simp only [parseTyped, hline, hs, hn, (line_split _ rest).2]
  rfl

theorem parseTyped_bulk {s : RedisReader} {str : Bytes} (hl : str.length < 2 ^ 63)
    (hs : s.cur.type = some .string) (rest : Bytes) :
    parseTyped s (decimal str.length ++ CRLF ++ str ++ CRLF ++ rest) =
      some (textItem s str str.length, rest) := by
  have hxs : decimal str.length ++ CRLF ++ str ++ CRLF ++ rest =
      decimal str.length ++ CRLF ++ (str ++ CRLF ++ rest) := by simp only [List.append_assoc]
  have hline := findCRLF_line (findCRLF_eq_none (cr_notMem_decimal str.length))
    (str ++ CRLF ++ rest)
  have hn := readLongLong_decimal hl (str ++ CRLF ++ rest)
  have hd := (line_split (decimal str.length) (str ++ CRLF ++ rest)).2
  have hle : (decimal str.length).length + 2 + (str.length + 2) ≤
      (decimal str.length ++ CRLF ++ (str ++ CRLF ++ rest)).length := by
    simp only [List.length_append, CRLF, List.length_cons, List.length_nil]
    omega
  rw [hxs]
  simp only [parseTyped, hline, hs, hn, Int.toNat_natCast, hle, if_true, hd]
  rw [if_neg (by omega), ← List.drop_drop, hd, (line_split str rest).1, (line_split str rest).2]

theorem parseTyped_array {s : RedisReader} {n : ℤ} (hl : -2 ^ 63 ≤ n) (hu : n < 2 ^ 63)
    (hs : s.cur.type = some .array) (rest : Bytes) :
    parseTyped s (decimalInt n ++ CRLF ++ rest) = some (arrayItem s n, rest) := by
  have hline := findCRLF_line (findCRLF_eq_none (cr_notMem_decimalInt n)) rest
  simp only [parseTyped, hline, hs, readLongLong_decimalInt hl hu, (line_split _ rest).2]

/-- A list without elements, and the nil multi-bulk reply: an array header that
is a whole item. -/
theorem arrayItem_whole (s : RedisReader) {n : ℤ} (hn : n ≤ 0) :
    arrayItem s n =
      (tryParentize s s.cur (fun _ => if n = -1 then .false else .array []) >>= finishItem) := by
  have hend : ∀ fill, (tryParentize s s.cur fill >>= fun x => moveToNextTask x.2 >>= fun s' =>
      .ok (setRootReply (s.ridx = 0) x.1 s')) = (tryParentize s s.cur fill >>= finishItem) := by
    intro fill
    cases hx : tryParentize s s.cur fill with
    | fault e => rfl
    | blocked => rfl
    | ok x =>
        obtain ⟨mem, hm⟩ := tryParentize_ok (show _ = Outcome.ok (x.1, x.2) from hx)
        have hi : x.2.ridx = s.ridx := by rw [hm]
        simp only [Outcome.ok_bind, finishItem, moveToNextTask_setRootReply, hi]
  rw [← hend]
  unfold arrayItem
  by_cases h₁ : n = -1
  · simp only [h₁, if_true]
    rfl
  · simp only [h₁, if_false, show ¬0 < n by omega]
    rfl

theorem Awaits.scalar {s : RedisReader} {k : ℕ} {t : Target} {f : Zval → Mem}
    (h : Awaits s k t f) {e : Reply} (he : e.Sound 0) :
    ∃ s', Built s s' k t (f e.value) ∧ ∀ rest,
      drain parseStep (.ok s) (e.encode ++ rest) = drain parseStep (moveToNextTask s') rest := by
  have hcur : ∀ ty, (typed s ty).cur.type = some ty := fun ty => by rw [typed_cur]
  cases e with
  | status text =>
      refine h.leaf rfl (by simp) (fun z => ?_) (parseTyped_text he (Or.inl (hcur .status)))
      have hpong : (text.length = 4 ∧ text.take 4 = ascii "PONG") ↔ text = ascii "PONG" := by
        constructor
        · rintro ⟨h4, ht⟩
          rwa [← h4, List.take_length] at ht
        · rintro rfl
          exact ⟨rfl, rfl⟩
      simp only [hcur, Reply.value, hpong]
  | error text =>
      refine h.leaf rfl (by simp) (fun z => ?_) (parseTyped_text he (Or.inr (hcur .error)))
      simp only [hcur, Reply.value]
  | integer n =>
      exact h.leaf rfl (by simp) (fun z => by rw [Reply.value])
        (parseTyped_integer he.1 he.2 (hcur .integer))
  | bulk str =>
      refine h.leaf rfl (by simp) (fun z => ?_) (parseTyped_bulk he (hcur .string))
      simp only [hcur, Reply.value, List.take_length]
  | nil => exact h.leaf rfl (by simp) (fun z => by rw [Reply.value]) (parseTyped_nil (hcur .string))
  | nilArray => exact he.elim
  | array es => exact he.elim

theorem Awaits.emptyArray {s : RedisReader} {k : ℕ} {t : Target} {f : Zval → Mem}
    (h : Awaits s k t f) (hk : k ≠ 2) {n : ℤ} (hl : -2 ^ 63 ≤ n) (hn : n ≤ 0) :
    ∃ s', Built s s' k t (f (if n = -1 then .false else .array [])) ∧ ∀ rest,
      drain parseStep (.ok s) (42 :: (decimalInt n ++ CRLF) ++ rest) =
        drain parseStep (moveToNextTask s') rest := by
  have hcur : (typed s .array).cur.type = some .array := by rw [typed_cur]
  refine h.leaf (rfl : replyTypeOf 42 = some .array) (fun _ => hk) (fun _ => rfl) fun rest => ?_
  rw [parseTyped_array hl (by omega) hcur, arrayItem_whole _ hn]

/-- The reader is at the type byte of an element of an array of `n` elements at
level `k`; the values `vs` of those before it are in place. -/
structure Inside (s : RedisReader) (k : ℕ) (t : Target) (f : Zval → Mem) (n : ℕ)
    (vs : List Zval) : Prop where
  error : s.error = none
  ridx : s.ridx = (k + 1 : ℕ)
  type : s.cur.type = none
  idx : s.cur.idx = vs.length
  parent : s.cur.parent = some k
  array : (s.rstack k).type = some .array
  elements : (s.rstack k).elements = n
  obj : (s.rstack k).obj = some t.loc
  mem : s.mem = f (.array (listTable vs))

/-- What the elements of an array leave as it was. -/
structure Frame (s s' : RedisReader) (k : ℕ) : Prop where
  error : s'.error = s.error
  reply : s'.reply = s.reply
  privdata : s'.privdata = s.privdata
  below : ∀ j ≤ k, s'.rstack j = s.rstack j

section
variable {s s' : RedisReader} {k n : ℕ} {t : Target} {f : Zval → Mem} {vs : List Zval}

theorem Inside.awaits {m : Mem} (h : Inside s k t f n vs) (ho : Open m t f) :
    Awaits s (k + 1) (.element t.loc vs.length) (fun w => f (.array (listTable (vs ++ [w])))) where
  error := h.error
  ridx := h.ridx
  type := h.type
  parent p hp := by
    rw [h.parent] at hp
    cases hp
    exact Nat.lt_succ_self k
  target := by simp only [targetOf, h.parent, h.obj, Option.map_some, h.idx]
  place := h.mem ▸ ho.grow vs

theorem Built.frame {mem : Mem} {t' : Target} (h : Built s s' (k + 1) t' mem)
    (he : s.error = none) :
    Frame s s' k where
  error := h.error.trans he.symm
  reply := by simpa using h.reply
  privdata := h.privdata
  below j hj := h.below j (by omega)

theorem Inside.leave {w : Zval} {t' : Target} (h : Inside s k t f n vs)
    (hb : Built s s' (k + 1) t' (f (.array (listTable (vs ++ [w]))))) (hn : vs.length + 1 = n) :
    moveToNextTask s' = moveToNextTask s'.pop := by
  have hk : s'.rstack k = s.rstack k := hb.below k (Nat.lt_succ_self k)
  have hi := hb.ridx
  have hidx : s'.cur.idx = n - 1 := by
    rw [hb.idx, h.idx, ← hn]
    push_cast
    omega
  have hprv : s'.ridx.toNat - 1 = k := by omega
  have hfuel : (s'.ridx + 1).toNat = k + 2 := by omega
  have hfuel' : (s'.pop.ridx + 1).toNat = k + 1 := by
    simp only [RedisReader.pop]
    omega
  rw [moveToNextTask, moveToNextTask, hfuel, hfuel', moveToNextTaskFor]
  simp only [hprv, hk, h.array, h.elements, hidx, if_true, ne_eq, not_true_eq_false, if_false]
  rw [if_neg (by omega), if_neg (by omega)]

theorem Inside.next {w : Zval} {t' : Target} (h : Inside s k t f n vs)
    (hb : Built s s' (k + 1) t' (f (.array (listTable (vs ++ [w]))))) (hn : vs.length + 1 < n) :
    ∃ s'', moveToNextTask s' = .ok s'' ∧ Inside s'' k t f n (vs ++ [w]) ∧ Frame s s'' k := by
  have hk : s'.rstack k = s.rstack k := hb.below k (Nat.lt_succ_self k)
  have hi := hb.ridx
  have hidx : s'.cur.idx = vs.length := hb.idx.trans h.idx
  have hprv : s'.ridx.toNat - 1 = k := by omega
  have hfuel : (s'.ridx + 1).toNat = k + 2 := by omega
  have hbelow : ∀ task, ∀ j ≤ k, (s'.setCur task).rstack j = s'.rstack j :=
    fun task j hj => setCur_below hi (by omega) task
  refine ⟨s'.setCur { s'.cur with type := none, elements := -1, idx := s'.cur.idx + 1 }, ?_, ?_, ?_⟩
  · rw [moveToNextTask, hfuel, moveToNextTaskFor]
    simp only [hprv, hk, h.array, h.elements, hidx, ne_eq, not_true_eq_false, if_false]
    rw [if_neg (by omega), if_neg (by omega), if_neg (by omega), if_pos (by omega)]
  · have hcur : (s'.setCur
      { s'.cur with type := none, elements := -1, idx := s'.cur.idx + 1 }).cur =
        { s'.cur with type := none, elements := -1, idx := s'.cur.idx + 1 } := by
      simp [RedisReader.setCur, RedisReader.cur]
    have hsk := (hbelow { s'.cur with type := none, elements := -1, idx := s'.cur.idx + 1 } k
      le_rfl).trans hk
    exact {
      error := hb.error
      ridx := hi
      type := by rw [hcur]
      idx := by
        rw [hcur, List.length_append]
        exact congrArg (· + 1) hidx
      parent := by rw [hcur]; exact hb.parent.trans h.parent
      array := by rw [hsk, h.array]
      elements := by rw [hsk, h.elements]
      obj := by rw [hsk, h.obj]
      mem := hb.mem }
  · obtain ⟨h₁, h₂, h₃, h₄⟩ := hb.frame h.error
    exact ⟨h₁, h₂, h₃, fun j hj => (hbelow _ j hj).trans (h₄ j hj)⟩

theorem Frame.trans {s₁ s₂ s₃ : RedisReader} (h : Frame s₁ s₂ k) (h' : Frame s₂ s₃ k) :
    Frame s₁ s₃ k where
  error := h'.error.trans h.error
  reply := h'.reply.trans h.reply
  privdata := h'.privdata.trans h.privdata
  below j hj := (h'.below j hj).trans (h.below j hj)

end

/-- What it means that the reply `e` is read at level `k`. -/
def Reads (k : ℕ) (e : Reply) : Prop :=
  ∀ {s : RedisReader} {t : Target} {f : Zval → Mem}, Awaits s k t f →
    ∃ s', Built s s' k t (f e.value) ∧ ∀ rest,
      drain parseStep (.ok s) (e.encode ++ rest) = drain parseStep (moveToNextTask s') rest

/-- All elements that are left, by induction on their list. -/
theorem Inside.rest {k n : ℕ} {t : Target} {f : Zval → Mem} {m : Mem} (ho : Open m t f)
    {es : List Reply} (hne : es ≠ []) (hes : ∀ e ∈ es, Reads (k + 1) e) {s : RedisReader}
    {vs : List Zval} (h : Inside s k t f n vs) (hn : n = vs.length + es.length) :
    ∃ s', Frame s s' k ∧ s'.ridx = k ∧
      s'.mem = f (.array (listTable (vs ++ es.map Reply.value))) ∧ ∀ rest,
        drain parseStep (.ok s) (Reply.encodeAll es ++ rest) =
          drain parseStep (moveToNextTask s') rest := by
  induction es generalizing s vs with
  | nil => exact absurd rfl hne
  | cons e es ih =>
      obtain ⟨s', hb, hd⟩ := hes e (by simp) (h.awaits ho)
      simp only [List.length_cons] at hn
      by_cases hes' : es = []
      · subst hes'
        refine ⟨s'.pop, ?_, ?_, ?_, fun rest => ?_⟩
        · obtain ⟨h₁, h₂, h₃, h₄⟩ := hb.frame h.error
          exact ⟨h₁, h₂, h₃, h₄⟩
        · have := hb.ridx
          simp only [RedisReader.pop]
          omega
        · exact hb.mem
        · rw [Reply.encodeAll_cons, Reply.encodeAll_nil, List.append_nil, hd,
            h.leave hb (by simpa using hn.symm)]
      · have hlen : 0 < es.length := List.length_pos_of_ne_nil hes'
        obtain ⟨s'', hmove, hin, hframe⟩ := h.next hb (by omega)
        obtain ⟨s₃, hframe', hidx, hmem, hd'⟩ := ih hes' (fun e he => hes e (by simp [he])) hin
          (by rw [List.length_append, List.length_singleton]; omega)
        refine ⟨s₃, hframe.trans hframe', hidx, ?_, fun rest => ?_⟩
        · rw [hmem, List.append_assoc]
          rfl
        · rw [Reply.encodeAll_cons, List.append_assoc, hd, hmove, hd']

theorem Awaits.header {s : RedisReader} {k : ℕ} {t : Target} {f : Zval → Mem}
    (h : Awaits s k t f) (hk : k ≠ 2) {n : ℕ} (h0 : 0 < n) (hn : n < 2 ^ 31) :
    ∃ s₀, Inside s₀ k t f n [] ∧ s₀.privdata = s.privdata ∧
      (∀ j < k, s₀.rstack j = s.rstack j) ∧ (s₀.rstack k).idx = s.cur.idx ∧
      (s₀.rstack k).parent = s.cur.parent ∧ (s₀.reply = if k = 0 then some t.loc else s.reply) ∧
      ∀ rest, drain parseStep (.ok s) (42 :: (decimal n ++ CRLF) ++ rest) =
        drain parseStep (.ok s₀) rest := by
  have hi := h.ridx
  have hcur : (typed s .array).cur.type = some .array := by rw [typed_cur]
  have hwrap : wrap 32 n = n := @wrap_of_range 31 n (by omega) (by omega)
  have hput := tryParentize_place (h.target_typed .array)
    (show Open (typed s .array).mem t f from h.place) (fun _ => rfl : ∀ _, Zval.array [] = _)
  let task : RedisReadTask := { (typed s .array).cur with elements := n, obj := some t.loc }
  let s₁ : RedisReader := { typed s .array with mem := f (.array []) }
  let s₀ := setRootReply (s.ridx = 0) t.loc (pushTask (s₁.setCur task))
  have hitem : arrayItem (typed s .array) n = .ok s₀ := by
    unfold arrayItem createArrayObject
    rw [hput, hwrap]
    simp only [show ¬(n : ℤ) = -1 by omega, show (0 : ℤ) < n by omega, if_true, if_false,
      Outcome.ok_bind, Outcome.pure_eq]
    rfl
  have hstack : ∀ j, s₀.rstack j = if j = k + 1 then ⟨none, -1, 0, none, some k, s.privdata⟩
      else if j = k then task else s.rstack j := by
    intro j
    have h₁ : (s.ridx + 1).toNat = k + 1 := by omega
    have h₂ : s.ridx.toNat = k := by omega
    have hroot : s₀.rstack = (pushTask (s₁.setCur task)).rstack := by
      simp only [s₀, setRootReply_eq]
    rw [hroot]
    simp only [pushTask, RedisReader.setCur, s₁, typed, Function.update_apply, h₁, h₂]
    split_ifs <;> rfl
  have hridx : s₀.ridx = (k + 1 : ℕ) := by
    have : s₀.ridx = s.ridx + 1 := by simp only [s₀, setRootReply_eq]; rfl
    omega
  have hcur₀ : s₀.cur = ⟨none, -1, 0, none, some k, s.privdata⟩ := by
    rw [RedisReader.cur, hridx, Int.toNat_natCast, hstack, if_pos rfl]
  have hk₀ : s₀.rstack k = task := by
    rw [hstack, if_neg (by omega), if_pos rfl]
  have htask : task = { s.cur with type := some .array, elements := n, obj := some t.loc } := by
    simp only [task, typed_cur]
  refine ⟨s₀, ?_, ?_, ?_, ?_, ?_, ?_, fun rest => ?_⟩
  · exact {
      error := by simp only [s₀, setRootReply_eq]; exact h.error
      ridx := hridx
      type := by rw [hcur₀]
      idx := by rw [hcur₀]; rfl
      parent := by rw [hcur₀]
      array := by rw [hk₀, htask]
      elements := by rw [hk₀, htask]
      obj := by rw [hk₀, htask]
      mem := by simp only [s₀, setRootReply_eq]; rfl }
  · simp only [s₀, setRootReply_eq]
    rfl
  · intro j hj
    rw [hstack, if_neg (by omega), if_neg (by omega)]
  · rw [hk₀, htask]
  · rw [hk₀, htask]
  · have : s₀.reply = if decide (s.ridx = 0) then some t.loc else s.reply := by
      simp only [s₀, setRootReply_eq]
      rfl
    rw [this]
    simp [hi]
  · rw [← hitem]
    have hp := @parseTyped_array (typed s .array) n (by omega) (by omega) hcur rest
    rw [show decimalInt (n : ℤ) = decimal n by simp [decimalInt]] at hp
    exact h.drain_item (rfl : replyTypeOf 42 = some .array) (fun _ => hk) hp

/-- Every reply that fits below level `k` is read there, by induction on its depth. -/
theorem reads_of_sound {d k : ℕ} (hk : k + d = 2) {e : Reply} (he : e.Sound d) : Reads k e := by
  induction d generalizing k e with
  | zero => exact fun h => h.scalar he
  | succ d ih =>
      intro s t f h
      cases e with
      | nilArray =>
          obtain ⟨s', hb, hd⟩ := h.emptyArray (by omega) (show -2 ^ 63 ≤ (-1 : ℤ) by decide)
            (by decide)
          exact ⟨s', by rw [Reply.value]; exact hb, hd⟩
      | array es =>
          rw [Reply.value_array]
          by_cases hes : es = []
          · subst hes
            exact h.emptyArray (by omega) (show -2 ^ 63 ≤ (0 : ℤ) by decide) le_rfl
          · obtain ⟨s₀, hin, hpriv, hbelow, hidx, hparent, hreply, hd₀⟩ :=
              h.header (by omega) (List.length_pos_of_ne_nil hes) he.1
            obtain ⟨s', hframe, hridx, hmem, hd⟩ := hin.rest h.place hes
              (fun e hm => ih (by omega) (he.2 e hm)) (Nat.zero_add _).symm
            have hcur : s'.cur = s₀.rstack k := by
              rw [RedisReader.cur, hridx, Int.toNat_natCast, hframe.below k le_rfl]
            refine ⟨s', ?_, fun rest => ?_⟩
            · exact {
                error := hframe.error.trans hin.error
                ridx := hridx
                mem := hmem
                privdata := hframe.privdata.trans hpriv
                below := fun j hj => (hframe.below j hj.le).trans (hbelow j hj)
                idx := by rw [hcur, hidx]
                parent := by rw [hcur, hparent]
                reply := hframe.reply.trans hreply }
            · rw [show (Reply.array es).encode ++ rest =
                42 :: (decimal es.length ++ CRLF) ++ (Reply.encodeAll es ++ rest) by
                  simp [Reply.encode, Reply.typeByte, Reply.payload], hd₀, hd]
      | _ => exact h.scalar he

/-- The reader between two replies, with the variable `x` for the next one. -/
structure Idle (s : RedisReader) (x : ℕ) : Prop where
  error : s.error = none
  ridx : s.ridx = -1
  reply : s.reply = none
  privdata : s.privdata = some x

/-- From the state `s₀` the reader reads exactly the reply `e`, whatever follows
it, and stops with the object `o` in the state `s'`. -/
structure Finishes (s₀ s' : RedisReader) (o : Loc) (e : Reply) : Prop where
  resting : Resting s₀
  drained : ∀ rest, drain parseStep (.ok s₀) (e.encode ++ rest) = (.ok s', rest)
  error : s'.error = none
  ridx : s'.ridx = -1
  reply : s'.reply = some o

def RedisReader.emitted (s : RedisReader) : RedisReader := { s with reply := none }

/-- An idle reader starts at the type byte of the reply, with the variable as its place. -/
theorem Idle.awaits {s : RedisReader} {x : ℕ} {z : Zval} (hs : Idle s x) (hz : s.mem x = some z) :
    Awaits (startReply s) 0 (.root x) (s.mem.set x) := by
  have hstart : startReply s = { s with
      rstack := Function.update s.rstack 0 ⟨none, -1, -1, none, none, s.privdata⟩
      ridx := 0 } := by
    rw [startReply, if_pos hs.ridx]
  have hcur : (startReply s).cur = ⟨none, -1, -1, none, none, some x⟩ := by
    rw [hstart, RedisReader.cur, ← hs.privdata]
    simp
  exact {
    error := by rw [hstart]; exact hs.error
    ridx := by rw [hstart]; rfl
    type := by rw [hcur]
    parent := by rw [hcur]; simp
    target := by rw [hcur]; rfl
    place := by rw [hstart]; exact open_root hz }

theorem moveToNextTask_root {s : RedisReader} (hi : s.ridx = 0) : moveToNextTask s = .ok s.pop := by
  rw [moveToNextTask, hi]
  change moveToNextTaskFor 1 s = _
  rw [moveToNextTaskFor, if_neg (by omega), if_pos hi]

/-- An idle reader reads exactly one reply and builds its value in the variable. -/
theorem Idle.finishes {s : RedisReader} {x : ℕ} {z : Zval} (hs : Idle s x) (hz : s.mem x = some z)
    {e : Reply} (he : e.Sound 2) :
    ∃ s', Finishes (startReply s) s' ⟨x, []⟩ e ∧ Idle s'.emitted x ∧
      s'.mem = s.mem.set x e.value := by
  have haw := hs.awaits hz
  obtain ⟨s', hb, hd⟩ := reads_of_sound rfl he haw
  have hi : s'.ridx = 0 := hb.ridx
  have hend := moveToNextTask_root hi
  have hpop : s'.pop.ridx = -1 := by
    simp only [RedisReader.pop, hi]
    rfl
  have hpriv : s'.privdata = some x := by
    rw [hb.privdata, startReply, if_pos hs.ridx]
    exact hs.privdata
  refine ⟨s'.pop, ⟨resting_of_ready haw.error (Or.inr haw.type), fun rest => ?_, hb.error, hpop,
    hb.reply⟩, ⟨hb.error, hpop, rfl, hpriv⟩, hb.mem⟩
  rw [hd, hend]
  exact drain_stop (parseStep_stopped (by rw [hpop]; decide) rest)

end PhpHiredis.Reader
