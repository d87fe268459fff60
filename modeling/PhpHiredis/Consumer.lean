import PhpHiredis.Library.Incremental
import PhpHiredis.Scanning

/-!
# The reader as an incremental consumer

`parseStep` is one step of the reader, stated on the unread bytes alone: the
type byte of an item, or the rest of the item. What it does with some bytes
does not depend on the bytes after them, and it leaves a reader that was
waiting for bytes waiting for bytes, or stopped.
-/
namespace PhpHiredis.Reader

open Library Library.Incremental

def RedisReader.withBuf (s : RedisReader) (b : Bytes) (p l : ℕ) : RedisReader :=
  { s with buf := b, pos := p, len := l }

section
variable (s : RedisReader) (b : Bytes) (p l : ℕ)

@[simp] theorem withBuf_error : (s.withBuf b p l).error = s.error := rfl
@[simp] theorem withBuf_reply : (s.withBuf b p l).reply = s.reply := rfl
@[simp] theorem withBuf_rstack : (s.withBuf b p l).rstack = s.rstack := rfl
@[simp] theorem withBuf_ridx : (s.withBuf b p l).ridx = s.ridx := rfl
@[simp] theorem withBuf_privdata : (s.withBuf b p l).privdata = s.privdata := rfl
@[simp] theorem withBuf_mem : (s.withBuf b p l).mem = s.mem := rfl
@[simp] theorem withBuf_cur : (s.withBuf b p l).cur = s.cur := rfl
@[simp] theorem withBuf_buf : (s.withBuf b p l).buf = b := rfl
@[simp] theorem withBuf_pos : (s.withBuf b p l).pos = p := rfl
@[simp] theorem withBuf_len : (s.withBuf b p l).len = l := rfl
@[simp] theorem withBuf_unread : (s.withBuf b p l).unread = b.drop p := rfl
@[simp] theorem withBuf_setCur (t : RedisReadTask) :
    (s.withBuf b p l).setCur t = (s.setCur t).withBuf b p l := rfl

@[simp] theorem withBuf_withBuf (b' : Bytes) (p' l' : ℕ) :
    (s.withBuf b p l).withBuf b' p' l' = s.withBuf b' p' l' := rfl

theorem setRootReply_withBuf (root : Bool) (o : Loc) :
    setRootReply root o (s.withBuf b p l) = (setRootReply root o s).withBuf b p l := by
  cases root <;> rfl

theorem tryParentize_withBuf (task : RedisReadTask) (fill : Zval → Zval) :
    tryParentize (s.withBuf b p l) task fill =
      (tryParentize s task fill >>= fun x => .ok (x.1, x.2.withBuf b p l)) := by
  unfold tryParentize
  cases task.parent with
  | some k =>
      simp only [withBuf_rstack, withBuf_mem]
      cases (s.rstack k).obj with
      | none => rfl
      | some o => simp only [bind_assoc, Outcome.pure_eq, Outcome.ok_bind]; rfl
  | none =>
      cases task.privdata with
      | none => rfl
      | some x =>
          simp only [withBuf_mem]
          cases s.mem x <;> rfl

end

theorem moveToNextTaskFor_frame (g : RedisReader → RedisReader)
    (hr : ∀ s, (g s).rstack = s.rstack) (hi : ∀ s, (g s).ridx = s.ridx)
    (hpop : ∀ s, g s.pop = (g s).pop)
    (hset : ∀ s t, g (s.setCur t) = (g s).setCur t) (n : ℕ) (s : RedisReader) :
    moveToNextTaskFor n (g s) = (moveToNextTaskFor n s >>= fun s => .ok (g s)) := by
  have hcur : ∀ s, (g s).cur = s.cur := fun s => by rw [RedisReader.cur, hr, hi, RedisReader.cur]
  induction n generalizing s with
  | zero => rfl
  | succ n ih =>
      rw [moveToNextTaskFor, moveToNextTaskFor]
      simp only [hr, hi, hcur]
      split_ifs
      · rfl
      · rw [← hpop, Outcome.ok_bind]
      · rfl
      · rw [← hpop, ih]
      · rw [← hset, Outcome.ok_bind]
      · rfl

theorem moveToNextTask_withBuf (s : RedisReader) (b : Bytes) (p l : ℕ) :
    moveToNextTask (s.withBuf b p l) = (moveToNextTask s >>= fun s => .ok (s.withBuf b p l)) :=
  moveToNextTaskFor_frame (fun s => s.withBuf b p l) (fun _ => rfl) (fun _ => rfl)
    (fun _ => rfl) (fun _ _ => rfl) _ s

theorem moveToNextTask_setRootReply (root : Bool) (o : Loc) (s : RedisReader) :
    moveToNextTask (setRootReply root o s) =
      (moveToNextTask s >>= fun s => .ok (setRootReply root o s)) := by
  cases root with
  | false => exact (bind_pure (moveToNextTask s)).symm
  | true =>
      exact moveToNextTaskFor_frame (setRootReply true o) (fun _ => rfl) (fun _ => rfl)
        (fun _ => rfl) (fun _ _ => rfl) _ s

theorem tryParentize_ok {s s' : RedisReader} {task : RedisReadTask} {fill : Zval → Zval} {o : Loc}
    (h : tryParentize s task fill = .ok (o, s')) : ∃ mem, s' = { s with mem := mem } := by
  unfold tryParentize at h
  split at h
  · split at h
    · cases h
    · obtain ⟨mem, -, he⟩ := Outcome.bind_eq_ok.mp h
      cases he
      exact ⟨mem, rfl⟩
  · split at h
    · cases h
    · split at h <;> cases h
      exact ⟨_, rfl⟩

theorem moveToNextTaskFor_ok {n : ℕ} {s s' : RedisReader} (hn : (s.ridx + 1).toNat ≤ n)
    (h : moveToNextTaskFor n s = .ok s') :
    s'.error = s.error ∧ s'.mem = s.mem ∧ s'.reply = s.reply ∧ s'.privdata = s.privdata ∧
      (s'.ridx < 0 ∨ s'.cur.type = none) := by
  induction n generalizing s with
  | zero =>
      cases h
      exact ⟨rfl, rfl, rfl, rfl, Or.inl (by omega)⟩
  | succ n ih =>
      rw [moveToNextTaskFor] at h
      simp only [] at h
      split_ifs at h with h₁ h₂ h₃ h₄
      · cases h
        exact ⟨rfl, rfl, rfl, rfl, Or.inl h₁⟩
      · cases h
        exact ⟨rfl, rfl, rfl, rfl, Or.inl (by simp [RedisReader.pop, h₂])⟩
      · obtain ⟨h₅, h₆, h₇, h₈, h₉⟩ := ih (by simp only [RedisReader.pop]; omega) h
        exact ⟨h₅, h₆, h₇, h₈, h₉⟩
      · cases h
        exact ⟨rfl, rfl, rfl, rfl, Or.inr (by simp [RedisReader.setCur, RedisReader.cur])⟩

theorem moveToNextTask_ok {s s' : RedisReader} (h : moveToNextTask s = .ok s') :
    s'.error = s.error ∧ s'.mem = s.mem ∧ s'.reply = s.reply ∧ s'.privdata = s.privdata ∧
      (s'.ridx < 0 ∨ s'.cur.type = none) :=
  moveToNextTaskFor_ok le_rfl h

/-- An item is complete: its object becomes the reply if it is the root. -/
def finishItem (x : Loc × RedisReader) : Run RedisReader :=
  moveToNextTask (setRootReply (x.2.ridx = 0) x.1 x.2)

/-- A line or a bulk string of length `len` at `str`. -/
def textItem (s : RedisReader) (str : Bytes) (len : ℕ) : Run RedisReader :=
  createStringObject s s.cur str len >>= finishItem

def integerItem (s : RedisReader) (value : ℤ) : Run RedisReader :=
  createIntegerObject s s.cur value >>= finishItem

def nilItem (s : RedisReader) : Run RedisReader :=
  createNilObject s s.cur >>= finishItem

def arrayItem (s : RedisReader) (elements : ℤ) : Run RedisReader :=
  let root : Bool := s.ridx = 0
  if elements = -1 then do
    let (obj, s) ← createNilObject s s.cur
    let s ← moveToNextTask s
    return setRootReply root obj s
  else do
    let (obj, s') ← createArrayObject s s.cur (wrap 32 elements)
    if 0 < elements then
      return setRootReply root obj
        (pushTask (s'.setCur { s.cur with elements := wrap 32 elements, obj := some obj }))
    else
      let s' ← moveToNextTask s'
      return setRootReply root obj s'

def parseTyped (s : RedisReader) (xs : Bytes) : Option (Run RedisReader × Bytes) :=
  match findCRLF xs with
  | none => none
  | some i =>
      match s.cur.type with
      | some .integer => some (integerItem s (readLongLong xs), xs.drop (i + 2))
      | some .error | some .status => some (textItem s (xs.take i) i, xs.drop (i + 2))
      | some .string =>
          let len := readLongLong xs
          let bytelen := i + 2 + (len.toNat + 2)
          if len < 0 then some (nilItem s, xs.drop (i + 2))
          else if bytelen ≤ xs.length then
            some (textItem s ((xs.drop (i + 2)).take len.toNat) len.toNat, xs.drop bytelen)
          else none
      | some .array => some (arrayItem s (readLongLong xs), xs.drop (i + 2))
      | _ => none

/-- A protocol error, the buffer apart. -/
def RedisReader.fail (s : RedisReader) (err : Bytes) : RedisReader :=
  { s with ridx := -1, error := some err }

def typeStep (s : RedisReader) (b : UInt8) : RedisReader :=
  match replyTypeOf b with
  | some t =>
      let s' := s.setCur { s.cur with type := some t }
      if t = .array ∧ s.ridx = 2 then s'.fail depthError else s'
  | none => s.fail (typeByteError b)

def parseItem (s : RedisReader) (xs : Bytes) : Option (Run RedisReader × Bytes) :=
  match s.cur.type with
  | none =>
      match xs with
      | [] => none
      | b :: ys => some (.ok (typeStep s b), ys)
  | some _ => parseTyped s xs

theorem parseItem_typed {s : RedisReader} (h : s.cur.type ≠ none) (xs : Bytes) :
    parseItem s xs = parseTyped s xs := by
  unfold parseItem
  split
  · exact absurd ‹_› h
  · rfl

theorem parseItem_nil {s : RedisReader} (h : s.cur.type = none) : parseItem s [] = none := by
  simp only [parseItem, h]

theorem parseItem_cons {s : RedisReader} (h : s.cur.type = none) (b : UInt8) (ys : Bytes) :
    parseItem s (b :: ys) = some (.ok (typeStep s b), ys) := by
  simp only [parseItem, h]

/-- One step of the reader on the unread bytes. -/
def parseStep : Consumer (Run RedisReader) UInt8
  | .ok s, xs => if s.ridx < 0 then none else parseItem s xs
  | _, _ => none

theorem parseStep_ok {s : RedisReader} (h : 0 ≤ s.ridx) (xs : Bytes) :
    parseStep (.ok s) xs = parseItem s xs := by
  rw [parseStep, if_neg (by omega)]

theorem parseStep_stopped {s : RedisReader} (h : s.ridx < 0) (xs : Bytes) :
    parseStep (.ok s) xs = none := by
  rw [parseStep, if_pos h]

theorem drop_suffix_lt {xs : Bytes} {n : ℕ} (h : 0 < n) (hn : n ≤ xs.length) :
    xs.drop n <:+ xs ∧ (xs.drop n).length < xs.length := by
  refine ⟨List.drop_suffix n xs, ?_⟩
  rw [List.length_drop]
  omega

theorem parseTyped_takes {s : RedisReader} {xs ys : Bytes} {x : Run RedisReader}
    (h : parseTyped s xs = some (x, ys)) : ys <:+ xs ∧ ys.length < xs.length := by
  unfold parseTyped at h
  split at h
  · cases h
  · rename_i i hi
    have hl := findCRLF_le hi
    split at h
    · cases h
      exact drop_suffix_lt (by omega) hl
    · cases h
      exact drop_suffix_lt (by omega) hl
    · cases h
      exact drop_suffix_lt (by omega) hl
    · simp only [] at h
      split_ifs at h with h₁ h₂
      · cases h
        exact drop_suffix_lt (by omega) hl
      · cases h
        exact drop_suffix_lt (by omega) h₂
    · cases h
      exact drop_suffix_lt (by omega) hl
    · cases h

theorem parseTyped_extend {s : RedisReader} {xs ys : Bytes} {x : Run RedisReader}
    (h : parseTyped s xs = some (x, ys)) (zs : Bytes) :
    parseTyped s (xs ++ zs) = some (x, ys ++ zs) := by
  unfold parseTyped at h ⊢
  cases hi : findCRLF xs with
  | none =>
      rw [hi] at h
      cases h
  | some i =>
      have hl := findCRLF_le hi
      rw [hi] at h
      rw [findCRLF_append hi]
      simp only [readLongLong_append hi, List.drop_append_of_le_length hl,
        List.take_append_of_le_length (show i ≤ xs.length by omega)] at h ⊢
      split at h
      · cases h; rfl
      · cases h; rfl
      · cases h; rfl
      · split_ifs at h with h₁ h₂
        · cases h
          rw [if_pos h₁]
        · cases h
          have hd : (readLongLong xs).toNat ≤ (xs.drop (i + 2)).length := by
            rw [List.length_drop]
            omega
          rw [if_neg h₁, if_pos (by rw [List.length_append]; omega),
            List.take_append_of_le_length hd, List.drop_append_of_le_length h₂]
      · cases h; rfl
      · cases h

/-- What the reader does with some bytes does not depend on those after them. -/
theorem parseStep_local : Local parseStep where
  takes := by
    intro s xs s' ys h
    cases s with
    | ok s =>
        simp only [parseStep] at h
        split_ifs at h
        unfold parseItem at h
        split at h
        · cases xs with
          | nil => cases h
          | cons b xs =>
              cases h
              exact ⟨List.suffix_cons b _, Nat.lt_succ_self _⟩
        · exact parseTyped_takes h
    | fault e => cases h
    | blocked => cases h
  extend := by
    intro s xs s' ys h zs
    cases s with
    | ok s =>
        simp only [parseStep] at h ⊢
        split_ifs at h ⊢
        unfold parseItem at h ⊢
        split at h
        · cases xs with
          | nil => cases h
          | cons b xs =>
              cases h
              rfl
        · exact parseTyped_extend h zs
    | fault e => cases h
    | blocked => cases h

/-- What holds of a reader whenever it can be waiting for bytes. -/
def Resting (s : RedisReader) : Prop :=
  0 ≤ s.ridx → s.error = none ∧ s.cur.type ≠ some .nil ∧ (s.cur.type = some .array → s.ridx ≠ 2)

theorem resting_of_stopped {s : RedisReader} (h : s.ridx < 0) : Resting s :=
  fun h' => absurd h (by omega)

theorem resting_of_ready {s : RedisReader} (he : s.error = none)
    (h : s.ridx < 0 ∨ s.cur.type = none) : Resting s := by
  intro h0
  rcases h with h | h
  · omega
  · simp [h, he]

theorem finishItem_ok {s s' : RedisReader} {task : RedisReadTask} {fill : Zval → Zval}
    (h : (tryParentize s task fill >>= finishItem) = .ok s') :
    s'.error = s.error ∧ (s'.ridx < 0 ∨ s'.cur.type = none) := by
  obtain ⟨⟨o, s₁⟩, h₁, h₂⟩ := Outcome.bind_eq_ok.mp h
  obtain ⟨mem, rfl⟩ := tryParentize_ok h₁
  obtain ⟨he, -, -, -, hr⟩ := moveToNextTask_ok h₂
  refine ⟨?_, hr⟩
  rw [he]
  unfold setRootReply
  split_ifs <;> rfl

theorem arrayItem_ok {s s' : RedisReader} {elements : ℤ} (h : arrayItem s elements = .ok s') :
    s'.error = s.error ∧ (s'.ridx < 0 ∨ s'.cur.type = none) := by
  have hroot : ∀ (root : Bool) (o : Loc) (t : RedisReader),
      (setRootReply root o t).error = t.error ∧ (setRootReply root o t).ridx = t.ridx ∧
        (setRootReply root o t).cur = t.cur := by
    intro root o t
    cases root <;> exact ⟨rfl, rfl, rfl⟩
  -- an array without elements, the nil one included
  have hwhole : ∀ {root : Bool} {o : Loc} {mem : Mem},
      (moveToNextTask { s with mem := mem } >>= fun r => .ok (setRootReply root o r)) = .ok s' →
        s'.error = s.error ∧ (s'.ridx < 0 ∨ s'.cur.type = none) := by
    intro root o mem h
    obtain ⟨r, hmove, h⟩ := Outcome.bind_eq_ok.mp h
    obtain ⟨he, -, -, -, hr⟩ := moveToNextTask_ok hmove
    cases h
    rw [(hroot _ _ _).1, (hroot _ _ _).2.1, (hroot _ _ _).2.2]
    exact ⟨he, hr⟩
  unfold arrayItem at h
  simp only [] at h
  split_ifs at h with h₁ h₂
  · obtain ⟨⟨o, s₁⟩, h₃, h⟩ := Outcome.bind_eq_ok.mp h
    obtain ⟨mem, rfl⟩ := tryParentize_ok h₃
    exact hwhole h
  · obtain ⟨⟨o, s₁⟩, h₃, h⟩ := Outcome.bind_eq_ok.mp h
    obtain ⟨mem, rfl⟩ := tryParentize_ok h₃
    cases h
    rw [(hroot _ _ _).1, (hroot _ _ _).2.2]
    exact ⟨rfl, Or.inr (by simp [pushTask, RedisReader.cur])⟩
  · obtain ⟨⟨o, s₁⟩, h₃, h⟩ := Outcome.bind_eq_ok.mp h
    obtain ⟨mem, rfl⟩ := tryParentize_ok h₃
    exact hwhole h

theorem parseTyped_ok {s s' : RedisReader} {xs ys : Bytes}
    (h : parseTyped s xs = some (.ok s', ys)) :
    s'.error = s.error ∧ (s'.ridx < 0 ∨ s'.cur.type = none) := by
  unfold parseTyped at h
  split at h
  · cases h
  · split at h
    · exact finishItem_ok (congrArg Prod.fst (Option.some.inj h))
    · exact finishItem_ok (congrArg Prod.fst (Option.some.inj h))
    · exact finishItem_ok (congrArg Prod.fst (Option.some.inj h))
    · simp only [] at h
      split_ifs at h
      · exact finishItem_ok (congrArg Prod.fst (Option.some.inj h))
      · exact finishItem_ok (congrArg Prod.fst (Option.some.inj h))
    · exact arrayItem_ok (congrArg Prod.fst (Option.some.inj h))
    · cases h

theorem replyTypeOf_ne_nil {b : UInt8} {ty : ReplyType} (h : replyTypeOf b = some ty) :
    ty ≠ .nil := by
  rintro rfl
  unfold replyTypeOf at h
  split_ifs at h <;> cases h

theorem typeStep_resting {s : RedisReader} (he : s.error = none) (b : UInt8) :
    Resting (typeStep s b) := by
  unfold typeStep
  split
  · rename_i t ht
    simp only []
    split_ifs with hd
    · exact resting_of_stopped (by simp [RedisReader.fail])
    · intro _
      refine ⟨he, ?_, ?_⟩
      · simpa [RedisReader.setCur, RedisReader.cur] using replyTypeOf_ne_nil ht
      · intro ha h2
        exact hd ⟨by simpa [RedisReader.setCur, RedisReader.cur] using ha, h2⟩
  · exact resting_of_stopped (by simp [RedisReader.fail])

theorem parseStep_resting {s s' : RedisReader} {xs ys : Bytes} (hr : Resting s)
    (h : parseStep (.ok s) xs = some (.ok s', ys)) : Resting s' := by
  rw [parseStep] at h
  split_ifs at h with h0
  have he := (hr (by omega)).1
  unfold parseItem at h
  split at h
  · cases xs with
    | nil => cases h
    | cons b xs =>
        cases h
        exact typeStep_resting he b
  · obtain ⟨he', hready⟩ := parseTyped_ok h
    exact resting_of_ready (he'.trans he) hready

end PhpHiredis.Reader
