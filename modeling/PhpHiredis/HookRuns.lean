import PhpHiredis.HookSafety

/-!
# Runs of the reader on any bytes

A run of the reader: chunks are fed and replies asked for in any order, the private
data is set, and the caller does as it likes with zvals other than the one a reply
is being built in. `hooks_safe` is about every state of every such run.
-/
namespace PhpHiredis

open Library

namespace Reader

/-- The states in which the loop comes to an item. -/
def turns : ℕ → RedisReader → List RedisReader
  | 0, _ => []
  | n + 1, s =>
      if s.ridx < 0 then []
      else s :: match processItem s with
        | .ok (true, s') => turns n s'
        | _ => []

def callsAt (states : List RedisReader) : List HookCall :=
  states.filterMap fun s => (itemPlan s).call

theorem callsAt_skip {s : RedisReader} (h : (itemPlan s).call = none) (states : List RedisReader) :
    callsAt (s :: states) = callsAt states := List.filterMap_cons_none h

theorem callsAt_call {s : RedisReader} {c : HookCall} (h : (itemPlan s).call = some c)
    (states : List RedisReader) : callsAt (s :: states) = c :: callsAt states :=
  List.filterMap_cons_some h

def madeBy (calls : List HookCall) : List Loc := calls.flatMap HookCall.created

/-- Each call is safe with the arrays made before it. -/
def AllSafe (made : List Loc) : List HookCall → Prop
  | [] => True
  | c :: cs => c.Safe made ∧ AllSafe (made ++ c.created) cs

theorem AllSafe.at {made : List Loc} {before after : List HookCall} {c : HookCall}
    (h : AllSafe made (before ++ c :: after)) : c.Safe (made ++ madeBy before) := by
  induction before generalizing made with
  | nil =>
      rw [madeBy, List.flatMap_nil, List.append_nil]
      exact h.1
  | cons b before ih =>
      rw [madeBy, List.flatMap_cons, ← List.append_assoc]
      exact ih h.2

/-- What is known of the loop when it ends: `states` are its turns, and `x` its result. -/
structure LoopSafe (made : List Loc) (states : List RedisReader) (x : Run RedisReader) : Prop where
  bounds : ∀ s ∈ states, 0 ≤ s.ridx ∧ s.ridx ≤ 2
  calls : AllSafe made (callsAt states)
  result : Proceeds (Building (made ++ madeBy (callsAt states))) x

theorem loopSafe_nil {made : List Loc} {x : Run RedisReader} (h : Proceeds (Building made) x) :
    LoopSafe made [] x where
  bounds := fun _ hs => absurd hs List.not_mem_nil
  calls := trivial
  result := by
    rw [callsAt, List.filterMap_nil, madeBy, List.flatMap_nil, List.append_nil]
    exact h

theorem LoopSafe.skip {made : List Loc} {s : RedisReader} {states : List RedisReader}
    {x : Run RedisReader} (h : LoopSafe made states x) (hs : 0 ≤ s.ridx ∧ s.ridx ≤ 2)
    (hcall : (itemPlan s).call = none) : LoopSafe made (s :: states) x := by
  have hcalls := callsAt_skip hcall states
  exact {
    bounds := List.forall_mem_cons.mpr ⟨hs, h.bounds⟩
    calls := by rw [hcalls]; exact h.calls
    result := by rw [hcalls]; exact h.result }

theorem LoopSafe.call {made : List Loc} {s : RedisReader} {states : List RedisReader}
    {x : Run RedisReader} {c : HookCall} (h : LoopSafe (made ++ c.created) states x)
    (hs : 0 ≤ s.ridx ∧ s.ridx ≤ 2) (hcall : (itemPlan s).call = some c) (hsafe : c.Safe made) :
    LoopSafe made (s :: states) x := by
  have hcalls := callsAt_call hcall states
  exact {
    bounds := List.forall_mem_cons.mpr ⟨hs, h.bounds⟩
    calls := by rw [hcalls]; exact ⟨hsafe, h.calls⟩
    result := by
      rw [hcalls, madeBy, List.flatMap_cons, ← List.append_assoc]
      exact h.result }

/-- The invariant of the loop, by induction on its turns. -/
theorem Building.loop {made : List Loc} {s : RedisReader} (h : Building made s) (n : ℕ)
    (hfits : ∀ c ∈ callsAt (turns n s), c.Fits) :
    LoopSafe made (turns n s) (processItems n s) := by
  induction n generalizing made s with
  | zero => exact loopSafe_nil h
  | succ n ih =>
      rw [turns] at hfits ⊢
      rw [processItems]
      split_ifs at hfits ⊢ with hneg
      · exact loopSafe_nil h
      · obtain hidle | ⟨k, hbusy⟩ := h
        · omega
        have hplan := hbusy.itemPlan
        have hitem := processItem_eq s
        have hs : 0 ≤ s.ridx ∧ s.ridx ≤ 2 :=
          ⟨by omega, (Building.bounds (Or.inr ⟨k, hbusy⟩)).2⟩
        cases hp : itemPlan s with
        | asserts =>
            rw [hp] at hplan
            exact hplan.elim
        | returns success r =>
            rw [hp] at hplan hitem
            obtain ⟨rfl, hb⟩ := hplan
            rw [hitem]
            exact (loopSafe_nil (show Proceeds (Building made) (.ok r) from hb)).skip hs
              (by rw [hp]; rfl)
        | calls c next =>
            rw [hp] at hplan hitem
            obtain ⟨hsafe, hproceeds⟩ := hplan
            have hcall : (itemPlan s).call = some c := by rw [hp]; rfl
            rw [hitem] at hfits ⊢
            rw [callsAt_call hcall, List.forall_mem_cons] at hfits
            have hx := hproceeds hfits.1
            rw [Plan.run] at hfits ⊢
            cases hrun : c.run >>= next with
            | fault e =>
                rw [hrun] at hx
                exact (loopSafe_nil (show Proceeds (Building _) (.fault e) from hx)).call hs hcall
                  hsafe
            | blocked =>
                rw [hrun] at hx
                exact hx.elim
            | ok y =>
                obtain ⟨success, r⟩ := y
                rw [hrun] at hx hfits
                obtain ⟨rfl, hb⟩ := hx
                exact (ih hb hfits.2).call hs hcall hsafe

def getReplyTurns (s : RedisReader) : List RedisReader :=
  if s.len = 0 then [] else turns (s.len - s.pos + 1) (startReply s)

def getReplyCalls (s : RedisReader) : List HookCall := callsAt (getReplyTurns s)

theorem Building.discardConsumed {made : List Loc} {s : RedisReader} (h : Building made s) :
    Building made (discardConsumed s) := by
  unfold Reader.discardConsumed
  split_ifs <;> exact h.congr rfl rfl rfl rfl

theorem Building.emitReply {made : List Loc} {s : RedisReader} (h : Building made s) :
    Building made (emitReply s).2.2 := by
  unfold Reader.emitReply
  split_ifs with hi
  · cases s.error <;> exact Or.inl hi
  · exact h

theorem Building.startReply {made : List Loc} {s : RedisReader} (h : Building made s) :
    Building (if s.ridx = -1 then [] else made) (startReply s) := by
  unfold Reader.startReply
  split_ifs with hi
  · refine Or.inr ⟨0, {
      ridx := rfl
      depth := by omega
      type := by simp [RedisReader.cur]
      root := by simp [RedisReader.cur]
      inside := fun h0 => absurd h0 (lt_irrefl 0) }⟩
  · exact h

theorem Building.getReply {made : List Loc} {s : RedisReader} (h : Building made s)
    (hfits : ∀ c ∈ getReplyCalls s, c.Fits) :
    LoopSafe (if s.ridx = -1 then [] else made) (getReplyTurns s)
      (redisReplyReaderGetReply s >>= fun x => .ok x.2.2) := by
  rw [getReplyCalls, getReplyTurns] at hfits
  rw [getReplyTurns, redisReplyReaderGetReply]
  by_cases hlen : s.len = 0
  · rw [if_pos hlen, if_pos hlen]
    refine loopSafe_nil (show Building _ s from ?_)
    split_ifs with hi
    · exact Or.inl hi
    · exact h
  · rw [if_neg hlen] at hfits
    rw [if_neg hlen, if_neg hlen]
    have hloop := h.startReply.loop _ hfits
    have hfuel : (Reader.startReply s).len - (Reader.startReply s).pos = s.len - s.pos := by
      unfold Reader.startReply
      split_ifs <;> rfl
    refine { hloop with result := ?_ }
    have hresult := hloop.result
    simp only [hfuel, bind_assoc, Outcome.pure_eq, Outcome.ok_bind]
    cases hx : processItems (s.len - s.pos + 1) (Reader.startReply s) with
    | ok r =>
        rw [hx] at hresult
        exact (show Building _ r from hresult).discardConsumed.emitReply
    | fault e =>
        rw [hx] at hresult
        exact hresult
    | blocked =>
        rw [hx] at hresult
        exact hresult

/-- The cursor is within the buffer. -/
def Buffered (s : RedisReader) : Prop := s.len = s.buf.length ∧ s.pos ≤ s.len

/-- What an error leaves: an empty buffer, with the length of the old one. -/
def Emptied (s : RedisReader) : Prop := s.buf = [] ∧ s.pos = 0 ∧ s.ridx = -1

/-- `s'` has the buffer of `s`, with the cursor `n` bytes on. -/
structure Moved (s s' : RedisReader) (n : ℕ) : Prop where
  buf : s'.buf = s.buf
  len : s'.len = s.len
  pos : s'.pos = s.pos + n

theorem Moved.trans {s₁ s₂ s₃ : RedisReader} {m n : ℕ} (h : Moved s₁ s₂ m) (h' : Moved s₂ s₃ n) :
    Moved s₁ s₃ (m + n) where
  buf := h'.buf.trans h.buf
  len := h'.len.trans h.len
  pos := by rw [h'.pos, h.pos, Nat.add_assoc]

theorem Buffered.moved {s s' : RedisReader} {n : ℕ} (h : Buffered s) (hmoved : Moved s s' n)
    (hle : s.pos + n ≤ s.len) : Buffered s' := by
  constructor
  · rw [hmoved.len, hmoved.buf, h.1]
  · rw [hmoved.len, hmoved.pos]
    exact hle

theorem moved_startReply (s : RedisReader) : Moved s (startReply s) 0 := by
  unfold startReply
  split_ifs <;> exact ⟨rfl, rfl, rfl⟩

theorem moved_moveToNextTask {s s' : RedisReader} (h : moveToNextTask s = .ok s') :
    Moved s s' 0 := by
  have hs : moveToNextTask (s.withBuf s.buf s.pos s.len) = .ok s' := h
  rw [moveToNextTask_withBuf] at hs
  obtain ⟨r, -, hr⟩ := Outcome.bind_eq_ok.mp hs
  cases hr
  exact ⟨rfl, rfl, rfl⟩

theorem moved_setRootReply (root : Bool) (o : Loc) (s : RedisReader) :
    Moved s (setRootReply root o s) 0 := by
  cases root <;> exact ⟨rfl, rfl, rfl⟩

theorem HookCall.moved {c : HookCall} {x : Loc × RedisReader} (h : c.run = .ok x) :
    Moved c.reader x.2 0 := by
  obtain ⟨fill, hrun, -⟩ := c.run_eq
  obtain ⟨mem, hx⟩ := tryParentize_ok (hrun.symm.trans h)
  rw [hx]
  exact ⟨rfl, rfl, rfl⟩

theorem completeItem_moved {n : ℕ} {x : Loc × RedisReader} {y : Bool × RedisReader}
    (h : completeItem n x = .ok y) : Moved x.2 y.2 n := by
  obtain ⟨r, hmove, hy⟩ := Outcome.bind_eq_ok.mp h
  cases hy
  have hstep : Moved x.2 { x.2 with pos := x.2.pos + n } n := ⟨rfl, rfl, rfl⟩
  exact (hstep.trans (moved_setRootReply _ _ _)).trans (moved_moveToNextTask hmove)

theorem completeArray_moved {root : Bool} {x : Loc × RedisReader} {y : Bool × RedisReader}
    (h : completeArray root x = .ok y) : Moved x.2 y.2 0 := by
  obtain ⟨r, hmove, hy⟩ := Outcome.bind_eq_ok.mp h
  cases hy
  exact (moved_moveToNextTask hmove).trans (moved_setRootReply _ _ _)

theorem openArray_moved {root : Bool} {cur : RedisReadTask} {elements : ℤ}
    {x : Loc × RedisReader} {y : Bool × RedisReader} (h : openArray root cur elements x = .ok y) :
    Moved x.2 y.2 0 := by
  cases h
  have hpush : Moved x.2 (pushTask (x.2.setCur
      { cur with elements := wrap 32 elements, obj := some x.1 })) 0 := ⟨rfl, rfl, rfl⟩
  exact hpush.trans (moved_setRootReply _ _ _)

/-- An item that a hook is called for takes bytes that are there. -/
def Plan.Takes (s : RedisReader) : Plan → Prop
  | .returns success r => success = false ∧ (Buffered r ∨ Emptied r)
  | .asserts => True
  | .calls c next => ∀ y, (c.run >>= next) = .ok y →
      ∃ n, 0 < n ∧ s.pos + n ≤ s.len ∧ Moved s y.2 n

theorem Plan.Takes.later {s s' : RedisReader} {p : Plan} {n : ℕ} (h : p.Takes s')
    (hmoved : Moved s s' n) : p.Takes s := by
  cases p with
  | returns success r => exact h
  | asserts => trivial
  | calls c next =>
      intro y hy
      obtain ⟨m, hm, hle, hstep⟩ := h y hy
      have hpos := hmoved.pos
      have hlen := hmoved.len
      exact ⟨n + m, by omega, by omega, hmoved.trans hstep⟩

section
variable {s : RedisReader}

theorem takes_calls {c : HookCall} {next : Loc × RedisReader → Run (Bool × RedisReader)}
    {m n : ℕ} (hm : Moved s c.reader m) (hnext : ∀ x y, next x = .ok y → Moved x.2 y.2 n)
    (hpos : 0 < m + n) (hle : s.pos + (m + n) ≤ s.len) : (Plan.calls c next).Takes s := by
  intro y hy
  obtain ⟨x, hx, hy⟩ := Outcome.bind_eq_ok.mp hy
  exact ⟨m + n, hpos, hle, (hm.trans (HookCall.moved hx)).trans (hnext x y hy)⟩

theorem Buffered.line_le (h : Buffered s) {i : ℕ}
    (hi : seekNewline s.unread (s.len - s.pos) = some i) : s.pos + (i + 2) ≤ s.len := by
  have hlen : s.len - s.pos = s.unread.length := by
    rw [RedisReader.unread, List.length_drop, h.1]
  rw [hlen, seekNewline_eq] at hi
  have hle := findCRLF_le hi
  have hpos := h.2
  omega

theorem Buffered.linePlan (h : Buffered s) : (linePlan s).Takes s := by
  unfold Reader.linePlan readLine
  cases hi : seekNewline s.unread (s.len - s.pos) with
  | none => exact ⟨rfl, Or.inl h⟩
  | some i =>
      exact takes_calls (m := i + 2) ⟨rfl, rfl, rfl⟩ (fun _ _ => completeItem_moved) (by omega)
        (h.line_le hi)

theorem Buffered.bulkPlan (h : Buffered s) : (bulkPlan s).Takes s := by
  unfold Reader.bulkPlan
  simp only []
  cases hi : seekNewline s.unread (s.len - s.pos) with
  | none => exact ⟨rfl, Or.inl h⟩
  | some i =>
      have hle := h.line_le hi
      simp only []
      split_ifs with hneg hall
      · exact takes_calls (m := 0) ⟨rfl, rfl, rfl⟩ (fun _ _ => completeItem_moved) (by omega)
          (by omega)
      · exact takes_calls (m := 0) ⟨rfl, rfl, rfl⟩ (fun _ _ => completeItem_moved) (by omega)
          (by omega)
      · exact ⟨rfl, Or.inl h⟩

theorem Buffered.arrayPlan (h : Buffered s) : (arrayPlan s).Takes s := by
  unfold Reader.arrayPlan readLine
  split_ifs with hdeep
  · exact ⟨rfl, Or.inr ⟨rfl, rfl, rfl⟩⟩
  · cases hi : seekNewline s.unread (s.len - s.pos) with
    | none => exact ⟨rfl, Or.inl h⟩
    | some i =>
        have hle := h.line_le hi
        simp only []
        split_ifs with hnil hpos
        · exact takes_calls (m := i + 2) ⟨rfl, rfl, rfl⟩ (fun _ _ => completeArray_moved)
            (by omega) hle
        · exact takes_calls (m := i + 2) ⟨rfl, rfl, rfl⟩ (fun _ _ => openArray_moved)
            (by omega) hle
        · exact takes_calls (m := i + 2) ⟨rfl, rfl, rfl⟩ (fun _ _ => completeArray_moved)
            (by omega) hle

theorem Buffered.typedPlan (h : Buffered s) : (typedPlan s).Takes s := by
  unfold Reader.typedPlan
  cases s.cur.type with
  | none => trivial
  | some ty =>
      cases ty with
      | error | status | integer => exact h.linePlan
      | string => exact h.bulkPlan
      | array => exact h.arrayPlan
      | nil => trivial

theorem Buffered.itemPlan (h : Buffered s) : (itemPlan s).Takes s := by
  unfold Reader.itemPlan
  cases s.cur.type with
  | some ty => exact h.typedPlan
  | none =>
      simp only [readBytes]
      split_ifs with hbyte
      · simp only []
        cases replyTypeOf (s.unread.getD 0 0) with
        | none => exact ⟨rfl, Or.inr ⟨rfl, rfl, rfl⟩⟩
        | some ty =>
            have hnext : Buffered (typed { s with pos := s.pos + 1 } ty) :=
              ⟨h.1, show s.pos + 1 ≤ s.len by omega⟩
            exact hnext.typedPlan.later (n := 1) ⟨rfl, rfl, rfl⟩
      · exact ⟨rfl, Or.inl h⟩

theorem Buffered.processItem (h : Buffered s) {success : Bool} {r : RedisReader}
    (hitem : processItem s = .ok (success, r)) :
    (success = true → ∃ n, 0 < n ∧ s.pos + n ≤ s.len ∧ Moved s r n) ∧
      (success = false → Buffered r ∨ Emptied r) := by
  have hplan := h.itemPlan
  rw [processItem_eq] at hitem
  cases hp : Reader.itemPlan s with
  | asserts =>
      rw [hp] at hitem
      cases hitem
  | returns b r' =>
      rw [hp] at hitem hplan
      cases hitem
      obtain ⟨rfl, hbuffer⟩ := hplan
      exact ⟨fun hs => absurd hs Bool.false_ne_true, fun _ => hbuffer⟩
  | calls c next =>
      rw [hp] at hitem hplan
      obtain ⟨n, hn, hle, hmoved⟩ := hplan _ hitem
      exact ⟨fun _ => ⟨n, hn, hle, hmoved⟩, fun _ => Or.inl (h.moved hmoved hle)⟩

/-- A turn for each byte that is left, and one more, are all that the loop takes. -/
theorem Buffered.processItems (h : Buffered s) {m n : ℕ} (hm : s.len - s.pos < m)
    (hn : s.len - s.pos < n) :
    processItems m s = processItems n s ∧ turns m s = turns n s := by
  induction m generalizing s n with
  | zero => omega
  | succ m ih =>
      obtain ⟨n, rfl⟩ := Nat.exists_eq_succ_of_ne_zero (show n ≠ 0 by omega)
      rw [Reader.processItems, Reader.processItems, turns, turns]
      split_ifs with hi
      · exact ⟨rfl, rfl⟩
      · cases hx : Reader.processItem s with
        | fault e => exact ⟨rfl, rfl⟩
        | blocked => exact ⟨rfl, rfl⟩
        | ok y =>
            obtain ⟨success, r⟩ := y
            cases success with
            | false => exact ⟨rfl, rfl⟩
            | true =>
                obtain ⟨k, hk, hle, hmoved⟩ := (h.processItem hx).1 rfl
                have hlen := hmoved.len
                have hpos := hmoved.pos
                obtain ⟨hitems, hturns⟩ := ih (n := n) (h.moved hmoved hle) (by omega) (by omega)
                exact ⟨hitems, congrArg (s :: ·) hturns⟩

theorem Buffered.loop (h : Buffered s) {n : ℕ} {r : RedisReader}
    (hr : Reader.processItems n s = .ok r) : Buffered r ∨ Emptied r := by
  induction n generalizing s with
  | zero =>
      cases hr
      exact Or.inl h
  | succ n ih =>
      rw [Reader.processItems] at hr
      split_ifs at hr with hi
      · cases hr
        exact Or.inl h
      · obtain ⟨⟨success, r'⟩, hitem, hr⟩ := Outcome.bind_eq_ok.mp hr
        have hnext := h.processItem hitem
        cases success with
        | false =>
            cases hr
            exact hnext.2 rfl
        | true =>
            obtain ⟨k, -, hle, hmoved⟩ := hnext.1 rfl
            exact ih (h.moved hmoved hle) hr

/-- The NUL behind an empty buffer is no type byte. -/
theorem Emptied.processItem (h : Emptied s) (hlen : s.len ≠ 0) :
    ∃ r, Reader.processItem (startReply s) = .ok (false, r) ∧ Emptied r := by
  obtain ⟨hbuf, hpos, hi⟩ := h
  refine ⟨redisSetReplyReaderError { startReply s with pos := 1 } (typeByteError 0), ?_, rfl, rfl,
    rfl⟩
  rw [startReply, if_pos hi, Reader.processItem]
  simp only [RedisReader.cur, Int.toNat_zero, Function.update_self, readBytes, RedisReader.unread,
    hbuf, hpos]
  rw [if_pos (by omega)]
  rfl

theorem Buffered.startReply (h : Buffered s) : Buffered (startReply s) :=
  h.moved (moved_startReply s) h.2

theorem getReply_turns_suffice (h : Buffered s ∨ Emptied s) (hlen : s.len ≠ 0) {n : ℕ}
    (hn : s.len - s.pos < n) :
    processItems n (startReply s) = processItems (s.len - s.pos + 1) (startReply s) ∧
      turns n (startReply s) = turns (s.len - s.pos + 1) (startReply s) := by
  rcases h with h | h
  · have hstart := moved_startReply s
    rw [← hstart.len, show s.pos = (startReply s).pos from hstart.pos.symm] at hn ⊢
    exact h.startReply.processItems hn (Nat.lt_succ_self _)
  · obtain ⟨r, hitem, -⟩ := h.processItem hlen
    obtain ⟨n, rfl⟩ := Nat.exists_eq_succ_of_ne_zero (show n ≠ 0 by omega)
    rw [processItems, processItems, turns, turns, hitem]
    exact ⟨rfl, rfl⟩

theorem Buffered.discardConsumed (h : Buffered s ∨ Emptied s) :
    Buffered (discardConsumed s) ∨ Emptied (discardConsumed s) := by
  unfold Reader.discardConsumed
  split_ifs
  · exact Or.inl ⟨rfl, Nat.zero_le _⟩
  · exact Or.inl ⟨rfl, Nat.zero_le _⟩
  · exact h

theorem Buffered.emitReply (h : Buffered s ∨ Emptied s) :
    Buffered (emitReply s).2.2 ∨ Emptied (emitReply s).2.2 := by
  unfold Reader.emitReply
  split_ifs
  · cases s.error <;> exact h
  · exact h

theorem Buffered.feed (h : Buffered s ∨ Emptied s) (chunk : Bytes) :
    Buffered (redisReplyReaderFeed s chunk) ∨ Emptied (redisReplyReaderFeed s chunk) := by
  have hpos : s.pos ≤ s.buf.length := by
    rcases h with h | h
    · rw [← h.1]
      exact h.2
    · rw [h.2.1]
      exact Nat.zero_le _
  unfold redisReplyReaderFeed
  split_ifs
  · refine Or.inl ⟨rfl, hpos.trans ?_⟩
    rw [List.length_append]
    exact Nat.le_add_right _ _
  · exact h

theorem Buffered.getReply (h : Buffered s ∨ Emptied s) {x : Status × Option Loc × RedisReader}
    (hx : redisReplyReaderGetReply s = .ok x) : Buffered x.2.2 ∨ Emptied x.2.2 := by
  rw [redisReplyReaderGetReply] at hx
  split_ifs at hx with hlen
  · cases hx
    exact h
  · obtain ⟨r, hitems, hx⟩ := Outcome.bind_eq_ok.mp hx
    cases hx
    refine Buffered.emitReply (Buffered.discardConsumed ?_)
    rcases h with h | h
    · exact h.startReply.loop hitems
    · obtain ⟨r', hitem, hr'⟩ := h.processItem hlen
      rw [Reader.processItems, hitem] at hitems
      split_ifs at hitems with hi
      · have hridx : (Reader.startReply s).ridx = 0 := by rw [Reader.startReply, if_pos h.2.2]
        omega
      · cases hitems
        exact Or.inr hr'

end

/-- A reader, and the calls of hooks since the last reply was begun. -/
structure Observed where
  reader : RedisReader
  calls : List HookCall

/-- What can be done with a reader, and to the zvals around it. -/
inductive ReaderOp where
  | setPrivdata (privdata : ℕ)
  | feed (chunk : Bytes)
  | assign (mem : Mem)
  | getReply

namespace Observed

def pending (st : Observed) : List HookCall := if st.reader.ridx = -1 then [] else st.calls

def Initial (st : Observed) : Prop := ∃ mem, st = ⟨redisReplyReaderCreate mem, []⟩

def Step (st : Observed) : ReaderOp → Observed → Prop
  | .setPrivdata privdata, st' =>
      st' = { st with reader := redisReplyReaderSetPrivdata st.reader privdata }
  | .feed chunk, st' => st' = { st with reader := redisReplyReaderFeed st.reader chunk }
  | .assign mem, st' => st' = { st with reader := { st.reader with mem := mem } }
  | .getReply, st' => ∃ status o r, redisReplyReaderGetReply st.reader = .ok (status, o, r) ∧
      st' = ⟨r, st.pending ++ getReplyCalls st.reader⟩

/-- Counts fit an `int`, and the caller keeps away from the zval of a reply that is
under way. -/
def Allowed (st : Observed) : ReaderOp → Prop
  | .assign mem => ∀ o, st.reader.reply = some o → mem o.var = st.reader.mem o.var
  | .getReply => ∀ c ∈ getReplyCalls st.reader, c.Fits
  | _ => True

def Invariant (st : Observed) : Prop := Building (madeBy st.calls) st.reader

theorem Invariant.getReply {st : Observed} (h : st.Invariant) (hfits : st.Allowed .getReply) :
    LoopSafe (madeBy st.pending) (getReplyTurns st.reader)
      (redisReplyReaderGetReply st.reader >>= fun x => .ok x.2.2) := by
  have hloop := Building.getReply h hfits
  have hpending : madeBy st.pending = if st.reader.ridx = -1 then [] else madeBy st.calls := by
    unfold pending
    split_ifs <;> rfl
  rwa [hpending]

theorem Invariant.step {st st' : Observed} {op : ReaderOp} (h : st.Invariant)
    (hallowed : st.Allowed op) (hstep : st.Step op st') : st'.Invariant := by
  cases op with
  | setPrivdata privdata =>
      obtain rfl := hstep
      unfold Invariant redisReplyReaderSetPrivdata
      cases hreply : st.reader.reply with
      | none => exact Building.congr h rfl rfl rfl hreply.symm
      | some o => exact h
  | feed chunk =>
      obtain rfl := hstep
      unfold Invariant redisReplyReaderFeed
      simp only []
      split_ifs
      · exact Building.congr h rfl rfl rfl rfl
      · exact h
  | assign mem =>
      obtain rfl := hstep
      exact Building.assign h hallowed
  | getReply =>
      obtain ⟨status, o, r, hreply, rfl⟩ := hstep
      have hresult := (h.getReply hallowed).result
      rw [hreply, ← getReplyCalls] at hresult
      rw [Invariant, madeBy, List.flatMap_append]
      exact hresult

end Observed

/-- The loop of `redisReplyReaderGetReply` ends by itself in every run. -/
theorem getReply_ends {st : Observed}
    (h : Reached Observed.Initial Observed.Step Observed.Allowed st) (hlen : st.reader.len ≠ 0)
    {n : ℕ} (hn : st.reader.len - st.reader.pos < n) :
    processItems n (startReply st.reader) =
        processItems (st.reader.len - st.reader.pos + 1) (startReply st.reader) ∧
      turns n (startReply st.reader) =
        turns (st.reader.len - st.reader.pos + 1) (startReply st.reader) := by
  refine getReply_turns_suffice (h.invariant (I := fun st => Buffered st.reader ∨ Emptied st.reader)
    ?_ ?_) hlen hn
  · rintro _ ⟨mem, rfl⟩
    exact Or.inl ⟨rfl, le_rfl⟩
  · intro st op st' hst hallowed hstep
    cases op with
    | setPrivdata privdata =>
        obtain rfl := hstep
        unfold redisReplyReaderSetPrivdata
        cases st.reader.reply <;> exact hst
    | feed chunk =>
        obtain rfl := hstep
        exact Buffered.feed hst chunk
    | assign mem =>
        obtain rfl := hstep
        exact hst
    | getReply =>
        obtain ⟨status, o, r, hreply, rfl⟩ := hstep
        exact Buffered.getReply hst hreply

/-- In every run of a reader the hooks are safe, whatever bytes it is fed: the task
index stays between -1 and 2; a hook that is called with a parent task finds there an
array that was made for the same reply and is still open, and appends to it; and no
assertion fails. -/
theorem hooks_safe {st : Observed}
    (h : Reached Observed.Initial Observed.Step Observed.Allowed st) :
    (-1 ≤ st.reader.ridx ∧ st.reader.ridx ≤ 2) ∧
      (st.Allowed .getReply →
        (∀ s ∈ getReplyTurns st.reader, -1 ≤ s.ridx ∧ s.ridx ≤ 2) ∧
          (∀ before c after, getReplyCalls st.reader = before ++ c :: after →
            c.Safe (madeBy (st.pending ++ before))) ∧
          redisReplyReaderGetReply st.reader ≠ .fault .assertion) := by
  have hinv : st.Invariant := h.invariant (I := Observed.Invariant)
    (by
      rintro _ ⟨mem, rfl⟩
      exact Or.inl rfl)
    (fun _ _ _ hi hallowed hstep => hi.step hallowed hstep)
  refine ⟨Building.bounds hinv, fun hfits => ?_⟩
  have hloop := hinv.getReply hfits
  refine ⟨fun s hs => ?_, fun before c after hsplit => ?_, fun hfault => ?_⟩
  · have := hloop.bounds s hs
    omega
  · have hcalls := hloop.calls
    rw [← getReplyCalls, hsplit] at hcalls
    rw [madeBy, List.flatMap_append]
    exact hcalls.at
  · have hresult := hloop.result
    rw [hfault] at hresult
    rcases hresult with hresult | hresult <;> cases hresult

def oneVariable : RedisReader :=
  redisReplyReaderCreate (Function.update (fun _ => none) 0 (some .null))

/-- Two arrays are open when a byte comes that is no type byte. -/
def badByte : RedisReader :=
  redisReplyReaderFeed (redisReplyReaderSetPrivdata oneVariable 0)
    (ascii "*2\r\n:7\r\n*2\r\n$-1\r\n?")

theorem hooks_safe_badByte :
    (getReplyCalls badByte).map (fun c => c.task.parent) = [none, some 0, some 0, some 1] ∧
      ∀ before c after, getReplyCalls badByte = before ++ c :: after →
        c.Safe (madeBy (Observed.pending ⟨badByte, []⟩ ++ before)) := by
  have hcreated : Reached Observed.Initial Observed.Step Observed.Allowed ⟨oneVariable, []⟩ :=
    .init ⟨_, rfl⟩
  have hset : Reached Observed.Initial Observed.Step Observed.Allowed
      ⟨redisReplyReaderSetPrivdata oneVariable 0, []⟩ :=
    .step (l := .setPrivdata 0) hcreated trivial rfl
  have hfed : Reached Observed.Initial Observed.Step Observed.Allowed ⟨badByte, []⟩ :=
    .step (l := .feed (ascii "*2\r\n:7\r\n*2\r\n$-1\r\n?")) hset trivial rfl
  have hfits : ∀ c ∈ getReplyCalls badByte, c.Fits := by decide +kernel
  exact ⟨by decide +kernel, ((hooks_safe hfed).2 hfits).2.1⟩

/-- A count that does not fit is cut off: the array wants no element, and gets one. -/
example : redisReplyReaderGetReply (redisReplyReaderFeed (redisReplyReaderSetPrivdata
    oneVariable 0) (ascii "*4294967296\r\n:7\r\n")) = .fault .assertion := by
  set_option maxRecDepth 4000 in rfl

end Reader

end PhpHiredis
