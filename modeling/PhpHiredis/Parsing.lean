import PhpHiredis.Consumer

/-!
# The loop of the reader drains the consumer

`processItems_eq` shows that the loop of the reader, with its buffer, cursor
and lengths, drains exactly the consumer `parseStep`, and
`redisReplyReaderGetReply_eq` does so for a whole call.
-/
namespace PhpHiredis.Reader

open Library Library.Incremental

theorem createStringObject_take (s : RedisReader) (t : RedisReadTask) (str : Bytes) (len : ℕ) :
    createStringObject s t (str.take len) len = createStringObject s t str len := by
  have h4 : len = 4 → (str.take len).take 4 = str.take 4 := by
    rintro rfl
    rw [List.take_take, Nat.min_self]
  unfold createStringObject
  refine congrArg (tryParentize s t) (funext fun z => ?_)
  cases t.type with
  | none => rfl
  | some ty =>
      cases ty <;> simp only [List.take_take, Nat.min_self]
      by_cases hl : len = 4
      · simp only [hl, Nat.min_self]
      · simp only [hl, false_and, if_false]

/-- The hooks and the move to the next task do not see the buffer, nor a move
of the cursor between them. -/
theorem finish_withBuf (s : RedisReader) (task : RedisReadTask) (fill : Zval → Zval) (b : Bytes)
    (p n l : ℕ) :
    (tryParentize (s.withBuf b p l) task fill >>= fun x =>
      moveToNextTask (setRootReply (x.2.ridx = 0) x.1 { x.2 with pos := x.2.pos + n }) >>= fun r =>
        .ok (true, r)) =
      (tryParentize s task fill >>= fun x =>
        finishItem x >>= fun s' => .ok (true, s'.withBuf b (p + n) l)) := by
  have hmove : ∀ r : RedisReader,
      { r.withBuf b p l with pos := (r.withBuf b p l).pos + n } = r.withBuf b (p + n) l :=
    fun _ => rfl
  rw [tryParentize_withBuf]
  simp only [bind_assoc, Outcome.ok_bind, hmove, finishItem, setRootReply_withBuf,
    moveToNextTask_withBuf]
  rfl

theorem readLine_withBuf (s : RedisReader) (b : Bytes) {p i : ℕ}
    (hi : findCRLF (b.drop p) = some i) :
    readLine (s.withBuf b p b.length) =
      some ((b.drop p, i), s.withBuf b (p + (i + 2)) b.length) := by
  have hs : seekNewline (b.drop p) (b.length - p) = some i := by
    rw [← List.length_drop, seekNewline_eq, hi]
  simp only [readLine, withBuf_unread, withBuf_len, withBuf_pos, hs]
  rfl

theorem processLineItem_eq (s : RedisReader) (b : Bytes) {p i : ℕ}
    (hi : findCRLF (b.drop p) = some i) :
    processLineItem (s.withBuf b p b.length) =
      ((if s.cur.type = some .integer then integerItem s (readLongLong (b.drop p))
        else textItem s ((b.drop p).take i) i) >>= fun s' =>
          .ok (true, s'.withBuf b (p + (i + 2)) b.length)) := by
  simp only [processLineItem, readLine_withBuf s b hi, withBuf_cur]
  by_cases ht : s.cur.type = some .integer
  · simp only [ht, if_true, integerItem, bind_assoc]
    exact finish_withBuf s s.cur _ b (p + (i + 2)) 0 b.length
  · simp only [ht, if_false, textItem, createStringObject_take, bind_assoc]
    exact finish_withBuf s s.cur _ b (p + (i + 2)) 0 b.length

theorem processBulkItem_eq (s : RedisReader) (b : Bytes) {p i : ℕ}
    (hi : findCRLF (b.drop p) = some i) (hp : p ≤ b.length) :
    processBulkItem (s.withBuf b p b.length) =
      (let len := readLongLong (b.drop p)
       let bytelen := i + 2 + (len.toNat + 2)
       if len < 0 then
         nilItem s >>= fun s' => .ok (true, s'.withBuf b (p + (i + 2)) b.length)
       else if bytelen ≤ (b.drop p).length then
         textItem s (((b.drop p).drop (i + 2)).take len.toNat) len.toNat >>= fun s' =>
           .ok (true, s'.withBuf b (p + bytelen) b.length)
       else .ok (false, s.withBuf b p b.length)) := by
  have hs : seekNewline (b.drop p) (b.length - p) = some i := by
    rw [← List.length_drop, seekNewline_eq, hi]
  simp only [processBulkItem, withBuf_unread, withBuf_len, withBuf_pos, withBuf_cur, hs]
  have hlen : (b.drop p).length = b.length - p := List.length_drop
  by_cases h₁ : readLongLong (b.drop p) < 0
  · simp only [h₁, if_true, nilItem, bind_assoc]
    exact finish_withBuf s s.cur _ b p (i + 2) b.length
  by_cases h₂ : i + 2 + ((readLongLong (b.drop p)).toNat + 2) ≤ (b.drop p).length
  · have h₃ : p + (i + 2 + ((readLongLong (b.drop p)).toNat + 2)) ≤ b.length := by omega
    simp only [h₁, h₂, h₃, if_true, if_false, textItem, createStringObject_take, bind_assoc]
    exact finish_withBuf s s.cur _ b p _ b.length
  · have h₃ : ¬p + (i + 2 + ((readLongLong (b.drop p)).toNat + 2)) ≤ b.length := by omega
    simp only [h₁, h₂, h₃, if_false]
    rfl

theorem pushTask_withBuf (s : RedisReader) (b : Bytes) (p l : ℕ) :
    pushTask (s.withBuf b p l) = (pushTask s).withBuf b p l := rfl

theorem processMultiBulkItem_eq (s : RedisReader) (b : Bytes) {p i : ℕ}
    (hi : findCRLF (b.drop p) = some i) (h2 : s.ridx ≠ 2) :
    processMultiBulkItem (s.withBuf b p b.length) =
      (arrayItem s (readLongLong (b.drop p)) >>= fun s' =>
        .ok (true, s'.withBuf b (p + (i + 2)) b.length)) := by
  simp only [processMultiBulkItem, withBuf_ridx, h2, if_false, readLine_withBuf s b hi,
    withBuf_cur, arrayItem]
  split_ifs with h₁ h₃
  · simp only [createNilObject, tryParentize_withBuf, bind_assoc, Outcome.ok_bind,
      moveToNextTask_withBuf, Outcome.pure_eq, setRootReply_withBuf]
    rfl
  · simp only [createArrayObject, tryParentize_withBuf, bind_assoc, Outcome.ok_bind,
      Outcome.pure_eq, withBuf_setCur, pushTask_withBuf, setRootReply_withBuf]
    rfl
  · simp only [createArrayObject, tryParentize_withBuf, bind_assoc, Outcome.ok_bind,
      moveToNextTask_withBuf, Outcome.pure_eq, setRootReply_withBuf]
    rfl

theorem processTyped_eq (s : RedisReader) (b : Bytes) {p : ℕ} (hp : p ≤ b.length)
    (hnone : s.cur.type ≠ none) (hnil : s.cur.type ≠ some .nil)
    (harray : s.cur.type = some .array → s.ridx ≠ 2) :
    processTyped (s.withBuf b p b.length) =
      match parseTyped s (b.drop p) with
      | none => .ok (false, s.withBuf b p b.length)
      | some (x, ys) => x >>= fun s' =>
            .ok (true, s'.withBuf b (b.length - ys.length) b.length) := by
  have hpos : ∀ n, p + n ≤ b.length → b.length - ((b.drop p).drop n).length = p + n := by
    intro n hn
    rw [List.length_drop, List.length_drop]
    omega
  cases hi : findCRLF (b.drop p) with
  | none =>
      have hs : seekNewline (b.drop p) (b.length - p) = none := by
        rw [← List.length_drop, seekNewline_eq, hi]
      have hline : readLine (s.withBuf b p b.length) = none := by
        simp only [readLine, withBuf_unread, withBuf_len, withBuf_pos, hs]
      unfold processTyped
      rw [withBuf_cur]
      simp only [parseTyped, hi]
      split
      · simp only [processLineItem, hline, Outcome.pure_eq]
      · simp only [processLineItem, hline, Outcome.pure_eq]
      · simp only [processLineItem, hline, Outcome.pure_eq]
      · simp only [processBulkItem, withBuf_unread, withBuf_len, withBuf_pos, hs, Outcome.pure_eq]
      · rename_i ht
        simp only [processMultiBulkItem, withBuf_ridx, harray ht, if_false, hline, Outcome.pure_eq]
      · rename_i h₁ h₂ h₃ h₄ h₅
        exfalso
        cases ht : s.cur.type with
        | none => exact hnone ht
        | some t => cases t <;> simp_all
  | some i =>
      have hl := findCRLF_le hi
      rw [List.length_drop] at hl
      unfold processTyped parseTyped
      rw [withBuf_cur]
      simp only [hi]
      cases ht : s.cur.type with
      | none => exact absurd ht hnone
      | some t =>
          cases t with
          | error | status =>
              simp only [processLineItem_eq s b hi, ht, hpos (i + 2) (by omega), reduceCtorEq,
                Option.some.injEq, if_false]
          | integer => simp only [processLineItem_eq s b hi, ht, hpos (i + 2) (by omega), if_true]
          | nil => exact absurd ht hnil
          | array =>
              simp only [processMultiBulkItem_eq s b hi (harray ht), hpos (i + 2) (by omega)]
          | string =>
              simp only [processBulkItem_eq s b hi hp]
              by_cases h₁ : readLongLong (b.drop p) < 0
              · simp only [h₁, if_true, hpos (i + 2) (by omega)]
              by_cases h₂ : i + 2 + ((readLongLong (b.drop p)).toNat + 2) ≤ (b.drop p).length
              · have h₃ := h₂
                rw [List.length_drop] at h₃
                have h₄ := hpos (i + 2 + ((readLongLong (b.drop p)).toNat + 2)) (by omega)
                simp only [h₁, h₂, if_true, if_false, h₄]
              · simp only [h₁, h₂, if_false]

/-- What the loop leaves in the reader when the consumer ends: the cursor before
the rest, or an empty buffer with its old length after an error. -/
def land (b : Bytes) (r : Run RedisReader × Bytes) : Run RedisReader :=
  r.1 >>= fun s =>
    .ok (if s.error = none then s.withBuf b (b.length - r.2.length) b.length
      else s.withBuf [] 0 b.length)

theorem typeStep_error {s : RedisReader} (b : UInt8) (h : (typeStep s b).error ≠ none)
    (he : s.error = none) : (typeStep s b).ridx = -1 := by
  unfold typeStep at h ⊢
  split at h
  · simp only [] at h ⊢
    split_ifs at h ⊢
    · rfl
    · exact absurd he h
  · rfl

theorem typeStep_ok {s : RedisReader} {b : UInt8} (h : (typeStep s b).error = none) :
    (typeStep s b).ridx = s.ridx ∧ (typeStep s b).cur.type ≠ none := by
  unfold typeStep at h ⊢
  split at h
  · simp only [] at h ⊢
    split_ifs at h ⊢
    · cases h
    · exact ⟨rfl, by simp [RedisReader.setCur, RedisReader.cur]⟩
  · cases h

theorem processItem_typeByte (s : RedisReader) (b : Bytes) (p : ℕ) {c : UInt8} {ys : Bytes}
    (hb : b.drop p = c :: ys) (ht : s.cur.type = none) (he : s.error = none) :
    processItem (s.withBuf b p b.length) =
      if (typeStep s c).error = none then processTyped ((typeStep s c).withBuf b (p + 1) b.length)
      else .ok (false, (typeStep s c).withBuf [] 0 b.length) := by
  have hp : p + 1 ≤ b.length := by
    have := congrArg List.length hb
    rw [List.length_drop, List.length_cons] at this
    omega
  have hread : readBytes (s.withBuf b p b.length) 1 =
      some (c :: ys, s.withBuf b (p + 1) b.length) := by
    simp only [readBytes, withBuf_len, withBuf_pos, withBuf_unread, hb]
    rw [if_pos (by omega)]
    rfl
  simp only [processItem, withBuf_cur, ht, hread, List.getD_cons_zero]
  unfold typeStep
  cases hc : replyTypeOf c with
  | none => simp [RedisReader.fail, redisSetReplyReaderError, RedisReader.withBuf]
  | some t =>
      simp only [withBuf_setCur]
      by_cases hd : t = .array ∧ s.ridx = 2
      · have hcur : (s.setCur { s.cur with type := some ReplyType.array }).cur.type =
            some .array := by simp [RedisReader.setCur, RedisReader.cur]
        obtain ⟨rfl, h2⟩ := hd
        simp only [h2, and_self, if_true, RedisReader.fail, reduceCtorEq, if_false]
        simp only [processTyped, withBuf_cur, hcur, processMultiBulkItem]
        rw [if_pos (by simpa [RedisReader.setCur] using h2)]
        rfl
      · simp only [hd, if_false]
        rw [if_pos (by exact he)]

theorem drop_of_suffix {b ys : Bytes} {p : ℕ} (h : ys <:+ b.drop p) :
    b.drop (b.length - ys.length) = ys := by
  have hb := h.trans (List.drop_suffix p b)
  rw [List.suffix_iff_eq_drop] at hb
  exact hb.symm

theorem land_stop {b : Bytes} {s : RedisReader} {p : ℕ} (he : s.error = none) (hp : p ≤ b.length) :
    land b (.ok s, b.drop p) = .ok (s.withBuf b p b.length) := by
  simp only [land, Outcome.ok_bind, he, if_true]
  rw [List.length_drop, show b.length - (b.length - p) = p by omega]

section
variable {b : Bytes} {n : ℕ}
  (ih : ∀ {p : ℕ} {s : RedisReader}, s.error = none → Resting s → p ≤ b.length →
    b.length - p < n →
      processItems n (s.withBuf b p b.length) = land b (drain parseStep (.ok s) (b.drop p)))
include ih

/-- The rest of an item, and the turns of the loop that follow it. -/
theorem processTyped_land {q : ℕ} {t : RedisReader} (he : t.error = none) (hr : Resting t)
    (h0 : 0 ≤ t.ridx) (ht : t.cur.type ≠ none) (hq : q ≤ b.length) (hn : b.length - q < n + 1) :
    (processTyped (t.withBuf b q b.length) >>= fun x =>
      if x.1 then processItems n x.2 else .ok x.2) =
        land b (drain parseStep (.ok t) (b.drop q)) := by
  obtain ⟨-, hnil, harray⟩ := hr h0
  have hparse : parseStep (.ok t) (b.drop q) = parseTyped t (b.drop q) :=
    (parseStep_ok h0 _).trans (parseItem_typed ht _)
  rw [processTyped_eq t b hq ht hnil harray]
  cases hy : parseTyped t (b.drop q) with
  | none =>
      rw [drain_stop (hparse.trans hy), land_stop he hq]
      rfl
  | some r =>
      obtain ⟨x, ys⟩ := r
      rw [drain_step parseStep_local (hparse.trans hy)]
      have hys := parseTyped_takes hy
      cases x with
      | fault e =>
          rw [drain_stop rfl]
          rfl
      | blocked =>
          rw [drain_stop rfl]
          rfl
      | ok t' =>
          obtain ⟨he', hready⟩ := parseTyped_ok hy
          have hlt := hys.2
          rw [List.length_drop] at hlt
          simp only [Outcome.ok_bind, if_true]
          rw [ih (he'.trans he) (resting_of_ready (he'.trans he) hready) (Nat.sub_le _ _)
            (by omega), drop_of_suffix hys.1]

end

theorem processItems_eq (b : Bytes) {n p : ℕ} {s : RedisReader} (he : s.error = none)
    (hr : Resting s) (hp : p ≤ b.length) (hn : b.length - p < n) :
    processItems n (s.withBuf b p b.length) = land b (drain parseStep (.ok s) (b.drop p)) := by
  induction n generalizing s p with
  | zero => omega
  | succ n ih =>
      rw [processItems]
      by_cases h0 : s.ridx < 0
      · rw [if_pos (by exact h0), drain_stop (parseStep_stopped h0 _), land_stop he hp]
      rw [if_neg (by exact h0)]
      have h0' : 0 ≤ s.ridx := by omega
      by_cases ht : s.cur.type = none
      · cases hb : b.drop p with
        | nil =>
            have hlen := congrArg List.length hb
            rw [List.length_drop, List.length_nil] at hlen
            have hread : readBytes (s.withBuf b p b.length) 1 = none :=
              if_neg (show ¬1 ≤ b.length - p by omega)
            have hi : processItem (s.withBuf b p b.length) =
                .ok (false, s.withBuf b p b.length) := by
              simp only [processItem, withBuf_cur, ht, hread, Outcome.pure_eq]
            rw [hi, drain_stop ((parseStep_ok h0' _).trans (parseItem_nil ht)), ← hb,
              land_stop he hp]
            rfl
        | cons c ys =>
            have hlen := congrArg List.length hb
            rw [List.length_drop, List.length_cons] at hlen
            have hys : b.drop (p + 1) = ys := by
              rw [← List.drop_drop, hb, List.drop_one, List.tail_cons]
            rw [processItem_typeByte s b p hb ht he,
              drain_step parseStep_local ((parseStep_ok h0' _).trans (parseItem_cons ht c ys)),
                ← hys]
            by_cases hte : (typeStep s c).error = none
            · rw [if_pos hte]
              obtain ⟨hidx, htype⟩ := typeStep_ok hte
              exact processTyped_land ih hte (typeStep_resting he c) (hidx ▸ h0') htype
                (by omega) (by omega)
            · rw [if_neg hte, drain_stop (parseStep_stopped
                (by rw [typeStep_error c hte he]; decide) _)]
              simp only [Outcome.ok_bind, Bool.false_eq_true, if_false, land, hte]
              rfl
      · have hi : processItem (s.withBuf b p b.length) = processTyped (s.withBuf b p b.length) := by
          unfold processItem
          split
          · exact absurd ‹_› ht
          · rfl
        rw [hi]
        exact processTyped_land ih he hr h0' ht hp (by omega)

/-- The reader between two calls, with bytes it could not use yet. -/
def RedisReader.holding (s : RedisReader) (xs : Bytes) : RedisReader := s.withBuf xs 0 xs.length

theorem sdsrange_tail {s : Bytes} {start : ℕ} (h : start < s.length) :
    sdsrange s start s.length = s.drop start := by
  unfold sdsrange
  rw [if_neg (by omega : ¬((s.length : ℤ) < 0))]
  simp only []
  rw [if_neg (by omega : ¬s.length = 0), if_neg (by omega), Int.toNat_natCast,
    List.take_of_length_le]
  · rw [Nat.min_eq_left (by omega)]
  · rw [List.length_drop]
    omega

theorem discardConsumed_withBuf (s : RedisReader) {b ys : Bytes} (h : ys <:+ b) :
    discardConsumed (s.withBuf b (b.length - ys.length) b.length) = s.holding ys := by
  have hle := h.length_le
  have hd : b.drop (b.length - ys.length) = ys := (List.suffix_iff_eq_drop.mp h).symm
  unfold discardConsumed
  by_cases hpos : 0 < b.length - ys.length
  · have hbuf : (if b.length - ys.length = b.length then []
        else sdsrange b (b.length - ys.length) b.length) = ys := by
      split_ifs with hend
      · exact (List.eq_nil_of_length_eq_zero (by omega)).symm
      · rw [sdsrange_tail (by omega), hd]
    rw [if_pos (by exact hpos)]
    change RedisReader.holding s (if b.length - ys.length = b.length then []
      else sdsrange b (b.length - ys.length) b.length) = s.holding ys
    rw [hbuf]
  · have hb : b = ys := by
      rw [show b.length - ys.length = 0 by omega, List.drop_zero] at hd
      exact hd
    rw [if_neg (by exact hpos), hb, Nat.sub_self]
    rfl

theorem startReply_resting {s : RedisReader} (he : s.error = none) (hr : Resting s)
    (h : -1 ≤ s.ridx) : Resting (startReply s) ∧ (startReply s).error = none ∧
      0 ≤ (startReply s).ridx := by
  unfold startReply
  split_ifs with hi
  · exact ⟨resting_of_ready he (Or.inr (by simp [RedisReader.cur])), he, le_rfl⟩
  · exact ⟨hr, he, by omega⟩

theorem startReply_withBuf (s : RedisReader) (b : Bytes) (p l : ℕ) :
    startReply (s.withBuf b p l) = (startReply s).withBuf b p l := by
  by_cases h : s.ridx = -1
  · simp only [startReply, withBuf_ridx, h, if_true]
    rfl
  · simp only [startReply, withBuf_ridx, h, if_false]

/-- The state of the reader after a call, without the reply. -/
def afterReply (l : ℕ) (s : RedisReader) (ys : Bytes) : RedisReader :=
  if s.error = none then s.holding ys else s.withBuf [] 0 l

theorem redisReplyReaderGetReply_eq {s : RedisReader} {xs : Bytes} (he : s.error = none)
    (hr : Resting s) (h : -1 ≤ s.ridx) (hx : xs ≠ []) :
    redisReplyReaderGetReply (s.holding xs) =
      ((drain parseStep (.ok (startReply s)) xs).1 >>= fun s' =>
        .ok (emitReply (afterReply xs.length s' (drain parseStep (.ok (startReply s)) xs).2))) := by
  have hlen : xs.length ≠ 0 := fun h0 => hx (List.eq_nil_of_length_eq_zero h0)
  obtain ⟨hr', he', -⟩ := startReply_resting he hr h
  unfold redisReplyReaderGetReply RedisReader.holding
  rw [if_neg (by exact hlen), startReply_withBuf]
  simp only [withBuf_len, withBuf_pos, Nat.sub_zero]
  rw [processItems_eq xs he' hr' (Nat.zero_le _) (by omega), List.drop_zero]
  have hsuf := drain_suffix parseStep_local (.ok (startReply s)) xs
  generalize drain parseStep (.ok (startReply s)) xs = r at hsuf ⊢
  obtain ⟨x, ys⟩ := r
  cases x with
  | fault e => rfl
  | blocked => rfl
  | ok s' =>
      simp only [land, Outcome.ok_bind, Outcome.pure_eq, afterReply]
      split_ifs with hs'
      · rw [discardConsumed_withBuf s' hsuf]
      · rfl

theorem redisReplyReaderGetReply_nil (s : RedisReader) :
    redisReplyReaderGetReply (s.holding []) = .ok (.ok, none, s.holding []) := rfl

end PhpHiredis.Reader
