import PhpHiredis.Arrival
import PhpHiredis.Commands
import PhpHiredis.Partial

/-!
# Calls whose reply breaks off

A direct call whose reply does not come to its end: the connection is closed or
fails, or an invalid type byte comes. `redisGetReply` fails then, but the method
ignores its status, and validates what the variable holds.
-/
namespace PhpHiredis

open Library Library.Incremental Reader

variable {σ : Type}

theorem getReply_fails {s s' : RedisReader} {xs rest : Bytes} (hr : Resting s) (he : s.error = none)
    (h : -1 ≤ s.ridx) (hx : xs ≠ [])
    (hd : drain parseStep (.ok (startReply s)) xs = (.ok s', rest)) (hs' : Stopped s') :
    ∃ r, redisReplyReaderGetReply (s.holding xs) = .ok (.err, none, r) ∧ r.mem = s'.mem := by
  obtain ⟨msg, hmsg⟩ := Option.ne_none_iff_exists'.mp hs'.error
  refine ⟨{ s'.withBuf [] 0 xs.length with reply := none }, ?_, rfl⟩
  rw [redisReplyReaderGetReply_eq he hr h hx, hd]
  simp only [Outcome.ok_bind, afterReply, hs'.error, if_false, emitReply]
  rw [if_pos (by exact hs'.ridx)]
  simp only [RedisReader.withBuf, hmsg]

/-- A read that ends the reading. -/
def Fatal : ReadResult → Prop
  | .eof | .error _ => True
  | .data _ | .again => False

theorem readReply_fatal (n : ℕ) {c : ExtContext σ} {r : ReadResult} (hr : Fatal r)
    {rs : List ReadResult} (hrs : c.sock.inbox = r :: rs) :
    ∃ c', readReply (n + 1) c = .ok (.err, none, c') ∧ c'.reader = c.reader := by
  rw [readReply, redisBufferRead, hrs]
  cases r with
  | eof => exact ⟨_, rfl, rfl⟩
  | error msg => exact ⟨_, rfl, rfl⟩
  | data chunk => exact hr.elim
  | again => exact hr.elim

theorem startReply_mem (s : RedisReader) : (startReply s).mem = s.mem := by
  unfold startReply
  split_ifs <;> rfl

/-- The inner loop of `redisGetReply`, where the bytes that arrive before the
first fatal read do not complete a reply: by induction on the reads. -/
theorem readReply_fails {s₀ s' : RedisReader} (hr₀ : Resting s₀) {rs tail : List ReadResult}
    (hq : Quiet rs) (hend : Stopped s' ∨ 0 ≤ s'.ridx ∧ ∃ r rs', Fatal r ∧ tail = r :: rs') {n : ℕ}
    (hn : rs.length < n) {s : RedisReader} {w ys zs : Bytes} (hm : Midway s₀ s w ys)
    (hd : drain parseStep (.ok s₀) (w ++ received rs) = (.ok s', zs)) {c : ExtContext σ}
    (hc : c.reader = s.holding ys) (hrs : c.sock.inbox = rs ++ tail) :
    ∃ c', readReply n c = .ok (.err, none, c') ∧ c'.reader.mem = s'.mem := by
  induction rs generalizing n s w ys c with
  | nil =>
      obtain ⟨n, rfl⟩ := Nat.exists_eq_succ_of_ne_zero (show n ≠ 0 by omega)
      rw [received, List.append_nil, hm.drained] at hd
      obtain ⟨hs', -⟩ := Prod.mk.inj hd
      obtain rfl := Outcome.ok.inj hs'
      have h0 := (startReply_resting hm.error hm.resting hm.ridx).2.2
      rcases hend with hstop | ⟨-, r, rs', hr, htail⟩
      · have := hstop.ridx
        omega
      · obtain ⟨c', hread, hreader⟩ := readReply_fatal n hr (hrs.trans htail)
        exact ⟨c', hread, by rw [hreader, hc, startReply_mem]; rfl⟩
  | cons r rs ih =>
      obtain ⟨n, rfl⟩ := Nat.exists_eq_succ_of_ne_zero (show n ≠ 0 by omega)
      simp only [List.length_cons] at hn
      cases r with
      | eof => exact (hq .eof (by simp)).elim
      | error msg => exact (hq (.error msg) (by simp)).elim
      | again =>
          rw [hm.readReply_again n hc hrs]
          exact ih hq.tail (by omega) hm hd hc rfl
      | data chunk =>
          have hd' : drain parseStep (.ok s₀) ((w ++ chunk.1) ++ received rs) = (.ok s', zs) := by
            rw [List.append_assoc]
            exact hd
          rcases drain_cases (.ok s₀) (w ++ chunk.1) with ⟨s₁, ys₁, hd₁, h0⟩ | ⟨hdead, hrest⟩
          · have hm₁ := midway_of_drain hr₀ hd₁ h0
            rw [hm.readReply_waits n hc hrs hm₁ h0]
            exact ih hq.tail (by omega) hm₁ hd' rfl rfl
          · -- the reader stops at a byte of this chunk
            rw [hrest] at hd'
            have hs' := congrArg Prod.fst hd'
            have hneg := hdead s' hs'
            have hstop : Stopped s' := hend.resolve_right fun h => by omega
            have hd₁ : drain parseStep (.ok s₀) (w ++ chunk.1) =
                (.ok s', (drain parseStep (.ok s₀) (w ++ chunk.1)).2) := Prod.ext hs' rfl
            have hxs : ys ++ chunk.1 ≠ [] := fun h => chunk.2 (List.append_eq_nil_iff.mp h).2
            obtain ⟨r, hget, hmem⟩ := getReply_fails hm.resting hm.error hm.ridx hxs
              ((hm.drain chunk.1).trans hd₁) hstop
            rw [readReply_data n hc hrs]
            simp only [redisGetReplyFromReader, getReply_eq, hget, Outcome.ok_bind, Outcome.pure_eq]
            exact ⟨_, rfl, hmem⟩

/-- The reply breaks off after the bytes `w`: the connection is closed, a read
fails, or an invalid byte comes where a type byte is due. -/
inductive Breaks (peer : Peer σ) (c : ExtContext σ) (e : Reply) (w : Bytes) : Prop
  | closed {tail : List ReadResult} (h : Arrives peer c w (.eof :: tail))
  | failed {msg : Bytes} {tail : List ReadResult} (h : Arrives peer c w (.error msg :: tail))
  | invalid {b : UInt8} {junk : Bytes} {tail : List ReadResult} (hdue : e.TypeDue w)
      (hb : b ∉ ascii "+-:$*") (h : Arrives peer c (w ++ b :: junk) tail)

theorem replyTypeOf_eq_none {b : UInt8} (hb : b ∉ ascii "+-:$*") : replyTypeOf b = none := by
  have hbytes : ascii "+-:$*" = [43, 45, 58, 36, 42] := by decide
  simp only [hbytes, List.mem_cons, List.not_mem_nil, or_false, not_or] at hb
  obtain ⟨h₁, h₂, h₃, h₄, h₅⟩ := hb
  simp only [replyTypeOf, h₁, h₂, h₃, h₄, h₅, if_false]

/-- What the variable of a call may hold after the part `w` of the reply `e`. -/
def Part (e : Reply) (w : Bytes) (z v : Zval) : Prop :=
  (e.Opens w ∧ ∃ es, v = .array es) ∨ (¬e.Opens w ∧ v = z)

section
variable {peer : Peer σ} {c : ExtContext σ} {e : Reply} {d : ℕ} {w more : Bytes}

theorem Breaks.readInto (h : Breaks peer c e w) (he : e.Sound d) (hw : e.encode = w ++ more)
    (hmore : more ≠ []) {mem : Mem} (hc : c.reader = redisReplyReaderCreate mem) {x : ℕ} {z : Zval}
    (hz : mem x = some z) :
    ∃ v c', PhpHiredis.readInto peer c x = .ok (v, c') ∧ Part e w z v := by
  have hidle := idle_readerOf mem x
  have hz' : (readerOf mem x).mem x = some z := hz
  obtain ⟨s', ys, hd, hun, hpart⟩ := hidle.part hz' he hw hmore
  have hrest : Resting (startReply (readerOf mem x)) :=
    resting_of_ready (hidle.awaits hz').error (Or.inr (hidle.awaits hz').type)
  -- whatever happens after `w`, the call ends with the memory of the reader at `w`
  have hread : ∀ {bytes zs : Bytes} {tail : List ReadResult} {s₁ : RedisReader},
      Arrives peer c bytes tail → drain parseStep (.ok (startReply (readerOf mem x))) bytes =
        (.ok s₁, zs) → s₁.mem = s'.mem →
      Stopped s₁ ∨ 0 ≤ s₁.ridx ∧ (∃ r rs, Fatal r ∧ tail = r :: rs) →
      ∃ v c', PhpHiredis.readInto peer c x = .ok (v, c') ∧ Part e w z v := by
    intro bytes zs tail s₁ harrives hd₁ hmem hend
    obtain ⟨c₁, rs, hget, hreader, hinbox, hq, hrcv⟩ := harrives.getReply hc x
    obtain ⟨c', hread, hmem'⟩ := readReply_fails hrest hq hend
      (show rs.length < (rs ++ tail).length + 1 by rw [List.length_append]; omega) hidle.midway
      (by rw [List.nil_append, hrcv]; exact hd₁) hreader hinbox
    have hvar : c'.reader.mem x = s'.mem x := by rw [hmem', hmem]
    rw [PhpHiredis.readInto, hget, hread]
    rcases hpart with ⟨hopen, tab, hv⟩ | ⟨hopen, hv⟩
    · exact ⟨.array tab, c', by simp only [Outcome.ok_bind, hvar, hv, Outcome.pure_eq],
        Or.inl ⟨hopen, tab, rfl⟩⟩
    · exact ⟨z, c', by simp only [Outcome.ok_bind, hvar, hv, Outcome.pure_eq],
        Or.inr ⟨hopen, rfl⟩⟩
  cases h with
  | closed h => exact hread h hd rfl (hun.symm.imp_right fun h0 => ⟨h0, .eof, _, trivial, rfl⟩)
  | @failed msg _ h =>
      exact hread h hd rfl (hun.symm.imp_right fun h0 => ⟨h0, .error msg, _, trivial, rfl⟩)
  | invalid hdue hb h =>
      obtain ⟨s₁, zs, hd₁, hstop, hmem⟩ :=
        hidle.part_invalid hz' he hdue (replyTypeOf_eq_none hb) _ hd
      exact hread h hd₁ hmem (Or.inl hstop)

end

/-- The validators that keep no array. -/
def Validator.Scalar (fn : Validator) : Prop := fn = .string ∨ fn = .long ∨ fn = .status

theorem Validator.apply_null {fn : Validator} (h₁ : fn ≠ .skip) (h₂ : fn ≠ .longAsBool)
    (z_args : Option (List Zval)) : fn.apply .null z_args = .ok (0, fn.failure) := by
  cases fn with
  | skip => exact absurd rfl h₁
  | longAsBool => exact absurd rfl h₂
  | _ => rfl

theorem Validator.apply_array {fn : Validator} {es : HashTable} {z_args : Option (List Zval)}
    {z : Zval} {n : ℕ} (h : fn.apply (.array es) z_args = .ok (n, z)) :
    z = fn.failure ↔ fn.Scalar := by
  cases fn with
  | string | long | status =>
      cases h
      exact iff_of_true rfl (by simp [Validator.Scalar])
  | skip | array =>
      cases h
      exact iff_of_false nofun (by simp [Validator.Scalar])
  | zip | zipClosure =>
      obtain ⟨ret, -, hret⟩ := Outcome.bind_eq_ok.mp h
      cases hret
      exact iff_of_false nofun (by simp [Validator.Scalar])
  | longAsBool => cases h

theorem Validator.Scalar.apply {fn : Validator} (h : fn.Scalar) (es : HashTable)
    (z_args : Option (List Zval)) : fn.apply (.array es) z_args = .ok (0, fn.failure) := by
  rcases h with rfl | rfl | rfl <;> rfl

/-- A direct call whose reply breaks off returns its failure value exactly when its
validator keeps no array, or the reply has not brought the header of an array
with elements. -/
theorem broken_reply_iff {peer : Peer σ} {s : RedisSock σ} (hdirect : s.pipeline = 0 ∧ s.multi = 0)
    {c : Command} (hfn : c.validator ≠ .longAsBool) {ws : Request} (hc : c.sent = some ws)
    {e : Reply}
    {d : ℕ} (he : e.Sound d) {w more : Bytes} (hw : e.encode = w ++ more) (hmore : more ≠ [])
    (hbreaks : Breaks peer (redisAppend (redisSockGet s).ctx (encodeRequest ws)) e w) :
    (∃ s', c.run peer s = .ok (.value c.validator.failure, s')) ↔
      c.Fits ∧ (c.validator.Scalar ∨ ¬e.Opens w) := by
  obtain ⟨v, ctx, hread, hpart⟩ := hbreaks.readInto he hw hmore
    (show _ = redisReplyReaderCreate callMem from rfl)
    (show callMem returnValue = some .null from rfl)
  have hrun : c.Fits → c.run peer s = (c.validator.apply v c.closureArgs >>= fun r => .ok
      (.value r.2, { redisEnqueue { redisSockGet s with
        ctx := redisAppend (redisSockGet s).ctx (encodeRequest ws) } c.validator none with
        ctx := ctx })) := by
    intro hfit
    rw [Command.run_eq peer s hfit, Command.spec, hc]
    simp only [runRequest]
    rw [redisRunEnd_direct peer (by exact hdirect)]
    simp only [hread, Outcome.ok_bind, Outcome.pure_eq]
  constructor
  · rintro ⟨s', h⟩
    have hfit := Command.fits_of_returns ⟨_, h⟩
    refine ⟨hfit, ?_⟩
    rcases hpart with ⟨-, es, rfl⟩ | ⟨hopen, -⟩
    · rw [hrun hfit] at h
      obtain ⟨⟨n, z⟩, happly, hz⟩ := Outcome.bind_eq_ok.mp h
      cases hz
      exact Or.inl ((Validator.apply_array happly).mp rfl)
    · exact Or.inr hopen
  · rintro ⟨hfit, hcond⟩
    have happly : c.validator.apply v c.closureArgs = .ok (0, c.validator.failure) := by
      rcases hpart with ⟨hopen, es, rfl⟩ | ⟨-, rfl⟩
      · exact (hcond.resolve_right fun h => h hopen).apply es _
      · exact Validator.apply_null c.validator_ne_skip hfn _
    exact ⟨_, by rw [hrun hfit, happly]; rfl⟩

/-- `lrange` for the first two elements, on a new connection whose peer answers
with the bytes `w` and then closes. -/
def lrangeBroken (w : Chunk) : Run (Returned × RedisSock Unit) :=
  (Command.lrange (ascii "k") 0 1).run (answering [.data w, .eof]) newConnection

theorem breaks_answering (w : Chunk) (e : Reply) {request : Bytes} (hne : request ≠ []) :
    Breaks (answering [.data w, .eof]) (redisAppend (redisSockGet newConnection).ctx request) e
      w.1 := by
  have harrives := (arrives_answering (quiet_data w) [.eof] hne).withReader
    (redisReplyReaderCreate callMem)
  rw [received, received, List.append_nil] at harrives
  exact .closed harrives

/-- The reply of `lrange` breaks off within its header. -/
theorem broken_reply_iff_header :
    ∃ s, lrangeBroken ⟨ascii "*2\r", by decide⟩ = .ok (.value .false, s) := by
  have he : (Reply.array [.bulk (ascii "a"), .bulk (ascii "b")]).Sound 2 := by
    simp [Reply.Sound]
    decide
  refine (@broken_reply_iff Unit _ newConnection ⟨rfl, rfl⟩ (.lrange (ascii "k") 0 1) (by decide) _
    rfl
    (.array [.bulk (ascii "a"), .bulk (ascii "b")]) 2 he (ascii "*2\r")
    (ascii "\n$1\r\na\r\n$1\r\nb\r\n") (by decide) (by decide)
    (breaks_answering _ _ (encodeRequest_ne_nil _))).mpr ⟨trivial, Or.inr ?_⟩
  rintro ⟨-, hopen⟩
  revert hopen
  decide

/-- The call returns the list of the one string `a`. -/
def returnsList (a : Bytes) : Run (Returned × RedisSock Unit) → Bool
  | .ok (.value (.array [(k, .string b)]), _) => k == .index 0 && b == a
  | _ => false

theorem of_returnsList {a : Bytes} {x : Run (Returned × RedisSock Unit)}
    (h : returnsList a x = true) : ∃ s, x = .ok (.value (.array [(.index 0, .string a)]), s) := by
  unfold returnsList at h
  split at h
  · rename_i k b s
    rw [Bool.and_eq_true, beq_iff_eq, beq_iff_eq] at h
    exact ⟨s, by rw [h.1, h.2]⟩
  · cases h

/-- The reply of `lrange` breaks off after its first element. -/
theorem not_all_or_nothing_lrange :
    let e : Reply := .array [.bulk (ascii "a"), .bulk (ascii "b")]
    let w : Chunk := ⟨ascii "*2\r\n$1\r\na\r\n", by decide⟩
    e.encode = w.1 ++ ascii "$1\r\nb\r\n" ∧
      (∃ ws, (Command.lrange (ascii "k") 0 1).sent = some ws ∧
        Breaks (answering [.data w, .eof])
          (redisAppend (redisSockGet newConnection).ctx (encodeRequest ws)) e w.1) ∧
      (∃ s, lrangeBroken w = .ok (.value (.array [(.index 0, .string (ascii "a"))]), s)) ∧
      ¬∃ s, lrangeBroken w = .ok (.value .false, s) := by
  intro e w
  have hrun := of_returnsList
    (show returnsList (ascii "a") (lrangeBroken w) = true by decide +kernel)
  refine ⟨by decide, ⟨_, rfl, breaks_answering w e (encodeRequest_ne_nil _)⟩, hrun, ?_⟩
  rintro ⟨s, hfalse⟩
  obtain ⟨s', harray⟩ := hrun
  rw [harray] at hfalse
  cases hfalse

end PhpHiredis
