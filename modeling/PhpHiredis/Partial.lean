import PhpHiredis.Decoding

/-!
# The value of an unfinished reply

The value of a reply is built in place while its bytes come in. When they stop
before the end, nothing has been built, unless the reply is an array: after its
header the variable holds an array, with some of its elements. Where the next
byte should be a type byte and is not one, or announces an array nested too
deep, the reader stops and leaves that value as it is.
-/
namespace PhpHiredis

open Library Library.Incremental Reader

namespace Reply

def header (n : ℕ) : Bytes := 42 :: (decimal n ++ CRLF)

theorem encode_array (es : List Reply) :
    (array es).encode = header es.length ++ encodeAll es := by
  simp [encode, typeByte, payload, header]

/-- The bytes `w` hold the whole header of the array, which has some elements. -/
def Opens (w : Bytes) : Reply → Prop
  | array es => es ≠ [] ∧ header es.length <+: w
  | _ => False

/-- After the bytes `w` of the reply comes the type byte of the reply itself, or of
a reply inside it. -/
inductive TypeDue : Reply → Bytes → Prop
  | root (e : Reply) : TypeDue e []
  | element (before : List Reply) {e : Reply} (after : List Reply) {w : Bytes} (h : TypeDue e w) :
      TypeDue (.array (before ++ e :: after))
        (header (before ++ e :: after).length ++ (encodeAll before ++ w))

end Reply

namespace Reader

/-- The type that the first byte of a reply announces. -/
def typeOf : Reply → ReplyType
  | .status _ => .status
  | .error _ => .error
  | .integer _ => .integer
  | .bulk _ | .nil => .string
  | .nilArray | .array _ => .array

theorem replyTypeOf_typeByte (e : Reply) : replyTypeOf e.typeByte = some (typeOf e) := by
  cases e <;> rfl

theorem parseTyped_payload {e : Reply} {d : ℕ} (he : e.Sound d) (hne : ∀ es, e ≠ .array es)
    {s : RedisReader} (hs : s.cur.type = some (typeOf e)) :
    ∃ x, parseTyped s e.payload = some (x, []) := by
  have hpayload : e.payload = e.payload ++ [] := (List.append_nil _).symm
  rw [hpayload]
  cases e with
  | status text =>
      have ht : findCRLF text = none := by cases d <;> exact he
      exact ⟨_, parseTyped_text ht (Or.inl hs) []⟩
  | error text =>
      have ht : findCRLF text = none := by cases d <;> exact he
      exact ⟨_, parseTyped_text ht (Or.inr hs) []⟩
  | integer n =>
      have hn : -2 ^ 63 ≤ n ∧ n < 2 ^ 63 := by cases d <;> exact he
      exact ⟨_, parseTyped_integer hn.1 hn.2 hs []⟩
  | bulk str =>
      have hl : str.length < 2 ^ 63 := by cases d <;> exact he
      exact ⟨_, parseTyped_bulk hl hs []⟩
  | nil => exact ⟨_, parseTyped_nil hs []⟩
  | nilArray => exact ⟨_, parseTyped_array (show -2 ^ 63 ≤ (-1 : ℤ) by decide) (by decide) hs []⟩
  | array es => exact absurd rfl (hne es)

theorem parseTyped_header {n : ℕ} (hn : n < 2 ^ 31) {s : RedisReader}
    (hs : s.cur.type = some .array) : ∃ x, parseTyped s (decimal n ++ CRLF) = some (x, []) := by
  have h := @parseTyped_array s n (by omega) (by omega) hs []
  rw [show decimalInt (n : ℤ) = decimal n by simp [decimalInt], List.append_nil] at h
  exact ⟨_, h⟩

structure Stopped (s : RedisReader) : Prop where
  ridx : s.ridx = -1
  error : s.error ≠ none

/-- No reply is complete: the reader waits for more bytes, or has stopped. -/
def Unfinished (s : RedisReader) : Prop := 0 ≤ s.ridx ∨ Stopped s

theorem stopped_fail (s : RedisReader) (err : Bytes) : Stopped (s.fail err) := ⟨rfl, nofun⟩

theorem Stopped.drain {s : RedisReader} (h : Stopped s) (xs : Bytes) :
    drain parseStep (.ok s) xs = (.ok s, xs) :=
  drain_stop (parseStep_stopped (by rw [h.ridx]; decide) xs)

theorem Awaits.invalid {s : RedisReader} {k : ℕ} {t : Target} {f : Zval → Mem}
    (h : Awaits s k t f) {b : UInt8} (hb : replyTypeOf b = none) (rest : Bytes) :
    drain parseStep (.ok s) (b :: rest) = (.ok (s.fail (typeByteError b)), rest) := by
  have hi := h.ridx
  have hstep : parseStep (.ok s) (b :: rest) = some (.ok (s.fail (typeByteError b)), rest) := by
    rw [parseStep_ok (by omega), parseItem_cons h.type, Reader.typeStep, hb]
  rw [drain_step parseStep_local hstep, (stopped_fail s _).drain]

/-- So does the type byte of an array in an array in an array. -/
theorem Awaits.tooDeep {s : RedisReader} {t : Target} {f : Zval → Mem} (h : Awaits s 2 t f) :
    ∃ s', Stopped s' ∧ s'.mem = s.mem ∧ ∀ rest,
      drain parseStep (.ok s) (42 :: rest) = (.ok s', rest) := by
  have hi := h.ridx
  let s' : RedisReader := (s.setCur { s.cur with type := some .array }).fail depthError
  have htype : Reader.typeStep s 42 = s' := if_pos ⟨rfl, hi⟩
  refine ⟨s', stopped_fail _ _, rfl, fun rest => ?_⟩
  have hstep : parseStep (.ok s) (42 :: rest) = some (.ok s', rest) := by
    rw [parseStep_ok (by omega), parseItem_cons h.type, htype]
  rw [drain_step parseStep_local hstep, (stopped_fail _ _).drain]

section
variable {s : RedisReader} {k : ℕ} {t : Target} {f : Zval → Mem}

/-- Within an item nothing is built: a part of its bytes changes the type of the task only. -/
theorem Awaits.drain_item_part (h : Awaits s k t f) {c : UInt8} {ty : ReplyType}
    (hc : replyTypeOf c = some ty) (hd : ty = .array → k ≠ 2) {payload w more : Bytes}
    (hp : ∃ x, parseTyped (typed s ty) payload = some (x, [])) (hw : c :: payload = w ++ more)
    (hmore : more ≠ []) :
    ∃ s' ys, drain parseStep (.ok s) w = (.ok s', ys) ∧ 0 ≤ s'.ridx ∧ s'.mem = s.mem := by
  have hi := h.ridx
  cases w with
  | nil => exact ⟨s, [], rfl, by omega, rfl⟩
  | cons b w =>
      obtain ⟨rfl, hpayload⟩ : c = b ∧ payload = w ++ more := List.cons.inj hw
      have h0 : 0 ≤ (typed s ty).ridx := show 0 ≤ s.ridx by omega
      have h₁ : parseStep (.ok s) (c :: w) = some (.ok (typed s ty), w) := by
        rw [parseStep_ok (by omega), parseItem_cons h.type, h.typeStep hc hd]
      have h₂ : parseStep (.ok (typed s ty)) w = none := by
        rw [parseStep_ok h0, parseItem_typed (by rw [typed_cur]; simp)]
        cases hx : parseTyped (typed s ty) w with
        | none => rfl
        | some r =>
            -- the rest of the item would be left over
            obtain ⟨x, hx'⟩ := hp
            have hext := parseTyped_extend (show _ = some (r.1, r.2) from hx) more
            rw [← hpayload, hx'] at hext
            have hnil := congrArg Prod.snd (Option.some.inj hext)
            exact absurd (List.append_eq_nil_iff.mp hnil.symm).2 hmore
      exact ⟨typed s ty, w, by rw [drain_step parseStep_local h₁, drain_stop h₂], h0, rfl⟩

variable {n : ℕ} {vs : List Zval} {m : Mem}

/-- What it means that the reader stops within the reply `e` at level `k`. -/
def Stops (k : ℕ) (e : Reply) : Prop :=
  ∀ {s : RedisReader} {t : Target} {f : Zval → Mem}, Awaits s k t f →
    ∃ s', Stopped s' ∧ (s'.mem = s.mem ∨ ∃ tab, s'.mem = f (.array tab)) ∧ ∀ rest,
      ∃ ys, drain parseStep (.ok s) (e.encode ++ rest) = (.ok s', ys)

/-- The elements before another one, by induction on them: the reader comes to the
next element, unless it stops within one of them. -/
theorem Inside.before (ho : Open m t f) {es : List Reply}
    (hes : ∀ e ∈ es, Reads (k + 1) e ∨ Stops (k + 1) e) (h : Inside s k t f n vs)
    (hn : vs.length + es.length < n) :
    (∃ s', Inside s' k t f n (vs ++ es.map Reply.value) ∧ ∀ rest,
      drain parseStep (.ok s) (Reply.encodeAll es ++ rest) = drain parseStep (.ok s') rest) ∨
    ∃ s', Stopped s' ∧ (∃ tab, s'.mem = f (.array tab)) ∧ ∀ rest,
      ∃ ys, drain parseStep (.ok s) (Reply.encodeAll es ++ rest) = (.ok s', ys) := by
  induction es generalizing s vs with
  | nil => exact Or.inl ⟨s, by simpa using h, fun rest => by simp⟩
  | cons e es ih =>
      simp only [List.length_cons] at hn
      rcases hes e (by simp) with hreads | hstops
      · obtain ⟨s₁, hb, hd⟩ := hreads (h.awaits ho)
        obtain ⟨s₂, hmove, hin, -⟩ := h.next hb (by omega)
        have hd₂ : ∀ rest, drain parseStep (.ok s) (Reply.encodeAll (e :: es) ++ rest) =
            drain parseStep (.ok s₂) (Reply.encodeAll es ++ rest) := fun rest => by
          rw [Reply.encodeAll_cons, List.append_assoc, hd, hmove]
        rcases ih (fun e he => hes e (by simp [he])) hin
          (by rw [List.length_append, List.length_singleton]; omega) with
          ⟨s', hin', hd'⟩ | ⟨s', hs', htab, hd'⟩
        · exact Or.inl ⟨s', by simpa using hin', fun rest => (hd₂ rest).trans (hd' rest)⟩
        · refine Or.inr ⟨s', hs', htab, fun rest => ?_⟩
          obtain ⟨ys, hys⟩ := hd' rest
          exact ⟨ys, (hd₂ rest).trans hys⟩
      · obtain ⟨s', hs', hmem, hd⟩ := hstops (h.awaits ho)
        refine Or.inr ⟨s', hs', ?_, fun rest => ?_⟩
        · rcases hmem with hmem | ⟨tab, hmem⟩
          · exact ⟨_, hmem.trans h.mem⟩
          · exact ⟨_, hmem⟩
        · rw [Reply.encodeAll_cons, List.append_assoc]
          exact hd _

/-- Arrays nested too deep stop the reader, by induction on the depth of the reply. -/
theorem stops_of_deep {d d' : ℕ} (hk : k + d = 2) {e : Reply} (he : e.Sound d')
    (hdeep : ¬e.Sound d) : Stops k e := by
  induction d' generalizing k d e with
  | zero => exact absurd (he.of_le (Nat.zero_le d)) hdeep
  | succ d' ih =>
      cases d with
      | zero =>
          intro s t f h
          obtain rfl : k = 2 := hk
          cases e with
          | nilArray | array es =>
              obtain ⟨s', hs', hmem, hd⟩ := h.tooDeep
              exact ⟨s', hs', Or.inl hmem, fun rest => ⟨_, hd _⟩⟩
          | _ => exact absurd he hdeep
      | succ d =>
          cases e with
          | array es =>
              obtain ⟨x, hx, hxdeep⟩ : ∃ x ∈ es, ¬x.Sound d := by
                by_contra hall
                exact hdeep ⟨he.1, fun x hx => by_contra fun h => hall ⟨x, hx, h⟩⟩
              obtain ⟨before, after, rfl⟩ := List.append_of_mem hx
              intro s t f h
              obtain ⟨s₀, hin, -, -, -, -, -, hd₀⟩ :=
                h.header (by omega) (List.length_pos_of_mem hx) he.1
              have hbefore : ∀ e ∈ before, Reads (k + 1) e ∨ Stops (k + 1) e := by
                intro e hm
                by_cases hsound : e.Sound d
                · exact Or.inl (reads_of_sound (by omega) hsound)
                · exact Or.inr (ih (by omega) (he.2 e (by simp [hm])) hsound)
              have hsplit : ∀ rest, (Reply.array (before ++ x :: after)).encode ++ rest =
                  Reply.header (before ++ x :: after).length ++ (Reply.encodeAll before ++
                    (x.encode ++ (Reply.encodeAll after ++ rest))) := fun rest => by
                simp only [Reply.encode_array, Reply.encodeAll_append, Reply.encodeAll_cons,
                  List.append_assoc]
              rcases hin.before h.place hbefore (show [].length + before.length < _ by simp) with
                ⟨s₁, hin₁, hd₁⟩ | ⟨s', hs', htab, hd'⟩
              · obtain ⟨s', hs', hmem, hd'⟩ := ih (show k + 1 + d = 2 by omega) (he.2 x hx) hxdeep
                  (hin₁.awaits h.place)
                refine ⟨s', hs', Or.inr ?_, fun rest => ?_⟩
                · rcases hmem with hmem | ⟨tab, hmem⟩
                  · exact ⟨_, hmem.trans hin₁.mem⟩
                  · exact ⟨_, hmem⟩
                · obtain ⟨ys, hys⟩ := hd' (Reply.encodeAll after ++ rest)
                  exact ⟨ys, by rw [hsplit]; exact ((hd₀ _).trans (hd₁ _)).trans hys⟩
              · refine ⟨s', hs', Or.inr htab, fun rest => ?_⟩
                obtain ⟨ys, hys⟩ := hd' (x.encode ++ (Reply.encodeAll after ++ rest))
                exact ⟨ys, by rw [hsplit]; exact (hd₀ _).trans hys⟩
          | _ => exact absurd he hdeep

theorem reads_or_stops {d : ℕ} (hk : k ≤ 2) {e : Reply} (he : e.Sound d) :
    Reads k e ∨ Stops k e := by
  by_cases hsound : e.Sound (2 - k)
  · exact Or.inl (reads_of_sound (by omega) hsound)
  · exact Or.inr (stops_of_deep (by omega) he hsound)

/-- What holds of the memory after some bytes of a reply at level `k`. -/
def ReadsPart (k : ℕ) (e : Reply) : Prop :=
  ∀ {s : RedisReader} {t : Target} {f : Zval → Mem}, Awaits s k t f →
    ∀ {w more : Bytes}, e.encode = w ++ more → more ≠ [] →
      ∃ s' ys, drain parseStep (.ok s) w = (.ok s', ys) ∧ Unfinished s' ∧
        ((e.Opens w ∧ ∃ tab, s'.mem = f (.array tab)) ∨ ((e.Opens w → k = 2) ∧ s'.mem = s.mem))

/-- Some elements of an array, and then a part of the next: by induction on the elements. -/
theorem Inside.drain_part (ho : Open m t f) {es : List Reply}
    (hes : ∀ e ∈ es, Reads (k + 1) e ∨ Stops (k + 1) e) (hparts : ∀ e ∈ es, ReadsPart (k + 1) e)
    (h : Inside s k t f n vs) (hn : n = vs.length + es.length) {w more : Bytes}
    (hw : Reply.encodeAll es = w ++ more) (hmore : more ≠ []) :
    ∃ s' ys, drain parseStep (.ok s) w = (.ok s', ys) ∧ Unfinished s' ∧
      ∃ tab, s'.mem = f (.array tab) := by
  induction es generalizing s vs w with
  | nil => exact absurd (List.append_eq_nil_iff.mp hw.symm).2 hmore
  | cons e es ih =>
      rw [Reply.encodeAll_cons] at hw
      have haw := h.awaits ho
      have hpart : ∀ {more'}, e.encode = w ++ more' → more' ≠ [] →
          ∃ s' ys, drain parseStep (.ok s) w = (.ok s', ys) ∧ Unfinished s' ∧
            ∃ tab, s'.mem = f (.array tab) := by
        intro more' hw' hmore'
        obtain ⟨s', ys, hd, hun, ⟨-, tab, hmem⟩ | ⟨-, hmem⟩⟩ :=
          hparts e (by simp) haw hw' hmore'
        · exact ⟨s', ys, hd, hun, _, hmem⟩
        · exact ⟨s', ys, hd, hun, _, hmem.trans h.mem⟩
      have hrest : ∀ {w'}, w = e.encode ++ w' → Reply.encodeAll es = w' ++ more →
          ∃ s' ys, drain parseStep (.ok s) w = (.ok s', ys) ∧ Unfinished s' ∧
            ∃ tab, s'.mem = f (.array tab) := by
        rintro w' rfl hw'
        have hes' : es ≠ [] := by
          rintro rfl
          exact hmore (List.append_eq_nil_iff.mp hw'.symm).2
        have hlen := List.length_pos_of_ne_nil hes'
        simp only [List.length_cons] at hn
        rcases hes e (by simp) with hreads | hstops
        · obtain ⟨s₁, hb, hd⟩ := hreads haw
          obtain ⟨s₂, hmove, hin, -⟩ := h.next hb (by omega)
          rw [hd, hmove]
          exact ih (fun e he => hes e (by simp [he])) (fun e he => hparts e (by simp [he])) hin
            (by rw [List.length_append, List.length_singleton]; omega) hw'
        · obtain ⟨s', hs', hmem, hd⟩ := hstops haw
          obtain ⟨ys, hys⟩ := hd w'
          refine ⟨s', ys, hys, Or.inr hs', ?_⟩
          rcases hmem with hmem | ⟨tab, hmem⟩
          · exact ⟨_, hmem.trans h.mem⟩
          · exact ⟨_, hmem⟩
      rcases List.append_eq_append_iff.mp hw with ⟨w', rfl, hw'⟩ | ⟨more', hw', hmore'⟩
      · exact hrest rfl hw'
      · by_cases hnil : more' = []
        · subst hnil
          exact hrest (by rw [hw', List.append_nil, List.append_nil]) (by simpa using hmore'.symm)
        · exact hpart hw' hnil

theorem Awaits.part_tooDeep (h : Awaits s 2 t f) {payload w more : Bytes}
    (hw : 42 :: payload = w ++ more) :
    ∃ s' ys, drain parseStep (.ok s) w = (.ok s', ys) ∧ Unfinished s' ∧ s'.mem = s.mem := by
  have hi := h.ridx
  cases w with
  | nil => exact ⟨s, [], rfl, Or.inl (by omega), rfl⟩
  | cons b w =>
      obtain ⟨rfl, -⟩ : 42 = b ∧ payload = w ++ more := List.cons.inj hw
      obtain ⟨s', hs', hmem, hd⟩ := h.tooDeep
      exact ⟨s', w, hd w, Or.inr hs', hmem⟩

theorem Awaits.part_item {d : ℕ} (h : Awaits s k t f) {e : Reply} (he : e.Sound d)
    (hne : ∀ es, e ≠ .array es) (hk : typeOf e = .array → k ≠ 2) {w more : Bytes}
    (hw : e.encode = w ++ more) (hmore : more ≠ []) :
    ∃ s' ys, drain parseStep (.ok s) w = (.ok s', ys) ∧ Unfinished s' ∧ s'.mem = s.mem := by
  obtain ⟨s', ys, hd, h0, hmem⟩ := h.drain_item_part (replyTypeOf_typeByte e) hk
    (parseTyped_payload he hne (by rw [typed_cur])) hw hmore
  exact ⟨s', ys, hd, Or.inl h0, hmem⟩

/-- A part of an array, given that its elements can be read in part. -/
theorem Awaits.part_array {d : ℕ} (h : Awaits s k t f) (hk : k < 2) {es : List Reply}
    (he : (Reply.array es).Sound (d + 1)) (hparts : ∀ e ∈ es, ReadsPart (k + 1) e)
    {w more : Bytes} (hw : (Reply.array es).encode = w ++ more) (hmore : more ≠ []) :
    ∃ s' ys, drain parseStep (.ok s) w = (.ok s', ys) ∧ Unfinished s' ∧
      (((Reply.array es).Opens w ∧ ∃ tab, s'.mem = f (.array tab)) ∨
        (¬(Reply.array es).Opens w ∧ s'.mem = s.mem)) := by
  rw [Reply.encode_array] at hw
  by_cases hopen : Reply.header es.length <+: w
  · obtain ⟨w', rfl⟩ := hopen
    rw [List.append_assoc, List.append_cancel_left_eq] at hw
    have hes : es ≠ [] := by
      rintro rfl
      exact hmore (List.append_eq_nil_iff.mp hw.symm).2
    obtain ⟨s₀, hin, -, -, -, -, -, hd₀⟩ :=
      h.header (by omega) (List.length_pos_of_ne_nil hes) he.1
    obtain ⟨s', ys, hd, hun, htab⟩ := hin.drain_part h.place
      (fun e hm => reads_or_stops (by omega) (he.2 e hm)) hparts (Nat.zero_add _).symm hw hmore
    exact ⟨s', ys, (hd₀ w').trans hd, hun, Or.inl ⟨⟨hes, List.prefix_append _ _⟩, htab⟩⟩
  · -- a part of the header
    have hpre : w <+: Reply.header es.length := by
      have h₁ : w <+: Reply.header es.length ++ Reply.encodeAll es := ⟨more, hw.symm⟩
      exact (List.prefix_or_prefix_of_prefix h₁ (List.prefix_append _ _)).resolve_right hopen
    obtain ⟨more', hmore'⟩ := hpre
    have hne : more' ≠ [] := by
      rintro rfl
      rw [List.append_nil] at hmore'
      exact hopen (hmore' ▸ List.prefix_refl _)
    obtain ⟨s', ys, hd, h0, hmem⟩ := h.drain_item_part (rfl : replyTypeOf 42 = some .array)
      (fun _ => by omega) (parseTyped_header he.1 (by rw [typed_cur])) hmore'.symm hne
    exact ⟨s', ys, hd, Or.inl h0, Or.inr ⟨fun h₁ => hopen h₁.2, hmem⟩⟩

/-- A part of a reply, by induction on its depth: before the end of its header
nothing is built, and after it there is an array. -/
theorem readsPart_of_sound {d : ℕ} (hk : k ≤ 2) {e : Reply} (he : e.Sound d) : ReadsPart k e := by
  induction d generalizing k e with
  | zero =>
      intro s t f h w more hw hmore
      have hne : ∀ es, e ≠ .array es := by
        rintro es rfl
        exact he
      have hty : typeOf e = .array → k ≠ 2 := by
        intro hty
        cases e <;> first | exact he.elim | cases hty
      obtain ⟨s', ys, hd, hun, hmem⟩ := h.part_item he hne hty hw hmore
      refine ⟨s', ys, hd, hun, Or.inr ⟨fun hopen => ?_, hmem⟩⟩
      cases e <;> exact absurd hopen (by first | exact he.elim | exact not_false)
  | succ d ih =>
      intro s t f h w more hw hmore
      by_cases hk2 : k = 2 ∧ typeOf e = .array
      · obtain ⟨rfl, hty⟩ := hk2
        have htype : e.typeByte = 42 := by cases e <;> first | rfl | cases hty
        rw [Reply.encode, htype] at hw
        obtain ⟨s', ys, hd, hun, hmem⟩ := h.part_tooDeep hw
        exact ⟨s', ys, hd, hun, Or.inr ⟨fun _ => rfl, hmem⟩⟩
      · have hty : typeOf e = .array → k ≠ 2 := fun hty hk => hk2 ⟨hk, hty⟩
        cases e with
        | array es =>
            have hlt : k < 2 := Nat.lt_of_le_of_ne hk (hty rfl)
            obtain ⟨s', ys, hd, hun, hmem⟩ := h.part_array hlt he
              (fun e hm => ih (by omega) (he.2 e hm)) hw hmore
            exact ⟨s', ys, hd, hun, hmem.imp_right fun h => ⟨fun hopen => absurd hopen h.1, h.2⟩⟩
        | _ =>
            obtain ⟨s', ys, hd, hun, hmem⟩ := h.part_item he (by simp) hty hw hmore
            exact ⟨s', ys, hd, hun, Or.inr ⟨fun hopen => hopen.elim, hmem⟩⟩

/-- Where a type byte is due, the reader waits for one, unless it has stopped. -/
theorem Awaits.due {d : ℕ} (hk : k ≤ 2) {e : Reply} (he : e.Sound d) {w : Bytes}
    (hw : e.TypeDue w) (h : Awaits s k t f) :
    (∃ s' k' t' f', Awaits s' k' t' f' ∧ drain parseStep (.ok s) w = (.ok s', [])) ∨
      ∃ s' ys, Stopped s' ∧ drain parseStep (.ok s) w = (.ok s', ys) := by
  induction hw generalizing s k t f d with
  | root e => exact Or.inl ⟨s, k, t, f, h, rfl⟩
  | @element before e after w _ ih =>
      cases d with
      | zero => exact he.elim
      | succ d =>
          by_cases hk2 : k = 2
          · subst hk2
            obtain ⟨s', hs', -, hd⟩ := h.tooDeep
            exact Or.inr ⟨s', _, hs', hd _⟩
          have hne : before ++ e :: after ≠ [] := by simp
          obtain ⟨s₀, hin, -, -, -, -, -, hd₀⟩ :=
            h.header hk2 (List.length_pos_of_ne_nil hne) he.1
          rcases hin.before h.place
            (fun e hm => reads_or_stops (by omega) (he.2 e (by simp [hm])))
            (show [].length + before.length < _ by simp) with
            ⟨s₁, hin₁, hd₁⟩ | ⟨s', hs', -, hd'⟩
          · have hd := (hd₀ _).trans (hd₁ w)
            rcases ih (show k + 1 ≤ 2 by omega) (he.2 e (by simp)) (hin₁.awaits h.place) with
              ⟨s', k', t', f', haw, hd'⟩ | ⟨s', ys, hs', hd'⟩
            · exact Or.inl ⟨s', k', t', f', haw, hd.trans hd'⟩
            · exact Or.inr ⟨s', ys, hs', hd.trans hd'⟩
          · obtain ⟨ys, hys⟩ := hd' w
            exact Or.inr ⟨s', ys, hs', (hd₀ _).trans hys⟩

end

section
variable {s : RedisReader} {x d : ℕ} {z : Zval} {e : Reply} {w : Bytes}

theorem Idle.part (hs : Idle s x) (hz : s.mem x = some z) (he : e.Sound d) {more : Bytes}
    (hw : e.encode = w ++ more) (hmore : more ≠ []) :
    ∃ s' ys, drain parseStep (.ok (startReply s)) w = (.ok s', ys) ∧ Unfinished s' ∧
      ((e.Opens w ∧ ∃ tab, s'.mem x = some (.array tab)) ∨ (¬e.Opens w ∧ s'.mem x = some z)) := by
  have haw := hs.awaits hz
  obtain ⟨s', ys, hd, hun, hmem⟩ := readsPart_of_sound (Nat.zero_le 2) he haw hw hmore
  refine ⟨s', ys, hd, hun, ?_⟩
  rcases hmem with ⟨hopen, tab, hmem⟩ | ⟨hopen, hmem⟩
  · exact Or.inl ⟨hopen, tab, by rw [hmem]; exact set_self s.mem x _⟩
  · have hstart : (startReply s).mem = s.mem := by rw [startReply, if_pos hs.ridx]
    exact Or.inr ⟨fun h => absurd (hopen h) (by decide), by rw [hmem, hstart, hz]⟩

theorem Idle.part_invalid (hs : Idle s x) (hz : s.mem x = some z) (he : e.Sound d)
    (hw : e.TypeDue w) {b : UInt8} (hb : replyTypeOf b = none) (junk : Bytes) {s' : RedisReader}
    {ys : Bytes} (hd : drain parseStep (.ok (startReply s)) w = (.ok s', ys)) :
    ∃ s'' zs, drain parseStep (.ok (startReply s)) (w ++ b :: junk) = (.ok s'', zs) ∧
      Stopped s'' ∧ s''.mem = s'.mem := by
  rw [drain_append parseStep_local]
  rcases (hs.awaits hz).due (Nat.zero_le 2) he hw with
    ⟨s₁, k', t', f', haw, hd₁⟩ | ⟨s₁, zs, hs₁, hd₁⟩
  · obtain ⟨hs', rfl⟩ := Prod.mk.inj (hd.symm.trans hd₁)
    cases hs'
    exact ⟨_, junk, by rw [hd]; exact haw.invalid hb junk, stopped_fail _ _, rfl⟩
  · obtain ⟨hs', rfl⟩ := Prod.mk.inj (hd.symm.trans hd₁)
    cases hs'
    exact ⟨_, _, by rw [hd]; exact hs₁.drain _, hs₁, rfl⟩

end

end Reader

end PhpHiredis
