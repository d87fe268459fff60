import PhpHiredis.ObjectRuns

/-!
# Receiving replies one by one

A program that calls the reader for one reply after the other, and either keeps the object
of a reply or frees it at once. The calls so far are listed; what the reader has and what
is still to come make up the replies that are not read yet.
-/
namespace PhpHiredis.Objects

open Library Library.Incremental Library.Trees Reader

variable {κ : Type}

def handed (calls : List (Option κ × Option ℕ)) : List ℕ :=
  calls.filterMap fun call => call.1.bind fun _ => call.2

/-- What these objects should be: each call has a reply of its own. -/
def handedOf (es : List Reply) (calls : List (Option κ × Option ℕ)) : List Obj :=
  (calls.zip es).filterMap fun (call, e) => call.1.bind fun _ => call.2.map fun _ => objectOf e

theorem handed_append (calls calls' : List (Option κ × Option ℕ)) :
    handed (calls ++ calls') = handed calls ++ handed calls' := List.filterMap_append

theorem handedOf_append (es : List Reply) (calls calls' : List (Option κ × Option ℕ)) :
    handedOf es (calls ++ calls') =
      handedOf es calls ++ handedOf (es.drop calls.length) calls' := by
  induction calls generalizing es with
  | nil => rfl
  | cons call calls ih =>
      cases es with
      | nil => simp [handedOf]
      | cons e es =>
          have h := ih es
          simp only [handedOf, List.cons_append, List.zip_cons_cons, List.filterMap_cons,
            List.length_cons, List.drop_succ_cons] at h ⊢
          cases call.1.bind fun _ => call.2.map fun _ => objectOf e with
          | none => exact h
          | some o => simp only [h, List.cons_append]

theorem handed_lost {lost : List (Option κ × Option ℕ)} (hlost : ∀ call ∈ lost, call.2 = none)
    (calls : List (Option κ × Option ℕ)) (es : List Reply) :
    handed (calls ++ lost) = handed calls ∧ handedOf es (calls ++ lost) = handedOf es calls := by
  have h₁ : handed lost = [] := by
    refine List.filterMap_eq_nil_iff.mpr fun call hcall => ?_
    rw [hlost call hcall]
    cases call.1 <;> rfl
  have h₂ : handedOf (es.drop calls.length) lost = [] := by
    refine List.filterMap_eq_nil_iff.mpr fun p hp => ?_
    obtain ⟨call, e⟩ := p
    simp only [hlost call (List.of_mem_zip hp).1]
    cases call.1 <;> rfl
  rw [handed_append, handedOf_append, h₁, h₂, List.append_nil, List.append_nil]
  exact ⟨rfl, rfl⟩

/-- The reader has got one reply for each call, and with the bytes to come it will get the
others. -/
structure Receives (es : List Reply) (m : Progress) (r : ObjectReader)
    (calls : List (Option κ × Option ℕ)) (future : Bytes) : Prop where
  follows : ∃ F out, Follows ⟨r, handed calls, m.statuses⟩ m F out
  item : ∃ stack type, m.state = .item stack type
  le : calls.length ≤ es.length
  held : m.held = handedOf es calls
  rest : drain step m.state (m.unread ++ future) =
    drain step (.item [] none) (Reply.encodeAll (es.drop calls.length))
  suffix : m.unread ++ future <:+ Reply.encodeAll (es.drop calls.length)

/-- No reply is complete in the buffer. -/
def Settled (m : Progress) : Prop := drain step m.state m.unread = (m.state, m.unread)

section
variable {es : List Reply} {m : Progress} {r : ObjectReader}
  {calls : List (Option κ × Option ℕ)} {future : Bytes}

theorem receives_new (es : List Reply) :
    Receives es newProgress (redisReplyReaderCreate Heap.empty) ([] : List (Option κ × Option ℕ))
      (Reply.encodeAll es) where
  follows := ⟨∅, ∅, follows_new⟩
  item := ⟨[], none, rfl⟩
  le := Nat.zero_le _
  held := rfl
  rest := rfl
  suffix := List.suffix_rfl

theorem settled_new : Settled newProgress := drain_nil

theorem Receives.feed {bytes : Bytes} (h : Receives es m r calls (bytes ++ future)) :
    Receives es (m.step (.feed bytes)) (redisReplyReaderFeed r bytes) calls future := by
  obtain ⟨F, out, hfollows⟩ := h.follows
  obtain ⟨c, hstep, hfollows'⟩ := hfollows.feed bytes h.item
  cases hstep
  refine ⟨⟨F, out, hfollows'⟩, h.item, h.le, h.held, ?_, ?_⟩
  · rw [← h.rest, Progress.step, List.append_assoc]
  · have hsuffix := h.suffix
    rwa [← List.append_assoc] at hsuffix

theorem drain_done_lt {stack : List OpenArray} {type : Option ReplyType} {xs ys : Bytes} {o : Obj}
    (h : drain step (.item stack type) xs = (.done o, ys)) : ys.length < xs.length := by
  cases hstep : step (.item stack type) xs with
  | none =>
      rw [drain_stop hstep] at h
      cases h
  | some p =>
      obtain ⟨st, zs⟩ := p
      have hlt := step_local.shrinks hstep
      have hle := (drain_suffix step_local st zs).length_le
      rw [← drain_step step_local hstep, h] at hle
      exact Nat.lt_of_le_of_lt hle hlt

/-- The reply that a call returned, from the objects that the client has after it. -/
theorem getReply_inv {c c' : Client} (h : c.step .getReply = .ok c') :
    ∃ status reply, redisReplyReaderGetReply defaultFunctions c.reader =
      .ok (status, reply, c'.reader) ∧
      c'.held = c.held ++ reply.toList ∧ c'.statuses = c.statuses ++ [status] := by
  obtain ⟨⟨status, reply, reader⟩, hrun, hc⟩ := Outcome.bind_eq_ok.mp h
  cases hc
  exact ⟨status, reply, hrun, rfl, rfl⟩

theorem snoc_erase {α : Type} (l : List α) (a : α) : (l ++ [a]).eraseIdx l.length = l := by
  rw [List.eraseIdx_append_of_length_le (Nat.le_refl _)]
  simp

theorem Receives.len (h : Receives es m r calls future) : m.unread.length ≤ r.len := by
  obtain ⟨F, out, hfollows⟩ := h.follows
  obtain ⟨stack, type, hstate⟩ := h.item
  have hlen : r.len - r.pos = m.unread.length := (hfollows.reading stack type hstate).2.length
  omega

theorem Receives.fetch (h : Receives es m r calls future) (hm : m.Allowed .getReply) :
    ∃ status reply r' F out, redisReplyReaderGetReply defaultFunctions r = .ok (status, reply, r') ∧
      Follows ⟨r', handed calls ++ reply.toList, m.statuses ++ [status]⟩ (m.step .getReply) F
        out := by
  obtain ⟨F, out, hfollows⟩ := h.follows
  obtain ⟨c, F', out', hstep, hfollows'⟩ := hfollows.getReply hm
  obtain ⟨status, reply, hrun, hheld, hstatuses⟩ := getReply_inv hstep
  obtain ⟨r', held, statuses⟩ := c
  cases hheld
  cases hstatuses
  exact ⟨status, reply, r', F', out', hrun, hfollows'⟩

theorem Follows.length {c : Client} {F out : Finset ℕ} (h : Follows c m F out) :
    c.held.length = m.held.length := (List.length_map _).symm.trans h.held.length

theorem Receives.length (h : Receives es m r calls future) :
    (handed calls).length = m.held.length := by
  obtain ⟨F, out, hfollows⟩ := h.follows
  exact hfollows.length

theorem Receives.waits {stack : List OpenArray} {type : Option ReplyType} {ys : Bytes}
    (h : Receives es m r calls future) (hp : drain step m.state m.unread = (.item stack type, ys)) :
    ∃ m' r', redisReplyReaderGetReply defaultFunctions r = .ok (.ok, none, r') ∧
      Receives es m' r' calls future ∧ Settled m' := by
  have hm : m.step .getReply = ⟨.item stack type, ys, m.held, m.statuses ++ [.ok]⟩ := by
    simp only [Progress.step, Progress.fetch, hp]
  obtain ⟨status, reply, r', F, out, hrun, hfollows⟩ := h.fetch ⟨h.item, by rw [hp]; simp⟩
  rw [hm] at hfollows
  obtain rfl : status = .ok := by simpa using hfollows.statuses
  have hlen : (handed calls ++ reply.toList).length = m.held.length := hfollows.length
  rw [List.length_append, h.length] at hlen
  obtain rfl : reply = none := by
    cases reply with
    | none => rfl
    | some obj => simp at hlen
  simp only [Option.toList_none, List.append_nil] at hfollows
  refine ⟨⟨.item stack type, ys, m.held, m.statuses ++ [.ok]⟩, r', hrun,
    ⟨⟨F, out, hfollows⟩, ⟨_, _, rfl⟩, h.le, h.held, ?_, ?_⟩, ?_⟩
  · have hrest := h.rest
    rwa [drain_append step_local, hp] at hrest
  · have hsuffix := drain_suffix step_local m.state m.unread
    rw [hp] at hsuffix
    obtain ⟨pre, hpre⟩ := hsuffix
    refine List.IsSuffix.trans ⟨pre, ?_⟩ h.suffix
    rw [← List.append_assoc, hpre]
  · have hstop := step_drain step_local m.state m.unread
    rw [hp] at hstop
    exact drain_stop hstop

/-- A call at the end of a reply returns its object. The program keeps it, or frees it. -/
theorem Receives.gives {ys : Bytes} (h : Receives es m r calls future)
    (hlt : calls.length < es.length)
    (hp : drain step m.state m.unread = (.done (objectOf es[calls.length]), ys))
    (hys : ys ++ future = Reply.encodeAll (es.drop (calls.length + 1))) :
    ∃ m' obj r', redisReplyReaderGetReply defaultFunctions r = .ok (.ok, some obj, r') ∧
      m'.unread.length < m.unread.length ∧
      m'.unread ++ future = Reply.encodeAll (es.drop (calls.length + 1)) ∧
      (∀ k, Receives es m' r' (calls ++ [(some k, some obj)]) future) ∧
      ∃ mem, freeReplyObject obj r'.mem = .ok mem ∧
        Receives es { m' with held := m.held } { r' with mem := mem }
          (calls ++ [(none, some obj)]) future := by
  have hm : m.step .getReply =
      ⟨.item [] none, ys, m.held ++ [objectOf es[calls.length]], m.statuses ++ [.ok]⟩ := by
    simp only [Progress.step, Progress.fetch, hp]
  obtain ⟨status, reply, r', F, out, hrun, hfollows⟩ := h.fetch ⟨h.item, by rw [hp]; simp⟩
  rw [hm] at hfollows
  obtain rfl : status = .ok := by simpa using hfollows.statuses
  have hlen : (handed calls ++ reply.toList).length =
      (m.held ++ [objectOf es[calls.length]]).length := hfollows.length
  rw [List.length_append, List.length_append, h.length] at hlen
  obtain ⟨obj, rfl⟩ : ∃ obj, reply = some obj := by
    cases reply with
    | none => simp at hlen
    | some obj => exact ⟨obj, rfl⟩
  rw [Option.toList_some] at hfollows
  obtain ⟨stack, type, hstate⟩ := h.item
  rw [hstate] at hp
  have hcount : ∀ k : Option κ, (calls ++ [(k, some obj)]).length = calls.length + 1 :=
    fun _ => by simp
  have hdrop := List.drop_eq_getElem_cons hlt
  refine ⟨⟨.item [] none, ys, m.held ++ [objectOf es[calls.length]], m.statuses ++ [.ok]⟩, obj, r',
    hrun, drain_done_lt hp, hys, fun k => ?_, ?_⟩
  · refine ⟨⟨F, out, ?_⟩, ⟨_, _, rfl⟩, by rw [hcount]; exact hlt, ?_, by rw [hcount, hys],
      by rw [hcount, hys]⟩
    · rw [handed_append]
      exact hfollows
    · rw [handedOf_append, hdrop, ← h.held]
      rfl
  · obtain ⟨c, out', hfree, hfollows'⟩ := hfollows.free (handed calls).length
    simp only [Client.step, List.getElem?_concat_length] at hfree
    obtain ⟨mem, hmem, hc⟩ := Outcome.bind_eq_ok.mp hfree
    cases hc
    refine ⟨mem, hmem, ⟨F, out', ?_⟩, ⟨_, _, rfl⟩, by rw [hcount]; exact hlt, ?_,
      by rw [hcount, hys], by rw [hcount, hys]⟩
    · rw [snoc_erase, Progress.step] at hfollows'
      simp only [h.length, snoc_erase] at hfollows'
      have hnone : handed [((none : Option κ), some obj)] = [] := rfl
      rw [handed_append, hnone, List.append_nil]
      exact hfollows'
    · rw [handedOf_append, hdrop, ← h.held]
      exact (List.append_nil _).symm

/-- One call returns nothing, or the next reply. -/
theorem Receives.getReply (hes : ∀ e ∈ es, e.Sound 2) (h : Receives es m r calls future) :
    (∃ m' r', redisReplyReaderGetReply defaultFunctions r = .ok (.ok, none, r') ∧
      Receives es m' r' calls future ∧ Settled m') ∨
    calls.length < es.length ∧
      ∃ m' obj r', redisReplyReaderGetReply defaultFunctions r = .ok (.ok, some obj, r') ∧
        m'.unread.length < m.unread.length ∧
        m'.unread ++ future = Reply.encodeAll (es.drop (calls.length + 1)) ∧
        (∀ k, Receives es m' r' (calls ++ [(some k, some obj)]) future) ∧
        ∃ mem, freeReplyObject obj r'.mem = .ok mem ∧
          Receives es { m' with held := m.held } { r' with mem := mem }
            (calls ++ [(none, some obj)]) future := by
  rcases drain_among hes h.rest with ⟨stack, type, ys, hp⟩ | ⟨e, ys, he, hp, hys⟩
  · exact .inl (h.waits hp)
  · obtain ⟨hlt, rfl⟩ := List.getElem?_eq_some_iff.mp he
    exact .inr ⟨hlt, h.gives hlt hp hys⟩

end

theorem Receives.all {es : List Reply} {m : Progress} {r : ObjectReader}
    {calls : List (Option κ × Option ℕ)} (hes : ∀ e ∈ es, e.Sound 2) (h : Receives es m r calls [])
    (hsettled : Settled m) : calls.length = es.length := by
  have hle := h.le
  by_contra hne
  have hlt : calls.length < es.length := by omega
  obtain ⟨stack, type, hstate⟩ := h.item
  have hrest := h.rest
  rw [List.append_nil, hsettled, hstate, List.drop_eq_getElem_cons hlt,
    drain_encodeAll (hes _ (List.getElem_mem hlt))] at hrest
  cases hrest

theorem Receives.more {es : List Reply} {m : Progress} {r : ObjectReader}
    {calls : List (Option κ × Option ℕ)} {future : Bytes} (h : Receives es m r calls future)
    (es' : List Reply) : Receives (es ++ es') m r calls (future ++ Reply.encodeAll es') := by
  have hdrop : (es ++ es').drop calls.length = es.drop calls.length ++ es' :=
    List.drop_append_of_le_length h.le
  have hzip : calls.zip (es ++ es') = calls.zip es := by
    rw [List.zip_eq_zip_take_min, @List.zip_eq_zip_take_min _ _ calls es, List.length_append,
      Nat.min_eq_left h.le, Nat.min_eq_left (h.le.trans (Nat.le_add_right _ _)),
      List.take_append_of_le_length h.le]
  refine ⟨h.follows, h.item, h.le.trans (by simp), ?_, ?_, ?_⟩
  · rw [handedOf, hzip]
    exact h.held
  · rw [hdrop, Reply.encodeAll_append, ← List.append_assoc, drain_append step_local, h.rest,
      ← drain_append step_local]
  · rw [hdrop, Reply.encodeAll_append, ← List.append_assoc]
    obtain ⟨pre, hpre⟩ := h.suffix
    exact ⟨pre, by rw [← hpre, List.append_assoc, List.append_assoc, List.append_assoc]⟩

/-- The objects that were kept are those of their replies, and only the cells in `F` are in
use beside these. -/
def Keeps (es : List Reply) (mem : ReplyHeap) (calls : List (Option κ × Option ℕ))
    (F : Finset ℕ) : Prop :=
  ∃ out, HoldsAll mem ((handed calls).map some) (handedOf es calls) out ∧ Disjoint F out ∧
    ∀ a, mem.cells a ≠ none ↔ a ∈ F ∪ out

theorem Receives.keeps {es : List Reply} {m : Progress} {r : ObjectReader}
    {calls : List (Option κ × Option ℕ)} {future : Bytes} (h : Receives es m r calls future) :
    ∃ F, Keeps es r.mem calls F := by
  obtain ⟨F, out, hfollows⟩ := h.follows
  exact ⟨F, out, h.held ▸ hfollows.held, hfollows.ledger.apart, hfollows.ledger.used⟩

theorem Receives.keepsOnly {es : List Reply} {m : Progress} {r : ObjectReader}
    {calls : List (Option κ × Option ℕ)} {future : Bytes} (h : Receives es m r calls future)
    (hall : calls.length = es.length) : Keeps es r.mem calls ∅ := by
  obtain ⟨F, out, hfollows⟩ := h.follows
  obtain ⟨stack, type, hstate⟩ := h.item
  have hend : Reply.encodeAll (es.drop calls.length) = [] := by
    rw [hall, List.drop_length, Reply.encodeAll_nil]
  have hunread : m.unread ++ future = [] := List.suffix_nil.mp (hend ▸ h.suffix)
  have hrest := h.rest
  rw [hunread, hend, hstate, drain_nil, drain_nil, Prod.mk.injEq] at hrest
  obtain ⟨hrests, -⟩ := hfollows.reading _ _ hstate
  rw [hstate, hrest.1] at hrests
  obtain rfl : F = ∅ := hrests.empty
  exact ⟨out, h.held ▸ hfollows.held, hfollows.ledger.apart, hfollows.ledger.used⟩

end PhpHiredis.Objects
