import PhpHiredis.Methods
import PhpHiredis.Queues
import PhpHiredis.Server

/-!
# Replaying the queues

The three loops that walk a queue and read replies, as functions on lists of
entries and replies. `send` replays every entry on its own reply; `exec` skips
one reply for every entry of the main queue, and replays the side queue on the
elements of the next one.
-/
namespace PhpHiredis

open Library Reader

/-- The validators of a block on the elements of a reply, up to the end of
either. A validator may keep its value to itself. -/
def validated : List Validator → List Zval → Run (List Zval)
  | fn :: fns, z :: zs => do
      let (r, z) ← fn.apply z none
      let vals ← validated fns zs
      return if r = 0 then z :: vals else vals
  | _, _ => .ok []

/-- What an entry contributes for its reply. The join of an empty block is taken
for a command, and has no validator. -/
def Entry.replay : Entry → Zval → Run (List Zval)
  | .reply fn, z => do
      let (r, z) ← fn.apply z none
      return if r = 0 then [z] else []
  | .block [], _ => .fault .nullPointer
  | .block (fn :: fns), z => do
      let es ← z.arrval
      let vals ← validated (fn :: fns) (es.map Prod.snd)
      return [.array (listTable vals)]

def replay : List Entry → List Zval → Run (List Zval)
  | e :: es, z :: zs => do
      let vals ← e.replay z
      let rest ← replay es zs
      return vals ++ rest
  | _, _ => .ok []

/-- The reply has no elements beyond the commands of its block. -/
def Entry.Covers : Entry → Reply → Prop
  | .block fns, .array elems => elems.length ≤ fns.length
  | _, _ => True

theorem Entry.Covers.elems {fns : List Validator} {r : Reply} (h : Covers (.block fns) r)
    {es : HashTable} (he : r.value.arrval = .ok es) : (es.map Prod.snd).length ≤ fns.length := by
  cases r with
  | array elems =>
      rw [Reply.value_array] at he
      cases he
      rw [listTable_values, List.length_map]
      exact h
  | status text =>
      rw [Reply.value] at he
      split at he <;> cases he
  | _ =>
      rw [Reply.value] at he
      cases he

theorem replay_append {es es' : List Entry} {zs zs' : List Zval} (h : es.length = zs.length) :
    replay (es ++ es') (zs ++ zs') = do
      let vals ← replay es zs
      let vals' ← replay es' zs'
      return vals ++ vals' := by
  induction es generalizing zs with
  | nil =>
      obtain rfl := List.eq_nil_of_length_eq_zero h.symm
      exact (bind_pure _).symm
  | cons e es ih =>
      cases zs with
      | nil => cases h
      | cons z zs =>
          simp only [List.cons_append, replay, ih (Nat.succ.inj h), bind_assoc, Outcome.pure_eq,
            Outcome.ok_bind, List.append_assoc]

theorem callFun_validates {h : Heap} {a : ℕ} {fn : Validator} (hv : h.Validates a fn) (z : Zval) :
    callFun (h.cells a) z = fn.apply z none := by
  rw [callFun, hv.1, hv.2]

/-- The loop over a block. Nodes that were hung on its list later are not
reached, for the elements of the reply end first. -/
theorem replayBlock_eq {h : Heap} {l : List ℕ} {fns : List Validator}
    (hl : List.Forall₂ h.Validates l fns) {p : Option ℕ} {extra : List ℕ}
    (hp : Chain h.next p (l ++ extra)) {zs : List Zval}
    (hzs : extra = [] ∨ zs.length ≤ fns.length) (acc : List Zval) :
    replayBlock h p zs (listTable acc) =
      validated fns zs >>= fun vals => .ok (listTable (acc ++ vals)) := by
  induction hl generalizing p zs acc with
  | nil =>
      have hempty : validated [] zs = .ok [] := by simp [validated]
      rw [hempty, Outcome.ok_bind, List.append_nil]
      rcases hzs with rfl | hzs
      · rw [show p = none from hp]
        simp [replayBlock]
      · rw [List.eq_nil_of_length_eq_zero (Nat.le_zero.mp hzs)]
        cases p <;> rfl
  | @cons a fn l fns ha _ ih =>
      rw [hp.1]
      cases zs with
      | nil => simp [replayBlock, validated]
      | cons z zs =>
          simp only [replayBlock, callFun_validates ha, validated, bind_assoc, Outcome.pure_eq,
            Outcome.ok_bind]
          refine congrArg _ (funext fun r => ?_)
          have hzs' : extra = [] ∨ zs.length ≤ fns.length := by
            simpa using hzs
          split_ifs
          · rw [addNextIndex_listTable]
            exact (ih hp.2 hzs' _).trans (by simp)
          · exact ih hp.2 hzs' acc

/-- Contexts that deliver some replies, one after another. The variables that are
in use play no part. -/
structure Source {σ : Type} (peer : Peer σ) (P : ExtContext σ → List Reply → Prop) : Prop where
  withMem : ∀ {c R}, P c R → ∀ mem, P { c with reader := { c.reader with mem := mem } } R
  readInto : ∀ {c r R x z}, P c (r :: R) → c.reader.mem x = some z →
    ∃ c', readInto peer c x = .ok (r.value, c') ∧ P c' R

namespace Source

variable {σ : Type} {peer : Peer σ} {P : ExtContext σ → List Reply → Prop} {c : ExtContext σ}
  {r : Reply} {R S : List Reply}

theorem readNew (hP : Source peer P) (h : P c (r :: R)) (x : ℕ) :
    ∃ c', PhpHiredis.readInto peer (makeZval c x) x = .ok (r.value, c') ∧ P c' R :=
  hP.readInto (hP.withMem h _) (Function.update_self ..)

theorem skipLoop (hP : Source peer P) {h : Heap} {l : List ℕ} {p : Option ℕ}
    (hp : Chain h.next p l) {n : ℕ} (hn : l.length ≤ n) (hc : P c (R ++ S))
    (hlen : R.length = l.length) :
    ∃ c', PhpHiredis.skipLoop peer h n p c = .ok c' ∧ P c' S := by
  induction l generalizing p n c R with
  | nil =>
      obtain rfl := List.eq_nil_of_length_eq_zero hlen
      rw [show p = none from hp]
      exact ⟨c, by cases n <;> rfl, hc⟩
  | cons a l ih =>
      cases R with
      | nil => cases hlen
      | cons r R =>
          obtain ⟨n, rfl⟩ := Nat.exists_eq_succ_of_ne_zero (show n ≠ 0 by simp at hn; omega)
          obtain ⟨c₁, hread, h₁⟩ := hP.readNew hc (a + 1)
          obtain ⟨c₂, hskip, h₂⟩ := ih hp.2 (show l.length ≤ n by simpa using hn)
            (hP.withMem h₁ _) (Nat.succ.inj hlen)
          refine ⟨c₂, ?_, h₂⟩
          rw [hp.1]
          simp only [PhpHiredis.skipLoop, hread, Outcome.ok_bind]
          exact hskip

theorem sendLoop (hP : Source peer P) {h : Heap} {l : List ℕ} {es : List Entry}
    (hes : List.Forall₂ h.Stands l es) {p : Option ℕ} (hp : Chain h.next p l) {n : ℕ}
    (hn : l.length ≤ n) (hc : P c (R ++ S)) (hR : List.Forall₂ Entry.Covers es R) :
    ∃ c', P c' S ∧ ∀ acc, PhpHiredis.sendLoop peer h n p c (listTable acc) =
      replay es (R.map Reply.value) >>= fun vals => .ok (listTable (acc ++ vals), c') := by
  induction hes generalizing p n c R with
  | nil =>
      rw [List.forall₂_nil_left_iff] at hR
      subst hR
      rw [show p = none from hp]
      exact ⟨c, hc, fun acc => by cases n <;> simp [PhpHiredis.sendLoop, replay]⟩
  | @cons a e l es ha _ ih =>
      cases hR with
      | @cons _ r _ R hr hR =>
          obtain ⟨n, rfl⟩ := Nat.exists_eq_succ_of_ne_zero (show n ≠ 0 by simp at hn; omega)
          have hn' : l.length ≤ n := by simpa using hn
          obtain ⟨c₁, hread, h₁⟩ := hP.readNew hc (a + 1)
          rw [hp.1]
          simp only [PhpHiredis.sendLoop, hread, Outcome.ok_bind, List.map_cons, replay, bind_assoc,
            Outcome.pure_eq]
          cases e with
          | reply fn =>
              obtain ⟨hfn, hmulti⟩ := ha
              obtain ⟨c₂, h₂, hloop⟩ := ih hp.2 hn' h₁ hR
              refine ⟨c₂, h₂, fun acc => ?_⟩
              simp only [hmulti, callFun_validates hfn, Entry.replay, bind_assoc, Outcome.pure_eq,
                Outcome.ok_bind]
              refine congrArg _ (funext fun t => ?_)
              change PhpHiredis.sendLoop peer h n (h.next a) c₁ _ = _
              split_ifs
              · rw [addNextIndex_listTable, hloop]
                simp
              · rw [hloop]
                simp
          | block fns =>
              obtain ⟨hfun, hempty, bl, extra, hbl, -, hfns⟩ := ha
              obtain ⟨c₂, h₂, hloop⟩ := ih hp.2 hn' (hP.withMem h₁ _) hR
              refine ⟨c₂, h₂, fun acc => ?_⟩
              cases fns with
              | nil => simp [hempty rfl, callFun, hfun, Entry.replay]
              | cons fn fns =>
                  cases bl with
                  | nil => cases hfns
                  | cons b bl =>
                      simp only [hbl.1, Entry.replay, bind_assoc, Outcome.pure_eq, Outcome.ok_bind]
                      cases hv : r.value.arrval with
                      | fault e => rfl
                      | blocked => rfl
                      | ok elems =>
                          have hblock := replayBlock_eq hfns ⟨rfl, hbl.2⟩ (Or.inr (hr.elems hv)) []
                          rw [listTable_nil] at hblock
                          simp only [Outcome.ok_bind, hblock, bind_assoc, List.nil_append]
                          refine congrArg _ (funext fun vals => ?_)
                          rw [addNextIndex_listTable]
                          exact (hloop _).trans (by simp)

end Source

theorem Coming.source {σ : Type} (peer : Peer σ) (tail : List ReadResult) :
    Source peer fun c R => Coming peer tail c (Reply.encodeAll R) ∧ ∀ r ∈ R, r.Sound 2 where
  withMem h mem := ⟨h.1.withMem mem, h.2⟩
  readInto h hz := by
    obtain ⟨hcoming, hsound⟩ := h
    rw [Reply.encodeAll_cons] at hcoming
    obtain ⟨c', hread, h'⟩ := hcoming.readInto (hsound _ (by simp)) hz
    exact ⟨c', hread, h', fun r hr => hsound r (by simp [hr])⟩

namespace Talking

variable {δ : Type} {srv : Server δ} {c : ExtContext (Desk δ)} {q : Session δ} {r : Reply}
  {R S : List Reply}

theorem source (srv : Server δ) (q : Session δ) :
    Source srv.peer fun c R => Talking srv c q R where
  withMem h mem := h.withMem mem
  readInto h hz := h.readInto hz

theorem readNew (h : Talking srv c q (r :: R)) (x : ℕ) :
    ∃ c', PhpHiredis.readInto srv.peer (makeZval c x) x = .ok (r.value, c') ∧ Talking srv c' q R :=
  (source srv q).readNew h x

/-- With more nodes than replies the loop never ends. -/
theorem skipLoop_blocked {h : Heap} {l : List ℕ} {p : Option ℕ} (hp : Chain h.next p l)
    (ht : Talking srv c q R) (hlen : R.length < l.length) (n : ℕ) :
    PhpHiredis.skipLoop srv.peer h n p c = .blocked := by
  induction l generalizing p n c R with
  | nil => cases hlen
  | cons a l ih =>
      rw [hp.1]
      cases n with
      | zero => rfl
      | succ n =>
          cases R with
          | nil =>
              have hblocked := (ht.withMem (c.reader.mem.set (a + 1) .undef)).blocked (a + 1)
              simp only [PhpHiredis.skipLoop]
              rw [makeZval, hblocked]
              rfl
          | cons r R =>
              obtain ⟨c₁, hread, h₁⟩ := ht.readNew (a + 1)
              simp only [PhpHiredis.skipLoop, hread, Outcome.ok_bind]
              exact ih hp.2 (h₁.withMem _) (by simpa using hlen) n

end Talking

end PhpHiredis
