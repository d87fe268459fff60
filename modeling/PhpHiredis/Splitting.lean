import PhpHiredis.Library.Separators
import PhpHiredis.Scanning
import PhpHiredis.Strings
import Mathlib.Data.List.Forall2

/-!
# Splitting strings, and numbers

`sdssplitlen` and `sdsfromlonglong` of `sds.c`. The first fills an array that grows while
the separators are found, the second a buffer of 32 bytes, from its end. What they return
is said with lists: the pieces between the separators, and the decimal notation.
-/
namespace PhpHiredis.Sds

open Library

/-- `memcmp`: the first two bytes that differ decide. -/
def memcmp : Bytes → Bytes → ℤ
  | a :: as, b :: bs => if a = b then memcmp as bs else a.toNat - b.toNat
  | _, _ => 0

theorem memcmp_self_iff {s t : Bytes} (hlen : s.length = t.length) : memcmp s t = 0 ↔ s = t := by
  fun_induction memcmp s t with
  | case1 as b bs ih =>
      rw [ih (Nat.succ.inj hlen), List.cons.injEq, and_iff_right rfl]
  | case2 a as b bs hne =>
      have hbytes : a.toNat ≠ b.toNat := fun heq => hne (UInt8.toNat_inj.mp heq)
      simp only [List.cons.injEq, hne, false_and, iff_false]
      omega
  | case3 s t hnil =>
      cases s with
      | nil =>
          have ht := List.eq_nil_of_length_eq_zero hlen.symm
          simp [ht]
      | cons a as =>
          cases t with
          | nil => simp at hlen
          | cons b bs => exact absurd rfl (hnil a as b bs rfl)

/-- The local variables of `sdssplitlen`. -/
structure Split where
  tokens : Cells Sdshdr
  slots : ℤ
  elements : ℕ
  start : ℕ
  deriving DecidableEq, Repr

/-- Room for the next element and the final one. -/
def Split.grow (t : Split) : Split :=
  if t.slots < t.elements + 2 then
    let slots := wrap 32 (t.slots * 2)
    { t with slots := slots, tokens := t.tokens.resize (sizeT slots) }
  else t

def Split.addToken (s : Bytes) (t : Split) (stop : ℕ) : Run Split := do
  let token ← sdsnewlen (some (s.drop t.start)) (stop - t.start)
  match t.tokens.put t.elements [token] with
  | some tokens => return { t with tokens := tokens, elements := t.elements + 1 }
  | none => .fault .outOfBounds

def searchSeparator (s sep : Bytes) (j : ℕ) : Run Bool :=
  if sep.length = 1 ∧ s[j]? = sep[0]? then .ok true
  else if j + sep.length ≤ s.length then .ok (memcmp ((s.drop j).take sep.length) sep = 0)
  else .fault .outOfBounds

def splitLoop (s sep : Bytes) : ℕ → ℕ → Split → Run Split
  | 0, _, _ => .blocked
  | n + 1, j, t =>
      if (j : ℤ) < s.length - (sep.length - 1) then do
        let t := t.grow
        let found ← searchSeparator s sep j
        if found then do
          let t ← t.addToken s j
          splitLoop s sep n (j + sep.length) { t with start := j + sep.length }
        else splitLoop s sep n (j + 1) t
      else return t

/-- The tokens and their count, or `NULL`. The array that was made is not freed when the
separator is empty. For an empty string the comment in the source says `NULL`, too. -/
def sdssplitlen (s sep : Bytes) : Run (Option (Cells Sdshdr × ℕ)) := do
  let tokens := Cells.alloc 5
  if sep.length < 1 then return none
  else if s.length = 0 then return some (tokens, 0)
  else do
    let t ← splitLoop s sep (s.length + 1) 0 ⟨tokens, 5, 0, 0⟩
    let t ← t.addToken s s.length
    return some (t.tokens, t.elements)

def Tokens (tokens : Cells Sdshdr) (ts : List Bytes) : Prop :=
  ∃ hs, tokens.Starts hs ∧ List.Forall₂ Represents hs ts

structure Split.Room (t : Split) (ts : List Bytes) : Prop where
  slots : t.slots = t.tokens.length
  elements : t.elements = ts.length
  room : ts.length < t.tokens.length
  tokens : Tokens t.tokens ts

section
variable {s sep : Bytes} {ts : List Bytes} {t : Split}

theorem Split.Room.grow (h : t.Room ts) (hlt : ts.length + 2 ≤ 2 ^ 30) :
    t.grow.Room ts ∧ ts.length + 1 < t.grow.tokens.length ∧ t.grow.start = t.start := by
  have hslots := h.slots
  have helements := h.elements
  have hroom := h.room
  unfold Split.grow
  split_ifs with hgrow
  · have hwrap : wrap 32 (t.slots * 2) = (2 * t.tokens.length : ℕ) := by
      rw [hslots, wrap_int (by omega) (by omega)]
      push_cast
      omega
    have hsize : sizeT (wrap 32 (t.slots * 2)) = 2 * t.tokens.length := by
      rw [hwrap, sizeT_natCast (by omega)]
    obtain ⟨hs, hstarts, hrep⟩ := h.tokens
    have hlen := hrep.length_eq
    have hcells := Cells.length_resize t.tokens (sizeT (wrap 32 (t.slots * 2)))
    refine ⟨⟨?_, helements, ?_, hs, hstarts.resize (by omega), hrep⟩, ?_, rfl⟩
    · rw [hcells, hsize, hwrap]
    · rw [hcells, hsize]
      omega
    · rw [hcells, hsize]
      omega
  · exact ⟨h, by omega, rfl⟩

theorem Split.Room.addToken (h : t.Room ts) (stop : ℕ) (hle : t.start ≤ stop)
    (hstop : stop ≤ s.length) (hlt : s.length < 2 ^ 31) :
    ∃ t', t.addToken s stop = .ok t' ∧ t'.slots = t.slots ∧ t'.start = t.start ∧
      t'.elements = ts.length + 1 ∧ t'.tokens.length = t.tokens.length ∧
      Tokens t'.tokens (ts ++ [(s.drop t.start).take (stop - t.start)]) := by
  obtain ⟨token, hnew, hrep⟩ := @sdsnewlen_take (s.drop t.start) (stop - t.start)
    (by rw [List.length_drop]; omega) (by omega)
  obtain ⟨hs, hstarts, hall⟩ := h.tokens
  have hroom := h.room
  have hlen := hall.length_eq
  have helements : t.elements = hs.length := by rw [h.elements, hlen]
  obtain ⟨tokens, hput, hstarts', hcells⟩ := @Cells.Starts.put_end _ _ _ [token] hstarts
    (by rw [List.length_singleton]; omega)
  refine ⟨{ t with tokens := tokens, elements := t.elements + 1 }, ?_, rfl, rfl, ?_, hcells,
    hs ++ [token], hstarts', ?_⟩
  · simp only [Split.addToken, hnew, Outcome.ok_bind, helements, hput, Outcome.pure_eq]
  · rw [h.elements]
  · exact List.rel_append hall (List.Forall₂.cons hrep List.Forall₂.nil)

theorem searchSeparator_eq {j : ℕ} (hsep : sep ≠ []) (hle : j + sep.length ≤ s.length) :
    searchSeparator s sep j = .ok (decide (sep <+: s.drop j)) := by
  have hprefix : sep <+: s.drop j ↔ (s.drop j).take sep.length = sep := by
    rw [List.prefix_iff_eq_take, eq_comm]
  unfold searchSeparator
  split_ifs with hbyte
  · obtain ⟨hone, hj⟩ := hbyte
    obtain ⟨x, rfl⟩ := List.length_eq_one_iff.mp hone
    have hlt : j < s.length := by
      rw [List.length_singleton] at hle
      omega
    rw [List.getElem?_eq_getElem hlt, List.getElem?_cons_zero, Option.some.injEq] at hj
    have hfound : [x] <+: s.drop j := by
      rw [List.drop_eq_getElem_cons hlt, hj]
      exact ⟨_, rfl⟩
    rw [decide_eq_true hfound]
  · have hlen : ((s.drop j).take sep.length).length = sep.length :=
      List.length_take_of_le (by rw [List.length_drop]; omega)
    exact congrArg _ (decide_eq_decide.mpr ((memcmp_self_iff hlen).trans hprefix.symm))

/-- What is left to do from `j` on: no separator begins between `start` and `j`. -/
structure Searched (s sep : Bytes) (j start : ℕ) : Prop where
  after : start ≤ j
  within : j ≤ s.length
  clear : ∀ i, start ≤ i → i < j → ¬sep <+: s.drop i

theorem Searched.next {j start : ℕ} (h : Searched s sep j start) (hlt : j < s.length)
    (hno : ¬sep <+: s.drop j) : Searched s sep (j + 1) start := by
  refine ⟨Nat.le_succ_of_le h.after, hlt, ?_⟩
  intro i hl hu
  by_cases heq : i = j
  · subst heq
    exact hno
  · exact h.clear i hl (by omega)

theorem Searched.piece {j start : ℕ} (h : Searched s sep j start) (hfound : sep <+: s.drop j) :
    EndsPiece sep ((s.drop start).take (j - start)) ∧
      s.drop start = (s.drop start).take (j - start) ++ (sep ++ s.drop (j + sep.length)) := by
  have hstart := h.after
  have hstop := h.within
  have hlen : ((s.drop start).take (j - start)).length = j - start := by
    rw [List.length_take, List.length_drop]
    omega
  have hrest : s.drop j = sep ++ s.drop (j + sep.length) := by
    obtain ⟨rest, hrest⟩ := hfound
    rw [← List.drop_drop, ← hrest, List.drop_left]
  have hsplit : s.drop start = (s.drop start).take (j - start) ++ s.drop j := by
    have hdrop := List.take_append_drop (j - start) (s.drop start)
    rw [List.drop_drop, Nat.add_sub_cancel' hstart] at hdrop
    exact hdrop.symm
  constructor
  · intro i hi hprefix
    rw [hlen] at hi
    apply h.clear (start + i) (by omega) (by omega)
    rw [← List.drop_drop, hsplit, hrest, ← List.append_assoc,
      List.drop_append_of_le_length (by rw [List.length_append]; omega)]
    exact hprefix.trans (List.prefix_append _ _)
  · rw [← hrest]
    exact hsplit

theorem Searched.final {j start : ℕ} (h : Searched s sep j start) (hsep : sep ≠ [])
    (hend : s.length < j + sep.length) : ¬sep <:+: s.drop start := by
  intro hinfix
  obtain ⟨i, hi⟩ := infix_iff_prefix_drop.mp hinfix
  have hpos := List.length_pos_iff.mpr hsep
  have hle := hi.length_le
  rw [List.length_drop, List.length_drop] at hle
  rw [List.drop_drop] at hi
  exact h.clear (start + i) (by omega) (by omega) hi

/-- The pieces that the loop adds, with the final one, split what was left. -/
theorem splitLoop_splits (hsep : sep ≠ []) (hlt : s.length + 2 ≤ 2 ^ 30) {n j : ℕ}
    (hn : s.length < n + j) (h : t.Room ts) (hs : Searched s sep j t.start) (hts : ts.length ≤ j) :
    ∃ t' us, splitLoop s sep n j t = .ok t' ∧ t'.Room (ts ++ us) ∧ t'.start ≤ s.length ∧
      Splits sep (s.drop t.start) (us ++ [s.drop t'.start]) := by
  have hpos := List.length_pos_iff.mpr hsep
  induction n generalizing j ts t with
  | zero =>
      have hstop := hs.within
      omega
  | succ n ih =>
      unfold splitLoop
      by_cases hend : s.length < j + sep.length
      · rw [if_neg (by omega)]
        refine ⟨t, [], rfl, ?_, hs.after.trans hs.within, Splits.last (hs.final hsep hend)⟩
        rw [List.append_nil]
        exact h
      · obtain ⟨hgrow, hroom, hstart⟩ := h.grow (by omega)
        rw [if_pos (by omega), searchSeparator_eq hsep (by omega)]
        by_cases hfound : sep <+: s.drop j
        · obtain ⟨t', hadd, hslots, -, helements, hcells, htokens⟩ :=
            hgrow.addToken (s := s) j (by rw [hstart]; exact hs.after) (by omega) (by omega)
          rw [hstart] at htokens
          obtain ⟨hpiece, hrest⟩ := hs.piece hfound
          have hroom' : Split.Room { t' with start := j + sep.length }
              (ts ++ [(s.drop t.start).take (j - t.start)]) :=
            ⟨by rw [hslots, hgrow.slots, hcells],
              by rw [helements, List.length_append, List.length_singleton],
              by rw [List.length_append, List.length_singleton, hcells]; exact hroom, htokens⟩
          obtain ⟨t'', us, hloop, hroom'', hle, hsplits⟩ :=
            ih (j := j + sep.length) (by omega) hroom'
            ⟨Nat.le_refl _, by omega, fun i hl hu => absurd hu (Nat.not_lt_of_le hl)⟩
            (by rw [List.length_append, List.length_singleton]; omega)
          refine ⟨t'', (s.drop t.start).take (j - t.start) :: us, ?_, ?_, hle, ?_⟩
          · simp only [Outcome.ok_bind, hfound, decide_true, if_true, hadd, hloop]
          · rwa [List.append_assoc] at hroom''
          · have hcons : Splits sep ((s.drop t.start).take (j - t.start) ++
                (sep ++ s.drop (j + sep.length)))
                ((s.drop t.start).take (j - t.start) :: (us ++ [s.drop t''.start])) :=
              Splits.cons hpiece hsplits
            rw [← hrest] at hcons
            exact hcons
        · obtain ⟨t'', us, hloop, hroom'', hle, hsplits⟩ := ih (j := j + 1) (by omega) hgrow
            (by rw [hstart]; exact hs.next (by omega) hfound) (by omega)
          rw [hstart] at hsplits
          refine ⟨t'', us, ?_, hroom'', hle, hsplits⟩
          simp only [Outcome.ok_bind, hfound, decide_false, Bool.false_eq_true, if_false, hloop]

end

/-- A string that is not empty is split at every separator, from the left: the array and the
count that are returned hold the one list of pieces, joined they are the string, and
no piece has a separator in it. No cell outside of the array is used. -/
theorem sdssplitlen_pieces {s sep : Bytes} (hs : s ≠ []) (hsep : sep ≠ [])
    (hlt : s.length + 2 ≤ 2 ^ 30) :
    ∃ tokens ts, sdssplitlen s sep = .ok (some (tokens, ts.length)) ∧ Tokens tokens ts ∧
      (∀ us, Splits sep s us ↔ us = ts) ∧ sep.intercalate ts = s ∧ ∀ t ∈ ts, ¬sep <:+: t := by
  have hroom : Split.Room ⟨Cells.alloc 5, 5, 0, 0⟩ [] :=
    ⟨rfl, rfl, by decide, [], Cells.starts_nil _, List.Forall₂.nil⟩
  have hsearched : Searched s sep 0 0 :=
    ⟨Nat.le_refl _, Nat.zero_le _, fun i _ hi => absurd hi (Nat.not_lt_zero i)⟩
  obtain ⟨t, us, hloop, hroom', hle, hsplits⟩ :=
    splitLoop_splits hsep hlt (n := s.length + 1) (by omega) hroom hsearched (Nat.le_refl _)
  rw [List.nil_append] at hroom'
  obtain ⟨t', hadd, -, -, helements, -, htokens⟩ :=
    hroom'.addToken (s := s) s.length hle (Nat.le_refl _) (by omega)
  have hfinal : (s.drop t.start).take (s.length - t.start) = s.drop t.start :=
    List.take_of_length_le (by rw [List.length_drop])
  rw [hfinal] at htokens
  rw [List.drop_zero] at hsplits
  have hpos := List.length_pos_iff.mpr hsep
  have hne := List.length_pos_iff.mpr hs
  refine ⟨t'.tokens, us ++ [s.drop t.start], ?_, htokens, ?_, hsplits.intercalate,
    hsplits.clean hsep⟩
  · simp only [sdssplitlen, if_neg (show ¬sep.length < 1 by omega),
      if_neg (show ¬s.length = 0 by omega), hloop, Outcome.ok_bind, hadd, Outcome.pure_eq,
        helements,
      List.length_append, List.length_singleton]
  · intro vs
    constructor
    · intro hvs
      exact hvs.unique hsplits
    · rintro rfl
      exact hsplits

theorem sdssplitlen_pieces_two : ascii "foo_-_bar" ≠ [] ∧ ascii "_-_" ≠ [] ∧
    ∃ tokens ts, sdssplitlen (ascii "foo_-_bar") (ascii "_-_") = .ok (some (tokens, ts.length)) ∧
      Tokens tokens ts ∧ (∀ us, Splits (ascii "_-_") (ascii "foo_-_bar") us ↔ us = ts) ∧
      (ascii "_-_").intercalate ts = ascii "foo_-_bar" ∧ ∀ t ∈ ts, ¬ascii "_-_" <:+: t :=
  ⟨by decide, by decide, sdssplitlen_pieces (by decide) (by decide) (by decide)⟩

/-- The loop of `sdsfromlonglong`; `p` is the cell behind the one that its pointer is at. -/
def digits (buf : Cells UInt8) : ℕ → ℕ → Run (Cells UInt8 × ℕ)
  | 0, _ => .fault .outOfBounds
  | p + 1, v => do
      let buf ← store buf p [UInt8.ofNat (48 + v % 10)]
      if v / 10 = 0 then return (buf, p) else digits buf p (v / 10)

/-- `if (value < 0) *p-- = '-'`. -/
def sign (value : ℤ) (buf : Cells UInt8) (p : ℕ) : Run (Cells UInt8 × ℕ) :=
  if value < 0 then
    match p with
    | 0 => .fault .outOfBounds
    | p + 1 => do
        let buf ← store buf p [45]
        return (buf, p)
  else return (buf, p)

def sdsfromlonglong (value : ℤ) : Run Sdshdr := do
  -- `-value` is a `long long`
  let v := sizeT (if value < 0 then wrap 64 (-value) else value)
  let (buf, p) ← digits (Cells.alloc 32) 32 v
  let (buf, p) ← sign value buf p
  let t ← load buf p (32 - p)
  sdsnewlen (some t) (32 - p)

theorem decimal_eq (v : ℕ) :
    decimal v = (if v / 10 = 0 then [] else decimal (v / 10)) ++ [UInt8.ofNat (48 + v % 10)] := by
  have hdigit : ∀ d < 10, UInt8.ofNat d.digitChar.toNat = UInt8.ofNat (48 + d) := by decide
  unfold decimal
  by_cases hlt : v < 10
  · rw [Nat.toDigits_of_lt_base hlt, if_pos (Nat.div_eq_of_lt hlt), Nat.mod_eq_of_lt hlt,
      List.map_singleton, hdigit v hlt, List.nil_append]
  · rw [Nat.toDigits_of_base_le (by decide) (by omega), if_neg (by omega), List.map_append,
      List.map_singleton, hdigit _ (Nat.mod_lt v (by decide))]

/-- A byte in front of what the buffer ends with. -/
theorem store_before (p : ℕ) (b : UInt8) (t : Bytes) :
    store (Cells.alloc (p + 1) ++ t.map some) p [b] = .ok (Cells.alloc p ++ (b :: t).map some) := by
  have hput := Cells.put_back p [b] (t.map some)
  rw [List.length_singleton] at hput
  rw [store, hput]
  rfl

theorem digits_decimal {p v : ℕ} (hp : 0 < p) (hv : v < 10 ^ p) (t : Bytes) :
    ∃ q, digits (Cells.alloc p ++ t.map some) p v =
        .ok (Cells.alloc q ++ (decimal v ++ t).map some, q) ∧ q + (decimal v).length = p := by
  induction p generalizing v t with
  | zero => exact absurd hp (Nat.lt_irrefl 0)
  | succ p ih =>
      rw [digits, store_before, Outcome.ok_bind, decimal_eq v]
      by_cases hlast : v / 10 = 0
      · exact ⟨p, by simp only [hlast, if_true]; rfl, by simp only [hlast, if_true]; rfl⟩
      · rw [if_neg hlast, if_neg hlast]
        have hpos : 0 < p := by
          rcases Nat.eq_zero_or_pos p with hzero | hpos
          · subst hzero
            omega
          · exact hpos
        obtain ⟨q, hq, hlen⟩ := ih hpos (v := v / 10) (by rw [Nat.pow_succ] at hv; omega)
          (UInt8.ofNat (48 + v % 10) :: t)
        refine ⟨q, ?_, ?_⟩
        · rw [hq, List.append_assoc, List.singleton_append]
        · rw [List.length_append, List.length_singleton]
          omega

theorem sign_decimal (value : ℤ) {q : ℕ} (hq : 0 < q) :
    ∃ p, sign value (Cells.alloc q ++ (decimal value.natAbs).map some) q =
        .ok (Cells.alloc p ++ (decimalInt value).map some, p) ∧
      p + (decimalInt value).length = q + (decimal value.natAbs).length := by
  unfold sign decimalInt
  split_ifs
  · obtain ⟨p, rfl⟩ := Nat.exists_eq_succ_of_ne_zero (Nat.ne_of_gt hq)
    refine ⟨p, ?_, ?_⟩
    · simp only [store_before, Outcome.ok_bind, Outcome.pure_eq]
    · rw [List.length_cons]
      omega
  · exact ⟨q, rfl, rfl⟩

/-- Every `long long`, the least one too, fits the buffer and becomes its decimal notation, and the
reader of a line reads it back. -/
theorem sdsfromlonglong_decimal {value : ℤ} (hl : -2 ^ 63 ≤ value) (hu : value < 2 ^ 63) :
    ∃ h, sdsfromlonglong value = .ok h ∧ Represents h (decimalInt value) ∧
      ∀ rest, Reader.readLongLong (decimalInt value ++ CRLF ++ rest) = value := by
  have hv : sizeT (if value < 0 then wrap 64 (-value) else value) = value.natAbs := by
    unfold sizeT wrap
    rw [Int.bmod_def]
    split_ifs <;> omega
  have hlength : (decimal value.natAbs).length ≤ 19 := by
    rw [decimal, List.length_map]
    exact (Nat.length_toDigits_le_iff (by decide) (by decide)).mpr (by omega)
  obtain ⟨q, hdigits, hq⟩ := @digits_decimal 32 value.natAbs (by decide) (by omega) []
  rw [List.map_nil, List.append_nil, List.append_nil] at hdigits
  obtain ⟨p, hsign, hp⟩ := @sign_decimal value q (by omega)
  have hlen : 32 - p = (decimalInt value).length := by omega
  have hload : load (Cells.alloc p ++ (decimalInt value).map some) p (decimalInt value).length =
      .ok (decimalInt value) := by
    rw [load, Cells.get_back]
  obtain ⟨h, hnew, hrep⟩ := sdsnewlen_represents (t := decimalInt value) (by omega)
  refine ⟨h, ?_, hrep, Reader.readLongLong_decimalInt hl hu⟩
  simp only [sdsfromlonglong, hv, hdigits, Outcome.ok_bind, hsign, hlen, hload, hnew]

theorem sdsfromlonglong_decimal_least : -2 ^ 63 ≤ (-2 ^ 63 : ℤ) ∧ (-2 ^ 63 : ℤ) < 2 ^ 63 ∧
    ∃ h, sdsfromlonglong (-2 ^ 63) = .ok h ∧ Represents h (decimalInt (-2 ^ 63)) ∧
      ∀ rest, Reader.readLongLong (decimalInt (-2 ^ 63) ++ CRLF ++ rest) = -2 ^ 63 :=
  ⟨by decide, by decide, sdsfromlonglong_decimal (by decide) (by decide)⟩

end PhpHiredis.Sds
