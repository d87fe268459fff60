import Mathlib.Data.List.Basic
import Mathlib.Data.Int.Basic
import Mathlib.Tactic.IntervalCases
import Mathlib.Tactic.Common

/-!
# Byte strings, lines and decimal notation

Byte strings are lists of bytes. A line ends at the first CR LF; `findCRLF`
says where. `decimal` is the usual notation of a natural number, `decimalInt`
that of an integer, and `wrap` is two's complement reduction to a given width.
-/
namespace Library

abbrev Bytes := List UInt8

def ascii (s : String) : Bytes := s.toList.map fun c => UInt8.ofNat c.toNat

def CR : UInt8 := 13
def LF : UInt8 := 10

abbrev CRLF : Bytes := [CR, LF]

def findCRLF : Bytes → Option ℕ
  | a :: b :: xs =>
      if a = CR ∧ b = LF then some 0 else (findCRLF (b :: xs)).map (· + 1)
  | _ => none

theorem findCRLF_cons (a : UInt8) (xs : Bytes) :
    findCRLF (a :: xs) =
      if a = CR ∧ xs.head? = some LF then some 0 else (findCRLF xs).map (· + 1) := by
  cases xs with
  | nil => simp [findCRLF]
  | cons b xs => simp [findCRLF]

/-- A text without CR LF, followed by one, is exactly one line. -/
theorem findCRLF_line {text : Bytes} (h : findCRLF text = none) (rest : Bytes) :
    findCRLF (text ++ CRLF ++ rest) = some text.length := by
  induction text with
  | nil => simp [findCRLF, CRLF]
  | cons a text ih =>
      rw [findCRLF_cons] at h
      split_ifs at h with hc
      have ht : findCRLF text = none := by simpa using h
      rw [List.cons_append, List.cons_append, findCRLF_cons, ih ht]
      have hh : ¬(a = CR ∧ (text ++ CRLF ++ rest).head? = some LF) := by
        rintro ⟨ha, hb⟩
        cases text with
        | nil => simp [CRLF, CR, LF] at hb
        | cons b text => exact hc ⟨ha, by simpa using hb⟩
      simp only [hh, if_false, Option.map_some, List.length_cons]

theorem findCRLF_append {xs : Bytes} {i : ℕ} (h : findCRLF xs = some i) (zs : Bytes) :
    findCRLF (xs ++ zs) = some i := by
  induction xs generalizing i with
  | nil => simp [findCRLF] at h
  | cons a xs ih =>
      rw [findCRLF_cons] at h
      rw [List.cons_append, findCRLF_cons]
      split_ifs at h with hc
      · have hx : (xs ++ zs).head? = some LF := by
          cases xs with
          | nil => simp at hc
          | cons b xs => simpa using hc.2
        simpa only [hc.1, hx, and_self, if_true] using h
      · obtain ⟨j, hj, rfl⟩ := Option.map_eq_some_iff.mp h
        have hne : xs ≠ [] := by
          rintro rfl
          simp [findCRLF] at hj
        have hx : (xs ++ zs).head? = xs.head? := by
          cases xs with
          | nil => exact (hne rfl).elim
          | cons b xs => rfl
        rw [hx, if_neg hc, ih hj, Option.map_some]

theorem findCRLF_le {xs : Bytes} {i : ℕ} (h : findCRLF xs = some i) : i + 2 ≤ xs.length := by
  induction xs generalizing i with
  | nil => simp [findCRLF] at h
  | cons a xs ih =>
      rw [findCRLF_cons] at h
      split_ifs at h with hc
      · cases xs with
        | nil => simp at hc
        | cons b xs =>
            obtain rfl : 0 = i := by simpa using h
            simp
      · obtain ⟨j, hj, rfl⟩ := Option.map_eq_some_iff.mp h
        have := ih hj
        simp only [List.length_cons]
        omega

/-- Reduction of an integer to a two's complement word of `w` bits. -/
def wrap (w : ℕ) (n : ℤ) : ℤ := n.bmod (2 ^ w)

theorem wrap_of_range {w : ℕ} {n : ℤ} (hl : -2 ^ w ≤ n) (hu : n < 2 ^ w) :
    wrap (w + 1) n = n := by
  have h2 : (2 ^ (w + 1) : ℕ) = 2 * 2 ^ w := Nat.pow_succ'
  unfold wrap
  rw [h2]
  apply Int.bmod_eq_of_le <;> push_cast <;> omega

/-- The integers that a word of `w + 1` bits holds are those it does not change. -/
theorem wrap_eq_self_iff {w : ℕ} {n : ℤ} : wrap (w + 1) n = n ↔ -2 ^ w ≤ n ∧ n < 2 ^ w := by
  constructor
  · intro h
    have hpos : 0 < 2 ^ (w + 1) := Nat.two_pow_pos _
    have hl := Int.le_bmod (x := n) hpos
    have hu := Int.bmod_lt (x := n) hpos
    have h2 : (2 ^ (w + 1) : ℕ) = 2 * 2 ^ w := Nat.pow_succ'
    unfold wrap at h
    rw [h, h2] at hl hu
    push_cast at hl hu
    omega
  · intro h
    exact wrap_of_range h.1 h.2

def decimal (n : ℕ) : Bytes := (Nat.toDigits 10 n).map fun c => UInt8.ofNat c.toNat

/-- Decimal notation of an integer, with a minus sign when it is negative. -/
def decimalInt (n : ℤ) : Bytes := if n < 0 then 45 :: decimal n.natAbs else decimal n.natAbs

theorem decimal_ne_nil (n : ℕ) : decimal n ≠ [] := by
  simp [decimal]

theorem digit_byte {c : Char} (h : c.isDigit) :
    48 ≤ c.toNat ∧ c.toNat ≤ 57 ∧ (UInt8.ofNat c.toNat).toNat = c.toNat := by
  simp only [Char.isDigit, ge_iff_le, Bool.and_eq_true, decide_eq_true_eq] at h
  have hu : c.toNat ≤ 57 := h.2
  exact ⟨h.1, hu, UInt8.toNat_ofNat_of_lt (Nat.lt_of_le_of_lt hu (by decide))⟩

theorem decimal_digit {n : ℕ} {b : UInt8} (h : b ∈ decimal n) : 48 ≤ b.toNat ∧ b.toNat ≤ 57 := by
  obtain ⟨c, hc, rfl⟩ := List.mem_map.mp h
  obtain ⟨hl, hu, hb⟩ := digit_byte (Nat.isDigit_of_mem_toDigits (by decide) (by decide) hc)
  rw [hb]
  exact ⟨hl, hu⟩

theorem findCRLF_eq_none {xs : Bytes} (h : CR ∉ xs) : findCRLF xs = none := by
  induction xs with
  | nil => rfl
  | cons a xs ih =>
      rw [List.mem_cons, not_or] at h
      rw [findCRLF_cons, ih h.2, if_neg (fun hc => h.1 hc.1.symm)]
      rfl

theorem cr_notMem_decimal (n : ℕ) : CR ∉ decimal n := by
  intro h
  have := decimal_digit h
  simp [CR] at this

theorem cr_notMem_decimalInt (n : ℤ) : CR ∉ decimalInt n := by
  unfold decimalInt
  split_ifs
  · rw [List.mem_cons, not_or]
    exact ⟨by decide, cr_notMem_decimal _⟩
  · exact cr_notMem_decimal _

/-- The number that some digits denote, on top of `acc`. -/
def parseDigits (acc : ℕ) : Bytes → Option ℕ
  | [] => some acc
  | b :: bs =>
      if 48 ≤ b.toNat ∧ b.toNat ≤ 57 then parseDigits (10 * acc + (b.toNat - 48)) bs else none

def parseDecimal (text : Bytes) : Option ℕ := if text = [] then none else parseDigits 0 text

theorem parseDigits_map (acc : ℕ) {cs : List Char} (h : ∀ c ∈ cs, c.isDigit) :
    parseDigits acc (cs.map fun c => UInt8.ofNat c.toNat) = some (Nat.ofDigitChars 10 cs acc) := by
  induction cs generalizing acc with
  | nil => rfl
  | cons c cs ih =>
      obtain ⟨hl, hu, hb⟩ := digit_byte (h c (by simp))
      rw [List.map_cons, parseDigits, hb, if_pos ⟨hl, hu⟩, Nat.ofDigitChars_cons]
      exact ih _ (fun c hc => h c (by simp [hc]))

theorem parseDecimal_decimal (n : ℕ) : parseDecimal (decimal n) = some n := by
  rw [parseDecimal, if_neg (decimal_ne_nil n), decimal, parseDigits_map 0
    (fun c hc => Nat.isDigit_of_mem_toDigits (by decide) (by decide) hc),
    Nat.ofDigitChars_ten_toDigits]

theorem decimal_injective : Function.Injective decimal := by
  intro m n h
  have hm := parseDecimal_decimal m
  rw [h, parseDecimal_decimal] at hm
  exact (Option.some.inj hm).symm

theorem decimal_ne_minus (m n : ℕ) : decimal m ≠ 45 :: decimal n := by
  intro h
  have hmem : (45 : UInt8) ∈ decimal m := by simp [h]
  exact absurd (decimal_digit hmem).1 (by decide)

theorem decimalInt_injective : Function.Injective decimalInt := by
  intro m n h
  unfold decimalInt at h
  split_ifs at h with hm hn hn
  · have habs := decimal_injective (List.cons.inj h).2
    omega
  · exact absurd h.symm (decimal_ne_minus _ _)
  · exact absurd h (decimal_ne_minus _ _)
  · have habs := decimal_injective h
    omega

theorem decimalInt_ne_nil (n : ℤ) : decimalInt n ≠ [] := by
  unfold decimalInt
  split_ifs
  · exact List.cons_ne_nil _ _
  · exact decimal_ne_nil _

end Library
