import PhpHiredis.Reader
import Mathlib.Data.List.GetD

/-!
# Lines and numbers in the buffer

What the scanning loops of the reader compute: the search for a line break
finds the first CR LF, and a number is read back from its decimal notation.
Both depend on the bytes up to the line break only.
-/
namespace PhpHiredis.Reader

open Library

theorem skipToCR_spec (s : Bytes) (len fuel pos : ℕ) (hp : pos < len)
    (hf : len - pos ≤ fuel) :
    pos ≤ skipToCR s len fuel pos ∧ skipToCR s len fuel pos < len ∧
      (∀ i, pos ≤ i → i < skipToCR s len fuel pos → s.getD i 0 ≠ CR) ∧
      (skipToCR s len fuel pos + 1 < len → s.getD (skipToCR s len fuel pos) 0 = CR) := by
  induction fuel generalizing pos with
  | zero => omega
  | succ fuel ih =>
      rw [skipToCR]
      split_ifs with h
      · obtain ⟨h₁, h₂, h₃, h₄⟩ := ih (pos + 1) h.1 (by omega)
        refine ⟨by omega, h₂, ?_, h₄⟩
        intro i hi hlt
        rcases Nat.eq_or_lt_of_le hi with rfl | hi
        · exact h.2
        · exact h₃ i hi hlt
      · refine ⟨le_rfl, hp, fun i h₁ h₂ => by omega, fun hl => ?_⟩
        by_contra hc
        exact h ⟨hl, hc⟩

theorem drop_eq_getD_cons {s : Bytes} {i : ℕ} (h : i < s.length) :
    s.drop i = s.getD i 0 :: s.drop (i + 1) := by
  rw [List.drop_eq_getElem_cons h, List.getD_eq_getElem s 0 h]

theorem findCRLF_skip (s : Bytes) {p q : ℕ} (hpq : p ≤ q) (hq : q < s.length)
    (h : ∀ i, p ≤ i → i < q → s.getD i 0 ≠ CR) :
    findCRLF (s.drop p) = (findCRLF (s.drop q)).map (· + (q - p)) := by
  induction q, hpq using Nat.le_induction with
  | base => simp
  | succ q hq' ih =>
      have hc : s.getD q 0 ≠ CR := h q hq' (Nat.lt_succ_self q)
      rw [ih (by omega) (fun i h₁ h₂ => h i h₁ (by omega)),
        drop_eq_getD_cons (Nat.lt_of_succ_lt hq), findCRLF_cons, if_neg (fun hh => hc hh.1),
        Option.map_map]
      refine congrArg (fun f => Option.map f _) (funext fun n => ?_)
      simp only [Function.comp_apply]
      omega

theorem seekNewlineFrom_eq (s : Bytes) (fuel pos : ℕ) (hf : s.length - pos ≤ fuel) :
    seekNewlineFrom s s.length fuel pos = (findCRLF (s.drop pos)).map (· + pos) := by
  induction fuel generalizing pos with
  | zero =>
      rw [List.drop_eq_nil_of_le (by omega)]
      rfl
  | succ fuel ih =>
      rw [seekNewlineFrom]
      split_ifs with hlt
      · obtain ⟨h₁, h₂, h₃, h₄⟩ := skipToCR_spec s s.length s.length pos (by omega) (by omega)
        have hskip := findCRLF_skip s h₁ h₂ h₃
        set q := skipToCR s s.length s.length pos with hq
        simp only []
        by_cases hcr : s.getD q 0 = CR
        · rw [if_neg (not_not.mpr hcr)]
          rw [drop_eq_getD_cons h₂, findCRLF_cons] at hskip
          by_cases hl : s.getD (q + 1) 0 = LF
          · have hlen : q + 1 < s.length := by
              by_contra hc
              rw [List.getD_eq_default s 0 (by omega)] at hl
              exact absurd hl (by decide)
            rw [if_pos hl, hskip, drop_eq_getD_cons hlen, if_pos ⟨hcr, by rw [hl]; rfl⟩]
            simp only [Option.map_some, Option.some.injEq]
            omega
          · rw [if_neg hl, ih (q + 1) (by omega), hskip, if_neg]
            · rw [Option.map_map, Option.map_map]
              refine congrArg (fun f => Option.map f _) (funext fun n => ?_)
              simp only [Function.comp_apply]
              omega
            · rintro ⟨-, hh⟩
              have hlen : q + 1 < s.length := by
                by_contra hc
                rw [List.drop_eq_nil_of_le (by omega)] at hh
                cases hh
              rw [drop_eq_getD_cons hlen] at hh
              exact hl (by simpa using hh)
        · rw [if_pos hcr]
          have hend : ¬q + 1 < s.length := fun hh => hcr (h₄ hh)
          have hnil : s.drop (q + 1) = [] := List.drop_eq_nil_of_le (by omega)
          rw [drop_eq_getD_cons h₂, hnil] at hskip
          rw [hskip]
          rfl
      · by_cases hp : pos < s.length
        · rw [drop_eq_getD_cons hp, List.drop_eq_nil_of_le (by omega)]
          rfl
        · rw [List.drop_eq_nil_of_le (by omega)]
          rfl

/-- The search for the end of a line, with its two loops and the NUL past the
end of the buffer, finds the first CR LF. -/
theorem seekNewline_eq (s : Bytes) : seekNewline s s.length = findCRLF s := by
  rw [seekNewline, seekNewlineFrom_eq s _ 0 (Nat.sub_le _ _), List.drop_zero]
  simp

theorem wrap_digit (w : ℕ) (a d : ℤ) :
    wrap w (wrap w (wrap w a * 10) + d) = wrap w (10 * a + d) := by
  unfold wrap
  rw [Int.bmod_add_bmod, Int.bmod_add_cancel_right, Int.bmod_mul_bmod, mul_comm]

theorem cr_mem_of_findCRLF {xs : Bytes} {i : ℕ} (h : findCRLF xs = some i) : CR ∈ xs := by
  by_contra hc
  rw [findCRLF_eq_none hc] at h
  cases h

theorem readDigits_append (v : ℤ) {xs : Bytes} (h : CR ∈ xs) (zs : Bytes) :
    readDigits v (xs ++ zs) = readDigits v xs := by
  induction xs generalizing v with
  | nil => cases h
  | cons c xs ih =>
      rw [List.cons_append, readDigits, readDigits]
      split_ifs with hc
      · rfl
      · exact ih _ ((List.mem_cons.mp h).resolve_left (fun he => hc he.symm))
      · rfl

/-- A number is read from its line alone. -/
theorem readLongLong_append {xs : Bytes} {i : ℕ} (h : findCRLF xs = some i) (zs : Bytes) :
    readLongLong (xs ++ zs) = readLongLong xs := by
  have hcr := cr_mem_of_findCRLF h
  cases xs with
  | nil => cases hcr
  | cons c xs =>
      simp only [readLongLong, List.cons_append, List.head?_cons, Option.some.injEq, List.tail_cons]
      have htail : c ≠ CR → CR ∈ xs := fun hc =>
        (List.mem_cons.mp hcr).resolve_left (fun he => hc he.symm)
      split_ifs with h₁ h₂
      · rw [readDigits_append 0 (htail (by rw [h₁]; decide))]
      · rw [readDigits_append 0 (htail (by rw [h₂]; decide))]
      · rw [← List.cons_append, readDigits_append 0 hcr]

theorem readDigits_digits (a : ℕ) {cs : List Char} (h : ∀ c ∈ cs, c.isDigit) (rest : Bytes) :
    readDigits (wrap 64 a) ((cs.map fun c => UInt8.ofNat c.toNat) ++ CR :: rest) =
      some (wrap 64 (Nat.ofDigitChars 10 cs a)) := by
  induction cs generalizing a with
  | nil => simp [readDigits]
  | cons c cs ih =>
      obtain ⟨hl, hu, hb⟩ := digit_byte (h c (by simp))
      have hcr : UInt8.ofNat c.toNat ≠ CR := by
        intro he
        rw [he] at hb
        have : (13 : ℕ) = c.toNat := hb
        omega
      have hdec : dec (UInt8.ofNat c.toNat) = ((c.toNat - 48 : ℕ) : ℤ) := by
        rw [dec, hb]
        omega
      rw [List.map_cons, List.cons_append, readDigits, if_neg hcr, hdec, if_pos (by omega),
        wrap_digit, Nat.ofDigitChars_cons]
      have hcast : (10 * (a : ℤ) + ((c.toNat - 48 : ℕ) : ℤ)) =
          ((10 * a + (c.toNat - '0'.toNat) : ℕ) : ℤ) := by
        push_cast
        rfl
      rw [hcast]
      exact ih _ (fun c hc => h c (by simp [hc]))

theorem readDigits_decimal (n : ℕ) (rest : Bytes) :
    readDigits 0 (decimal n ++ CR :: rest) = some (wrap 64 n) := by
  have h := @readDigits_digits 0 (Nat.toDigits 10 n)
    (fun c hc => Nat.isDigit_of_mem_toDigits (by decide) (by decide) hc) rest
  rw [Nat.ofDigitChars_ten_toDigits] at h
  exact h

theorem head?_decimal_append (n : ℕ) (rest : Bytes) {b : UInt8} (h : b.toNat < 48) :
    (decimal n ++ rest).head? ≠ some b := by
  intro he
  have hm : b ∈ decimal n := by
    cases hd : decimal n with
    | nil => exact absurd hd (decimal_ne_nil n)
    | cons c cs =>
        rw [hd] at he
        simp only [List.cons_append, List.head?_cons, Option.some.injEq] at he
        simp [he]
  have := decimal_digit hm
  omega

theorem wrap_mul_wrap (w : ℕ) (a b : ℤ) : wrap w (a * wrap w b) = wrap w (a * b) :=
  Int.mul_bmod_bmod

/-- Every 64-bit integer is read back from its decimal notation, the least one
included: its digits overflow, and the sign brings the value back. -/
theorem readLongLong_decimalInt {n : ℤ} (hl : -2 ^ 63 ≤ n) (hu : n < 2 ^ 63) (rest : Bytes) :
    readLongLong (decimalInt n ++ CRLF ++ rest) = n := by
  rw [List.append_assoc]
  unfold decimalInt
  split_ifs with hn
  · simp only [readLongLong, List.cons_append, List.head?_cons, List.tail_cons, if_true,
      readDigits_decimal, wrap_mul_wrap]
    rw [@wrap_of_range 63 _ (by omega) (by omega)]
    omega
  · simp only [readLongLong]
    rw [if_neg (head?_decimal_append _ _ (by decide)),
      if_neg (head?_decimal_append _ _ (by decide))]
    simp only [List.cons_append, readDigits_decimal, wrap_mul_wrap]
    rw [@wrap_of_range 63 _ (by omega) (by omega)]
    omega

theorem readLongLong_decimal {n : ℕ} (h : n < 2 ^ 63) (rest : Bytes) :
    readLongLong (decimal n ++ CRLF ++ rest) = n := by
  have hd : decimalInt (n : ℤ) = decimal n := by simp [decimalInt]
  rw [← hd]
  exact readLongLong_decimalInt (by omega) (by omega) rest

end PhpHiredis.Reader
