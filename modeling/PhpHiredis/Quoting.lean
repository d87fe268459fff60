import PhpHiredis.Library.Bytes
import Mathlib.Data.List.Infix
import Mathlib.Data.List.TakeWhile

/-!
# Quoted strings

`sdscatrepr` and `sdssplitargs` of `sds.c`, on the contents of the strings. The
comment above `sdssplitargs` says that `sdscatrepr` writes what it reads. It does
for printable bytes only: `sdscatrepr` writes `\xHH`, which `sdssplitargs` does not
know, and of its two byte escapes for control characters it writes one byte.
-/
namespace PhpHiredis.Sds

open Library

/-- `isprint` in the C locale. -/
def isprint (b : UInt8) : Prop := 32 ≤ b.toNat ∧ b.toNat < 127

instance : DecidablePred isprint := fun b =>
  inferInstanceAs (Decidable (32 ≤ b.toNat ∧ b.toNat < 127))

/-- `isspace` in the C locale. -/
def isspace (b : UInt8) : Bool := b = 32 ∨ (9 ≤ b.toNat ∧ b.toNat ≤ 13)

def hexDigit (d : ℕ) : UInt8 := UInt8.ofNat (if d < 10 then 48 + d else 87 + d)

/-- One turn of the loop of `sdscatrepr`. The length that it passes for the
two bytes of an escape is 1. -/
def reprByte (b : UInt8) : Bytes :=
  if b = 92 ∨ b = 34 then [92, b]
  else if b = 10 then (ascii "\\n").take 1
  else if b = 13 then (ascii "\\r").take 1
  else if b = 9 then (ascii "\\t").take 1
  else if b = 7 then (ascii "\\a").take 1
  else if b = 8 then (ascii "\\b").take 1
  else if isprint b then [b]
  else ascii "\\x" ++ [hexDigit (b.toNat / 16), hexDigit (b.toNat % 16)]

def sdscatrepr (s p : Bytes) : Bytes := s ++ 34 :: (p.flatMap reprByte ++ [34])

def unescape (c : UInt8) : UInt8 :=
  if c = 110 then 10
  else if c = 114 then 13
  else if c = 116 then 9
  else if c = 98 then 8
  else if c = 97 then 7
  else c

/-- Within quotes: the token and what follows its closing quote, or an error. -/
def quoted (current : Bytes) : Bytes → Option (Bytes × Bytes)
  -- unterminated quotes
  | [] => none
  | [p] => if p = 34 then some (current, []) else none
  | p :: q :: ps =>
      if p = 92 then quoted (current ++ [unescape q]) ps
      -- closing quote must be followed by a space
      else if p = 34 then if isspace q then some (current, q :: ps) else none
      else quoted (current ++ [p]) (q :: ps)

/-- Outside quotes: the token and what follows the byte that ended it. -/
def unquoted (current : Bytes) : Bytes → Option (Bytes × Bytes)
  | [] => some (current, [])
  | p :: ps =>
      if p = 32 ∨ p = 10 ∨ p = 13 ∨ p = 9 then some (current, ps)
      else if p = 34 then quoted current ps
      else unquoted (current ++ [p]) ps

/-- The loop over the tokens; every token takes a byte at least. -/
def splitFor : ℕ → List Bytes → Bytes → Option (List Bytes)
  | 0, vector, _ => some vector
  | n + 1, vector, p =>
      match p.dropWhile isspace with
      | [] => some vector
      | p => (unquoted [] p).bind fun r => splitFor n (vector ++ [r.1]) r.2

/-- The arguments on a line, up to its NUL; `none` where the source returns `NULL`
and a count of -1. -/
def sdssplitargs (line : Bytes) : Option (List Bytes) :=
  let line := line.takeWhile (· ≠ 0)
  splitFor (line.length + 1) [] line

section
variable {current token rest : Bytes}

theorem quoted_escape (c : UInt8) (ps : Bytes) :
    quoted current (92 :: c :: ps) = quoted (current ++ [unescape c]) ps := by
  rw [quoted, if_pos rfl]

theorem quoted_plain {c : UInt8} (hesc : c ≠ 92) (hquote : c ≠ 34) (ps : Bytes) :
    quoted current (c :: ps) = quoted (current ++ [c]) ps := by
  cases ps with
  | nil => simp only [quoted, if_neg hquote]
  | cons p ps => rw [quoted, if_neg hesc, if_neg hquote]

theorem quoted_close (ps : Bytes) :
    quoted current (34 :: ps) = if ps.head?.all isspace then some (current, ps) else none := by
  cases ps with
  | nil => rfl
  | cons p ps =>
      rw [quoted, if_neg (by decide), if_pos rfl, List.head?_cons, Option.all_some]

theorem quoted_prefix {ps : Bytes} (h : quoted current ps = some (token, rest)) :
    current <+: token := by
  fun_induction quoted current ps with
  | case1 => cases h
  | case2 =>
      cases h
      exact List.prefix_refl _
  | case3 => cases h
  | case4 _ _ _ ih => exact (List.prefix_append _ _).trans (ih h)
  | case5 =>
      cases h
      exact List.prefix_refl _
  | case6 => cases h
  | case7 _ _ _ _ _ _ ih => exact (List.prefix_append _ _).trans (ih h)

theorem quoted_byte {a b : UInt8} {ps post : Bytes}
    (h : quoted (current ++ [a]) ps = some (token, rest))
    (htoken : token = current ++ b :: post) : a = b := by
  obtain ⟨u, hu⟩ := quoted_prefix h
  rw [htoken, List.append_assoc, List.append_cancel_left_eq, List.singleton_append] at hu
  exact (List.cons.inj hu).1

end

theorem quoted_takes {current token rest ps : Bytes} (h : quoted current ps = some (token, rest)) :
    rest.length < ps.length := by
  fun_induction quoted current ps with
  | case1 => cases h
  | case2 =>
      cases h
      exact Nat.zero_lt_one
  | case3 => cases h
  | case4 _ _ _ ih =>
      have := ih h
      simp only [List.length_cons]
      omega
  | case5 =>
      cases h
      exact Nat.lt_succ_self _
  | case6 => cases h
  | case7 _ _ _ _ _ _ ih =>
      have := ih h
      simp only [List.length_cons] at this ⊢
      omega

theorem unquoted_takes {current token rest ps : Bytes}
    (h : unquoted current ps = some (token, rest)) :
    rest.length ≤ ps.length - 1 := by
  fun_induction unquoted current ps with
  | case1 =>
      cases h
      exact le_rfl
  | case2 =>
      cases h
      exact le_rfl
  | case3 => exact Nat.le_pred_of_lt (Nat.lt_succ_of_lt (quoted_takes h))
  | case4 _ _ _ _ _ ih =>
      have := ih h
      simp only [List.length_cons]
      omega

/-- More turns than bytes change nothing. -/
theorem splitFor_succ {n : ℕ} {p : Bytes} (hn : p.length < n) (vector : List Bytes) :
    splitFor (n + 1) vector p = splitFor n vector p := by
  induction n generalizing vector p with
  | zero => omega
  | succ n ih =>
      rw [splitFor, splitFor]
      have hskip := (List.dropWhile_suffix isspace (l := p)).length_le
      cases hp : p.dropWhile isspace with
      | nil => rfl
      | cons b ps =>
          refine Option.bind_congr fun r hr => ih ?_ _
          have := unquoted_takes hr
          simp only [hp, List.length_cons] at hskip this
          omega

/-- The bytes that `sdscatrepr` has a short escape for. -/
def Control (b : UInt8) : Prop := b = 10 ∨ b = 13 ∨ b = 9 ∨ b = 7 ∨ b = 8

/-- The letters of the short escapes. -/
def Letter (c : UInt8) : Prop := c = 110 ∨ c = 114 ∨ c = 116 ∨ c = 98 ∨ c = 97

inductive Shown : UInt8 → Bytes → Prop where
  | plain {b : UInt8} : isprint b → b ≠ 92 → b ≠ 34 → Shown b [b]
  | escaped {b : UInt8} : isprint b → b = 92 ∨ b = 34 → Shown b [92, b]
  | control {b : UInt8} : ¬isprint b → Control b → Shown b [92]
  | hex {b h l : UInt8} : ¬isprint b → Shown b [92, 120, h, l]

theorem shown_reprByte (b : UInt8) : Shown b (reprByte b) := by
  unfold reprByte
  split_ifs with h₁ h₂ h₃ h₄ h₅ h₆ h₇
  · exact .escaped (by rcases h₁ with rfl | rfl <;> decide) h₁
  · exact .control (by rw [h₂]; decide) (by simp [Control, h₂])
  · exact .control (by rw [h₃]; decide) (by simp [Control, h₃])
  · exact .control (by rw [h₄]; decide) (by simp [Control, h₄])
  · exact .control (by rw [h₅]; decide) (by simp [Control, h₅])
  · exact .control (by rw [h₆]; decide) (by simp [Control, h₆])
  · exact .plain h₇ (fun h => h₁ (.inl h)) fun h => h₁ (.inr h)
  · exact .hex h₇

theorem unescape_not_letter {c d : UInt8} (hd : Letter d) : unescape c ≠ d := by
  unfold unescape
  rcases hd with rfl | rfl | rfl | rfl | rfl <;> split_ifs <;> first | decide | assumption

theorem unescape_control {c b : UInt8} (hb : Control b) (h : unescape c = b) :
    Letter c ∨ Control c := by
  unfold unescape at h
  unfold Letter Control
  split_ifs at h <;> simp_all [Control]

theorem quoted_repr {p : Bytes} (hp : ∀ b ∈ p, isprint b) (current ps : Bytes) :
    quoted current (p.flatMap reprByte ++ ps) = quoted (current ++ p) ps := by
  induction p generalizing current with
  | nil => rw [List.flatMap_nil, List.nil_append, List.append_nil]
  | cons b p ih =>
      have hb := hp b (by simp)
      have hrest := ih (fun c hc => hp c (by simp [hc])) (current ++ [b])
      have hshown := shown_reprByte b
      rw [List.flatMap_cons, List.append_assoc]
      rw [List.append_assoc, List.singleton_append] at hrest
      generalize reprByte b = shown at hshown ⊢
      cases hshown with
      | plain _ hesc hquote => rw [List.singleton_append, quoted_plain hesc hquote, hrest]
      | escaped _ hb =>
          have hsame : unescape b = b := by rcases hb with rfl | rfl <;> decide
          rw [List.cons_append, List.singleton_append, quoted_escape, hsame, hrest]
      | control hnot => exact absurd hb hnot
      | hex hnot => exact absurd hb hnot

/-- After an escape took the letter that follows it, the letters that are left never
make up for it: by induction on them, each would have to be that letter again. -/
theorem quoted_short {d : UInt8} (hd : Letter d) {p current token rest ps : Bytes}
    (h : quoted current (p.flatMap reprByte ++ 34 :: ps) = some (token, rest)) :
    token ≠ current ++ d :: p := by
  induction p generalizing current with
  | nil =>
      intro htoken
      rw [List.flatMap_nil, List.nil_append, quoted_close] at h
      split_ifs at h
      cases h
      simp at htoken
  | cons b p ih =>
      intro htoken
      have hshown := shown_reprByte b
      rw [List.flatMap_cons, List.append_assoc] at h
      generalize reprByte b = shown at hshown h
      cases hshown with
      | plain _ hesc hquote =>
          rw [List.singleton_append, quoted_plain hesc hquote] at h
          obtain rfl := quoted_byte h htoken
          exact ih h (by rw [htoken, List.append_assoc, List.singleton_append])
      | escaped _ hb =>
          rw [List.cons_append, List.singleton_append, quoted_escape] at h
          exact unescape_not_letter hd (quoted_byte h htoken)
      | control =>
          obtain ⟨c, qs, hc⟩ : ∃ c qs, p.flatMap reprByte ++ 34 :: ps = c :: qs :=
            List.exists_cons_of_ne_nil (by simp)
          rw [List.singleton_append, hc, quoted_escape] at h
          exact unescape_not_letter hd (quoted_byte h htoken)
      | hex =>
          rw [List.cons_append, List.cons_append, quoted_escape] at h
          exact unescape_not_letter hd (quoted_byte h htoken)

theorem quoted_unprintable {b : UInt8} (hb : ¬isprint b) {p current token rest ps : Bytes}
    (h : quoted current (reprByte b ++ (p.flatMap reprByte ++ 34 :: ps)) = some (token, rest)) :
    token ≠ current ++ b :: p := by
  intro htoken
  have hshown := shown_reprByte b
  generalize reprByte b = shown at hshown h
  cases hshown with
  | plain hprint => exact hb hprint
  | escaped hprint => exact hb hprint
  | hex =>
      rw [List.cons_append, List.cons_append, quoted_escape] at h
      obtain rfl := quoted_byte h htoken
      exact hb (by decide)
  | control _ hcontrol =>
      cases p with
      | nil =>
          rw [List.flatMap_nil, List.singleton_append, List.nil_append, quoted_escape] at h
          obtain rfl := quoted_byte h htoken
          exact hb (by decide)
      | cons c p =>
          have hc := shown_reprByte c
          rw [List.flatMap_cons, List.append_assoc, List.singleton_append] at h
          generalize reprByte c = shown at hc h
          cases hc with
          | plain hprint =>
              rw [List.singleton_append, quoted_escape] at h
              have hread := quoted_byte h htoken
              rcases unescape_control hcontrol hread with hletter | hcontrol'
              · refine quoted_short hletter h ?_
                rw [htoken, hread, List.append_assoc, List.singleton_append]
              · rcases hcontrol' with rfl | rfl | rfl | rfl | rfl <;> exact absurd hprint
                  (by decide)
          | escaped | control | hex =>
              simp only [List.cons_append, List.nil_append, quoted_escape] at h
              obtain rfl := quoted_byte h htoken
              exact hb (by decide)

/-- A line that is built by `sdscatrepr` for every argument, with a space after each. -/
def quotedLine (args : List Bytes) : Bytes := args.flatMap fun a => sdscatrepr [] a ++ [32]

theorem quotedLine_cons (a : Bytes) (args : List Bytes) :
    quotedLine (a :: args) = 34 :: (a.flatMap reprByte ++ 34 :: 32 :: quotedLine args) := by
  simp [quotedLine, sdscatrepr]

theorem hexDigit_ne_zero {d : ℕ} (hd : d < 16) : hexDigit d ≠ 0 := by
  interval_cases d <;> decide

theorem reprByte_ne_zero {b c : UInt8} (hc : c ∈ reprByte b) : c ≠ 0 := by
  have hb : b.toNat < 256 := b.toNat_lt
  have hhigh := hexDigit_ne_zero (show b.toNat / 16 < 16 by omega)
  have hlow := hexDigit_ne_zero (show b.toNat % 16 < 16 by omega)
  unfold reprByte at hc
  split_ifs at hc with h₁ h₂ h₃ h₄ h₅ h₆ h₇
  · rcases h₁ with rfl | rfl <;> simp at hc <;> rcases hc with rfl | rfl <;> decide
  · simp [ascii] at hc; subst hc; decide
  · simp [ascii] at hc; subst hc; decide
  · simp [ascii] at hc; subst hc; decide
  · simp [ascii] at hc; subst hc; decide
  · simp [ascii] at hc; subst hc; decide
  · obtain rfl := List.mem_singleton.mp hc
    rintro rfl
    exact absurd h₇ (by decide)
  · rcases List.mem_append.mp hc with hc | hc
    · simp [ascii] at hc
      rcases hc with rfl | rfl <;> decide
    · simp only [List.mem_cons, List.not_mem_nil, or_false] at hc
      rcases hc with rfl | rfl
      · exact hhigh
      · exact hlow

theorem quotedLine_takeWhile (args : List Bytes) :
    (quotedLine args).takeWhile (· ≠ 0) = quotedLine args := by
  refine List.takeWhile_eq_self_iff.mpr fun c hc => ?_
  simp only [quotedLine, sdscatrepr, List.mem_flatMap, List.mem_append, List.mem_cons,
    List.not_mem_nil, or_false, List.nil_append] at hc
  obtain ⟨a, -, (rfl | ⟨b, -, hb⟩ | rfl) | rfl⟩ := hc
  · decide
  · exact decide_eq_true (reprByte_ne_zero hb)
  · decide
  · decide

theorem splitFor_prefix {n : ℕ} {vector args : List Bytes} {p : Bytes}
    (h : splitFor n vector p = some args) : vector <+: args := by
  induction n generalizing vector p with
  | zero =>
      cases h
      exact List.prefix_refl _
  | succ n ih =>
      rw [splitFor] at h
      split at h
      · cases h
        exact List.prefix_refl _
      · obtain ⟨r, -, hr⟩ := Option.bind_eq_some_iff.mp h
        exact (List.prefix_append _ _).trans (ih hr)

theorem splitFor_quote (n : ℕ) (vector : List Bytes) (ps : Bytes) :
    splitFor (n + 1) vector (34 :: ps) =
      (quoted [] ps).bind fun r => splitFor n (vector ++ [r.1]) r.2 := by
  have hskip : (34 :: ps).dropWhile isspace = 34 :: ps := List.dropWhile_cons_of_neg (by decide)
  have htoken : unquoted [] (34 :: ps) = quoted [] ps := by
    rw [unquoted.eq_def]
    rfl
  simp only [splitFor, hskip, htoken]

theorem splitFor_space (n : ℕ) (vector args : List Bytes) :
    splitFor n vector (32 :: quotedLine args) = splitFor n vector (quotedLine args) := by
  cases n with
  | zero => rfl
  | succ n => rw [splitFor, splitFor, List.dropWhile_cons_of_pos (by decide)]

theorem exists_first_unprintable {p : Bytes} (hp : ¬∀ b ∈ p, isprint b) :
    ∃ pre b post, p = pre ++ b :: post ∧ (∀ c ∈ pre, isprint c) ∧ ¬isprint b := by
  induction p with
  | nil => simp at hp
  | cons c p ih =>
      by_cases hc : isprint c
      · obtain ⟨pre, b, post, rfl, hpre, hb⟩ := ih (by simpa [hc] using hp)
        exact ⟨c :: pre, b, post, rfl, by simpa [hc] using hpre, hb⟩
      · exact ⟨[], c, p, rfl, by simp, hc⟩

theorem splitFor_quotedLine {n : ℕ} (args : List Bytes) (hn : args.length ≤ n)
    (vector : List Bytes) :
    splitFor n vector (quotedLine args) = some (vector ++ args) ↔
      ∀ a ∈ args, ∀ b ∈ a, isprint b := by
  induction args generalizing n vector with
  | nil =>
      cases n <;> simp [splitFor, quotedLine]
  | cons a args ih =>
      obtain ⟨n, rfl⟩ : ∃ m, n = m + 1 := ⟨n - 1, by simp only [List.length_cons] at hn; omega⟩
      have hargs := ih (show args.length ≤ n by simpa using hn) (vector ++ [a])
      rw [List.append_assoc, List.singleton_append] at hargs
      rw [quotedLine_cons, splitFor_quote]
      by_cases ha : ∀ b ∈ a, isprint b
      · rw [quoted_repr ha, quoted_close, List.head?_cons, Option.all_some, if_pos (by decide),
          Option.bind_some, List.nil_append, splitFor_space, hargs]
        simp only [List.mem_cons, forall_eq_or_imp]
        exact ⟨fun h => ⟨ha, h⟩, fun h => h.2⟩
      · refine ⟨fun h => ?_, fun h => absurd (h a (by simp)) ha⟩
        obtain ⟨r, hr, h⟩ := Option.bind_eq_some_iff.mp h
        -- the token that is read for `a` is `a` itself
        obtain ⟨u, hu⟩ := splitFor_prefix h
        rw [List.append_assoc, List.append_cancel_left_eq, List.singleton_append] at hu
        have htoken := (List.cons.inj hu).1
        obtain ⟨pre, b, post, rfl, hpre, hb⟩ := exists_first_unprintable ha
        rw [List.flatMap_append, List.flatMap_cons, List.append_assoc, List.append_assoc,
          quoted_repr hpre] at hr
        exact absurd htoken (quoted_unprintable hb hr)

/-- `sdssplitargs` reads back what `sdscatrepr` wrote exactly when every byte of every
argument is printable. -/
theorem sdssplitargs_quotedLine (args : List Bytes) :
    sdssplitargs (quotedLine args) = some args ↔ ∀ a ∈ args, ∀ b ∈ a, isprint b := by
  have hlen : args.length ≤ (quotedLine args).length + 1 := by
    induction args with
    | nil => exact Nat.zero_le _
    | cons a args ih =>
        rw [quotedLine_cons]
        simp only [List.length_cons, List.length_append]
        omega
  rw [sdssplitargs, quotedLine_takeWhile]
  simpa using splitFor_quotedLine args hlen []

end PhpHiredis.Sds
