import PhpHiredis.Library.Bytes
import Mathlib.Data.List.Infix

/-!
# Requests

A request is a list of words; on the wire it is a multi-bulk of bulk strings.
`decodeRequest` is how a server reads one, stated without reference to the
client: a count, then that many strings, each with its length. What it reads
does not depend on the bytes after it.
-/
namespace PhpHiredis

open Library

/-- A command keyword and its arguments. -/
abbrev Request := List Bytes

def encodeBulk (word : Bytes) : Bytes := 36 :: decimal word.length ++ CRLF ++ word ++ CRLF

def encodeRequest (words : Request) : Bytes :=
  42 :: decimal words.length ++ CRLF ++ (words.map encodeBulk).flatten

theorem encodeRequest_ne_nil (words : Request) : encodeRequest words ≠ [] := List.cons_ne_nil _ _

def decodeHeader (mark : UInt8) : Bytes → Option (ℕ × Bytes)
  | [] => none
  | b :: xs =>
      if b = mark then do
        let i ← findCRLF xs
        let n ← parseDecimal (xs.take i)
        return (n, xs.drop (i + 2))
      else none

def decodeBulk (xs : Bytes) : Option (Bytes × Bytes) := do
  let (n, ys) ← decodeHeader 36 xs
  if n + 2 ≤ ys.length ∧ (ys.drop n).take 2 = CRLF then return (ys.take n, ys.drop (n + 2))
  else none

def decodeBulks : ℕ → Bytes → Option (List Bytes × Bytes)
  | 0, xs => some ([], xs)
  | n + 1, xs => do
      let (word, ys) ← decodeBulk xs
      let (words, zs) ← decodeBulks n ys
      return (word :: words, zs)

/-- The request at the front of some bytes, and what follows it. -/
def decodeRequest (xs : Bytes) : Option (Request × Bytes) := do
  let (n, ys) ← decodeHeader 42 xs
  decodeBulks n ys

theorem decodeHeader_encode (mark : UInt8) (n : ℕ) (rest : Bytes) :
    decodeHeader mark (mark :: decimal n ++ CRLF ++ rest) = some (n, rest) := by
  have hline := findCRLF_line (findCRLF_eq_none (cr_notMem_decimal n)) rest
  have hdrop : (decimal n ++ CRLF ++ rest).drop ((decimal n).length + 2) = rest :=
    List.drop_left' (by simp)
  have htake : (decimal n ++ CRLF ++ rest).take (decimal n).length = decimal n := by
    rw [List.append_assoc, List.take_left]
  change decodeHeader mark (mark :: (decimal n ++ CRLF ++ rest)) = _
  rw [decodeHeader, if_pos rfl, hline]
  simp only [Option.bind_eq_bind, Option.bind_some, htake, hdrop, parseDecimal_decimal,
    Option.pure_def]

theorem decodeBulk_encode (word rest : Bytes) :
    decodeBulk (encodeBulk word ++ rest) = some (word, rest) := by
  have hsplit : encodeBulk word ++ rest =
      36 :: decimal word.length ++ CRLF ++ (word ++ (CRLF ++ rest)) := by
    simp [encodeBulk]
  have hdrop : (word ++ (CRLF ++ rest)).drop (word.length + 2) = rest := by
    rw [← List.append_assoc]
    exact List.drop_left' (by simp)
  simp only [decodeBulk, hsplit, decodeHeader_encode, Option.bind_eq_bind, Option.bind_some,
    Option.pure_def]
  rw [if_pos, List.take_left, hdrop]
  refine ⟨by simp, ?_⟩
  rw [List.drop_left]
  rfl

theorem decodeBulks_encode (words : Request) (rest : Bytes) :
    decodeBulks words.length ((words.map encodeBulk).flatten ++ rest) = some (words, rest) := by
  induction words with
  | nil => rfl
  | cons word words ih =>
      simp only [List.map_cons, List.flatten_cons, List.append_assoc, List.length_cons, decodeBulks,
        decodeBulk_encode, Option.bind_eq_bind, Option.bind_some, ih, Option.pure_def]

theorem decodeRequest_encode (words : Request) (rest : Bytes) :
    decodeRequest (encodeRequest words ++ rest) = some (words, rest) := by
  rw [decodeRequest, encodeRequest, List.append_assoc, decodeHeader_encode]
  exact decodeBulks_encode words rest

theorem decodeHeader_takes {mark : UInt8} {xs ys : Bytes} {n : ℕ}
    (h : decodeHeader mark xs = some (n, ys)) :
    (ys <:+ xs ∧ ys.length < xs.length) ∧
      ∀ zs, decodeHeader mark (xs ++ zs) = some (n, ys ++ zs) := by
  cases xs with
  | nil => cases h
  | cons b xs =>
      rw [decodeHeader] at h
      split_ifs at h with hb
      cases hi : findCRLF xs with
      | none => simp [hi] at h
      | some i =>
          have hle := findCRLF_le hi
          simp only [hi, Option.bind_eq_bind, Option.bind_some, Option.bind_eq_some_iff,
            Option.pure_def, Option.some.injEq, Prod.mk.injEq] at h
          obtain ⟨m, hm, rfl, rfl⟩ := h
          refine ⟨⟨(List.drop_suffix _ xs).trans (List.suffix_cons b xs), ?_⟩, fun zs => ?_⟩
          · rw [List.length_drop, List.length_cons]
            omega
          · simp only [List.cons_append, decodeHeader, if_pos hb, findCRLF_append hi,
              Option.bind_eq_bind, Option.bind_some, Option.pure_def,
              List.take_append_of_le_length (show i ≤ xs.length by omega), hm,
              List.drop_append_of_le_length hle]

theorem decodeBulk_takes {xs ys word : Bytes} (h : decodeBulk xs = some (word, ys)) :
    ys <:+ xs ∧ ∀ zs, decodeBulk (xs ++ zs) = some (word, ys ++ zs) := by
  unfold decodeBulk at h
  cases hh : decodeHeader 36 xs with
  | none => simp [hh] at h
  | some r =>
      obtain ⟨n, ws⟩ := r
      obtain ⟨hsuf, hext⟩ := decodeHeader_takes hh
      simp only [hh, Option.bind_eq_bind, Option.bind_some, Option.pure_def] at h
      split_ifs at h with hc
      simp only [Option.some.injEq, Prod.mk.injEq] at h
      obtain ⟨rfl, rfl⟩ := h
      refine ⟨(List.drop_suffix _ ws).trans hsuf.1, fun zs => ?_⟩
      have hd : (ws ++ zs).drop n = ws.drop n ++ zs :=
        List.drop_append_of_le_length (by omega)
      have ht : ((ws ++ zs).drop n).take 2 = CRLF := by
        rw [hd, List.take_append_of_le_length (by rw [List.length_drop]; omega), hc.2]
      simp only [decodeBulk, hext, Option.bind_eq_bind, Option.bind_some, Option.pure_def]
      have hl : n + 2 ≤ (ws ++ zs).length := by
        rw [List.length_append]
        omega
      rw [if_pos ⟨hl, ht⟩, List.take_append_of_le_length (by omega),
        List.drop_append_of_le_length hc.1]

theorem decodeBulks_takes {n : ℕ} {xs ys : Bytes} {words : List Bytes}
    (h : decodeBulks n xs = some (words, ys)) :
    ys <:+ xs ∧ ∀ zs, decodeBulks n (xs ++ zs) = some (words, ys ++ zs) := by
  induction n generalizing xs words with
  | zero =>
      cases h
      exact ⟨List.suffix_refl _, fun _ => rfl⟩
  | succ n ih =>
      rw [decodeBulks] at h
      cases hb : decodeBulk xs with
      | none => simp [hb] at h
      | some r =>
          obtain ⟨word, ws⟩ := r
          obtain ⟨hsuf, hext⟩ := decodeBulk_takes hb
          simp only [hb, Option.bind_eq_bind, Option.bind_some, Option.bind_eq_some_iff,
            Option.pure_def, Option.some.injEq, Prod.mk.injEq] at h
          obtain ⟨⟨words', zs'⟩, hw, rfl, rfl⟩ := h
          obtain ⟨hsuf', hext'⟩ := ih hw
          refine ⟨hsuf'.trans hsuf, fun zs => ?_⟩
          simp only [decodeBulks, hext, hext', Option.bind_eq_bind, Option.bind_some,
            Option.pure_def]

theorem decodeRequest_takes {xs ys : Bytes} {words : Request}
    (h : decodeRequest xs = some (words, ys)) :
    (ys <:+ xs ∧ ys.length < xs.length) ∧
      ∀ zs, decodeRequest (xs ++ zs) = some (words, ys ++ zs) := by
  unfold decodeRequest at h
  cases hh : decodeHeader 42 xs with
  | none => simp [hh] at h
  | some r =>
      obtain ⟨n, ws⟩ := r
      obtain ⟨⟨hsuf, hlt⟩, hext⟩ := decodeHeader_takes hh
      simp only [hh, Option.bind_eq_bind, Option.bind_some] at h
      obtain ⟨hsuf', hext'⟩ := decodeBulks_takes h
      refine ⟨⟨hsuf'.trans hsuf, ?_⟩, fun zs => ?_⟩
      · have := hsuf'.length_le
        omega
      · simp only [decodeRequest, hext, hext', Option.bind_eq_bind, Option.bind_some]

end PhpHiredis
