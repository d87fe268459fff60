import PhpHiredis.Format
import PhpHiredis.Library.Bytes

/-!
# Formats as templates

What `redisvFormatCommand` does with any format and any arguments. The loop of the
source reads the format and the arguments together. Here the format is parsed first,
without the arguments, into words of pieces; then the pieces are filled, and the
words that come out empty are dropped. The two agree, so that the bytes of an argument
never make a word or end one: they stay in the word of their conversion.
-/
namespace PhpHiredis

open Library

/-- A part of a word: a byte of the format, or a conversion with its letter. -/
inductive Piece where
  | byte (b : UInt8)
  | conversion (d : UInt8)
  deriving DecidableEq, Repr

namespace Piece

def interpolates : Piece → Bool
  | byte _ => false
  | conversion d => d = 115 ∨ d = 98 ∨ d = 100 ∨ d = 105 ∨ d = 102

/-- The text of a piece, and the arguments that it leaves; nothing if there is no
argument of its kind. -/
def fill : Piece → List FormatArg → Option (Bytes × List FormatArg)
  | byte b, ap => some ([b], ap)
  | conversion d, ap =>
      if d = 115 then
        match ap with
        | .str s :: ap => some (s.takeWhile (· ≠ 0), ap)
        | _ => none
      else if d = 98 then
        match ap with
        | .bin s :: ap => some (s, ap)
        | _ => none
      else if d = 100 ∨ d = 105 then
        match ap with
        | .int n :: ap => some (decimalInt n, ap)
        | _ => none
      else if d = 102 then
        match ap with
        | .double shown :: ap => some (shown, ap)
        | _ => none
      else some (if d = 37 then ascii "%" else [], ap)

end Piece

/-- A piece in front of the first word. -/
def addPiece (p : Piece) : List (List Piece) → List (List Piece)
  | [] => [[p]]
  | word :: words => (p :: word) :: words

/-- The words of a format, cut at the blanks. -/
def parseFormat : Bytes → List (List Piece)
  | [] => [[]]
  | [c] => if c = 32 then [[], []] else [[.byte c]]
  | c :: d :: format =>
      if c = 37 then addPiece (.conversion d) (parseFormat format)
      else if c = 32 then [] :: parseFormat (d :: format)
      else addPiece (.byte c) (parseFormat (d :: format))

/-- A word with all its arguments: its text, and whether it has any. -/
structure Filled where
  text : Bytes
  interpolated : Bool
  deriving DecidableEq, Repr

def fillWord : List Piece → List FormatArg → Option (Filled × List FormatArg)
  | [], ap => some (⟨[], false⟩, ap)
  | p :: word, ap => do
      let (text, ap) ← p.fill ap
      let (rest, ap) ← fillWord word ap
      return (⟨text ++ rest.text, p.interpolates || rest.interpolated⟩, ap)

def fillWords : List (List Piece) → List FormatArg → Option (List Filled)
  | [], _ => some []
  | word :: words, ap => do
      let (filled, ap) ← fillWord word ap
      let rest ← fillWords words ap
      return filled :: rest

/-- The words that are sent. An empty one is dropped at its blank; at the end one is sent if
any argument was filled in since the last word. -/
def sentWords (interpolated : Bool) : List Filled → List Bytes
  | [] => []
  | [word] => if interpolated || word.interpolated || word.text ≠ [] then [word.text] else []
  | word :: next :: words =>
      if word.text ≠ [] then word.text :: sentWords false (next :: words)
      else sentWords (interpolated || word.interpolated) (next :: words)

/-- The first word with something in front of it. -/
def continueWith (text : Bytes) (interpolated : Bool) : List Filled → List Filled
  | [] => []
  | word :: words => ⟨text ++ word.text, interpolated || word.interpolated⟩ :: words

theorem continueWith_nil (words : List Filled) : continueWith [] false words = words := by
  cases words <;> rfl

theorem continueWith_continueWith (t u : Bytes) (i : Bool) (words : List Filled) :
    continueWith t false (continueWith u i words) = continueWith (t ++ u) i words := by
  cases words with
  | nil => rfl
  | cons word words => simp only [continueWith, Bool.false_or, List.append_assoc]

theorem sentWords_interpolated (c i : Bool) (t : Bytes) (words : List Filled) :
    sentWords c (continueWith t i words) = sentWords (c || i) (continueWith t false words) := by
  rcases words with _ | ⟨word, _ | ⟨next, words⟩⟩
  · rfl
  · simp only [continueWith, sentWords, Bool.false_or, Bool.or_assoc]
  · simp only [continueWith, sentWords, Bool.false_or, Bool.or_assoc]

theorem parseFormat_ne_nil (format : Bytes) : parseFormat format ≠ [] := by
  have hadd : ∀ (p : Piece) (words : List (List Piece)), addPiece p words ≠ [] := by
    rintro p (_ | ⟨word, words⟩) <;> exact List.cons_ne_nil _ _
  unfold parseFormat
  split
  · exact List.cons_ne_nil _ _
  · split <;> exact List.cons_ne_nil _ _
  · split_ifs
    · exact hadd _ _
    · exact List.cons_ne_nil _ _
    · exact hadd _ _

theorem fillWords_addPiece (p : Piece) {words : List (List Piece)} (hne : words ≠ [])
    (ap : List FormatArg) :
    fillWords (addPiece p words) ap = (p.fill ap).bind fun x =>
      (fillWords words x.2).map (continueWith x.1 p.interpolates) := by
  cases words with
  | nil => exact absurd rfl hne
  | cons word words =>
      cases hp : p.fill ap with
      | none => simp [addPiece, fillWords, fillWord, hp]
      | some x =>
          obtain ⟨text, ap⟩ := x
          cases hw : fillWord word ap with
          | none => simp [addPiece, fillWords, fillWord, hp, hw]
          | some y =>
              obtain ⟨filled, ap⟩ := y
              cases hws : fillWords words ap with
              | none => simp [addPiece, fillWords, fillWord, hp, hw, hws]
              | some rest => simp [addPiece, fillWords, fillWord, hp, hw, hws, continueWith]

theorem length_fillWords {words : List (List Piece)} {ap : List FormatArg} {filled : List Filled}
    (h : fillWords words ap = some filled) : filled.length = words.length := by
  induction words generalizing ap filled with
  | nil =>
      cases h
      rfl
  | cons word words ih =>
      simp only [fillWords, Option.bind_eq_bind, Option.bind_eq_some_iff, Option.pure_def] at h
      obtain ⟨⟨f, ap'⟩, -, rest, hrest, hfilled⟩ := h
      cases hfilled
      rw [List.length_cons, List.length_cons, ih hrest]

theorem convert_fill (d : UInt8) (st : Formatting) (ap : List FormatArg) :
    convert d st ap =
      match (Piece.conversion d).fill ap with
      | some (text, ap) => .ok
          ({ st with
            current := st.current ++ text
            interpolated := st.interpolated || (Piece.conversion d).interpolates }, ap)
      | none => .fault .missingArgument := by
  unfold convert Piece.fill
  by_cases hs : d = 115
  · simp only [if_pos hs]
    rcases ap with _ | ⟨_ | _ | _ | _, ap⟩ <;> simp [Formatting.interpolate, Piece.interpolates, hs]
  · by_cases hb : d = 98
    · simp only [if_neg hs, if_pos hb]
      rcases ap with _ | ⟨_ | _ | _ | _, ap⟩ <;>
        simp [Formatting.interpolate, Piece.interpolates, hb]
    · by_cases hd : d = 100 ∨ d = 105
      · simp only [if_neg hs, if_neg hb, if_pos hd]
        rcases ap with _ | ⟨_ | _ | _ | _, ap⟩ <;>
          simp [Formatting.interpolate, Piece.interpolates, or_assoc.symm, hd]
      · by_cases hf : d = 102
        · simp only [if_neg hs, if_neg hb, if_neg hd, if_pos hf]
          rcases ap with _ | ⟨_ | _ | _ | _, ap⟩ <;>
            simp [Formatting.interpolate, Piece.interpolates, hf]
        · have hnone : (Piece.conversion d).interpolates = false := by
            simp [Piece.interpolates, hs, hb, not_or.mp hd, hf]
          simp only [if_neg hs, if_neg hb, if_neg hd, if_neg hf, hnone, Bool.or_false]
          split_ifs <;> simp

/-- What the loop comes to on the parsed format. -/
def Scans (format : Bytes) (st : Formatting) (ap : List FormatArg) : Prop :=
  (fillWords (parseFormat format) ap = none → scanFormat format st ap = .fault .missingArgument) ∧
  ∀ words, fillWords (parseFormat format) ap = some words →
    ∃ st', scanFormat format st ap = .ok st' ∧ Counted (lastArgument st') ∧
      (lastArgument st').argv =
        st.argv ++ sentWords st.interpolated (continueWith st.current false words)

theorem Counted.last {st : Formatting} (h : Counted st) : Counted (lastArgument st) := by
  unfold lastArgument
  split_ifs
  · exact h.add
  · exact h

theorem scans_nil {st : Formatting} (hc : Counted st) (ap : List FormatArg) : Scans [] st ap := by
  refine ⟨nofun, fun words hwords => ⟨st, rfl, hc.last, ?_⟩⟩
  cases hwords
  by_cases hi : st.interpolated = true
  · simp [lastArgument, continueWith, sentWords, hi, addArgument]
  · by_cases hcur : st.current = []
    · simp [lastArgument, continueWith, sentWords, hi, hcur]
    · simp [lastArgument, continueWith, sentWords, hi, hcur, addArgument]

theorem scans_blank {format : Bytes} {st : Formatting} {ap : List FormatArg}
    (ih : Scans format (literal 32 st) ap) (hscan : scanFormat (32 :: format) st ap =
      scanFormat format (literal 32 st) ap)
        (hparse : parseFormat (32 :: format) = [] :: parseFormat format) :
    Scans (32 :: format) st ap := by
  unfold Scans at ih ⊢
  rw [hscan, hparse]
  have hfill : fillWords ([] :: parseFormat format) ap =
      (fillWords (parseFormat format) ap).map fun rest => ⟨[], false⟩ :: rest := by
    cases h : fillWords (parseFormat format) ap <;> simp [fillWords, fillWord, h]
  rw [hfill]
  refine ⟨fun hnone => ih.1 (Option.map_eq_none_iff.mp hnone), fun words hwords => ?_⟩
  obtain ⟨rest, hrest, rfl⟩ := Option.map_eq_some_iff.mp hwords
  obtain ⟨st', hrun, hcounted, hargv⟩ := ih.2 rest hrest
  refine ⟨st', hrun, hcounted, ?_⟩
  have hlen := length_fillWords hrest
  rcases rest with _ | ⟨next, rest⟩
  · exact absurd (List.eq_nil_of_length_eq_zero hlen.symm) (parseFormat_ne_nil format)
  · rw [hargv]
    unfold literal
    rw [if_pos rfl]
    by_cases hcur : st.current = []
    · simp [hcur, continueWith, sentWords]
    · simp [hcur, continueWith, sentWords, addArgument]

theorem scans_piece {format format' : Bytes} {st st' : Formatting} {ap ap' : List FormatArg}
    {p : Piece}
    {text : Bytes} (hparse : parseFormat format = addPiece p (parseFormat format'))
    (hfill : p.fill ap = some (text, ap'))
    (hscan : scanFormat format st ap = scanFormat format' st' ap')
    (hcurrent : st'.current = st.current ++ text)
    (hinterpolated : st'.interpolated = (st.interpolated || p.interpolates))
    (hargv : st'.argv = st.argv)
    (ih : Scans format' st' ap') : Scans format st ap := by
  unfold Scans at ih ⊢
  rw [hparse, fillWords_addPiece p (parseFormat_ne_nil format'), hfill, Option.bind_some, hscan]
  refine ⟨fun hnone => ih.1 (Option.map_eq_none_iff.mp hnone), fun words hwords => ?_⟩
  obtain ⟨rest, hrest, rfl⟩ := Option.map_eq_some_iff.mp hwords
  obtain ⟨st'', hrun, hcounted, hargv'⟩ := ih.2 rest hrest
  refine ⟨st'', hrun, hcounted, ?_⟩
  rw [hargv', hargv, hcurrent, hinterpolated, continueWith_continueWith, ← sentWords_interpolated]

theorem Counted.literal {st : Formatting} (h : Counted st) (c : UInt8) :
    Counted (PhpHiredis.literal c st) := by
  unfold PhpHiredis.literal
  split_ifs
  · exact h.add
  · exact h
  · exact h

theorem scans_byte {format format' : Bytes} {c : UInt8} {st : Formatting} {ap : List FormatArg}
    (hc : c ≠ 32)
    (hparse : parseFormat format = addPiece (.byte c) (parseFormat format'))
    (hscan : scanFormat format st ap = scanFormat format' (literal c st) ap)
    (ih : Scans format' (literal c st) ap) : Scans format st ap := by
  have hliteral : literal c st = { st with current := st.current ++ [c] } := if_neg hc
  rw [hliteral] at hscan ih
  exact scans_piece hparse rfl hscan rfl (Bool.or_false _).symm rfl ih

/-- The loop, by induction on the format. -/
theorem scans : ∀ (format : Bytes) {st : Formatting} (_ : Counted st) (ap : List FormatArg),
    Scans format st ap
  | [], _, hc, ap => scans_nil hc ap
  | [c], st, hc, ap => by
      by_cases hblank : c = 32
      · subst hblank
        exact scans_blank (scans_nil (hc.literal 32) ap) rfl rfl
      · have hparse : parseFormat [c] = addPiece (.byte c) (parseFormat []) := by
          simp only [parseFormat, if_neg hblank, addPiece]
        exact scans_byte hblank hparse rfl (scans_nil (hc.literal c) ap)
  | c :: d :: format, st, hc, ap => by
      by_cases hpercent : c = 37
      · subst hpercent
        have hscan : scanFormat (37 :: d :: format) st ap =
            convert d st ap >>= fun x => scanFormat format x.1 x.2 := by
          rw [scanFormat, if_pos rfl]
        have hparse : parseFormat (37 :: d :: format) =
            addPiece (.conversion d) (parseFormat format) := by
          rw [parseFormat, if_pos rfl]
        rw [convert_fill] at hscan
        cases hfill : (Piece.conversion d).fill ap with
        | none =>
            have hnone : fillWords (parseFormat (37 :: d :: format)) ap = none := by
              rw [hparse, fillWords_addPiece _ (parseFormat_ne_nil format), hfill, Option.bind_none]
            rw [hfill] at hscan
            refine ⟨fun _ => hscan, fun words hwords => ?_⟩
            rw [hnone] at hwords
            cases hwords
        | some x =>
            rw [hfill] at hscan
            exact scans_piece hparse hfill hscan rfl rfl rfl (scans format (by exact hc) x.2)
      · have hscan := scanFormat_literal hpercent (d :: format) st ap
        by_cases hblank : c = 32
        · subst hblank
          refine scans_blank (scans (d :: format) (hc.literal 32) ap) hscan ?_
          rw [parseFormat, if_neg hpercent, if_pos rfl]
        · have hparse : parseFormat (c :: d :: format) =
              addPiece (.byte c) (parseFormat (d :: format)) := by
            rw [parseFormat, if_neg hpercent, if_neg hblank]
          exact scans_byte hblank hparse hscan (scans (d :: format) (hc.literal c) ap)

theorem sentWords_sublist (i : Bool) (words : List Filled) :
    (sentWords i words).Sublist (words.map Filled.text) := by
  fun_induction sentWords i words with
  | case1 => exact List.Sublist.slnil
  | case2 i word h => exact List.Sublist.refl _
  | case3 i word h => exact List.nil_sublist _
  | case4 i word next words h ih => exact ih.cons_cons word.text
  | case5 i word next words h ih => exact ih.cons word.text

/-- Only empty words are dropped. -/
theorem sentWords_filter (i : Bool) (words : List Filled) :
    (sentWords i words).filter (· ≠ []) = (words.map Filled.text).filter (· ≠ []) := by
  fun_induction sentWords i words with
  | case1 => rfl
  | case2 i word h => rfl
  | case3 i word h =>
      have hempty : word.text = [] := by
        simp only [ne_eq, Bool.or_eq_true, decide_not, Bool.not_eq_true', not_or] at h
        simpa using h.2
      simp [hempty]
  | case4 i word next words h ih =>
      rw [List.map_cons, List.filter_cons_of_pos (by simpa using h),
        List.filter_cons_of_pos (by simpa using h), ih]
  | case5 i word next words h ih =>
      have hempty : word.text = [] := not_not.mp h
      rw [ih]
      exact (List.filter_cons_of_neg (by simp [hempty])).symm

/-- The length that is computed before anything is printed, with the overflow of an `int`. -/
def computedLength (st : Formatting) : ℤ :=
    wrap 32 (st.totlen + (1 + intlen st.argv.length + 2) : ℕ)

/-- The state at the end of the loop, with the words that are sent. -/
theorem scanFormat_sent {format : Bytes} {ap : List FormatArg} {words : List Filled}
    (h : fillWords (parseFormat format) ap = some words) :
    ∃ st, scanFormat format ⟨[], false, [], 0⟩ ap = .ok st ∧
      (lastArgument st).argv = sentWords false words ∧
      printCommand (sentWords false words) ((lastArgument st).totlen +
        (1 + intlen (sentWords false words).length + 2)) =
          .ok (encodeRequest (sentWords false words)) := by
  obtain ⟨-, hsome⟩ := scans format (rfl : Counted ⟨[], false, [], 0⟩) ap
  obtain ⟨st, hrun, hcounted, hargv⟩ := hsome words h
  rw [continueWith_nil, List.nil_append] at hargv
  have hsent : (lastArgument st).argv = sentWords false words := hargv
  unfold Counted at hcounted
  rw [hsent] at hcounted
  exact ⟨st, hrun, hsent, print_eq (congrArg (· + _) hcounted)⟩

theorem redisvFormatCommand_eq {format : Bytes} {ap : List FormatArg} {words : List Filled}
    (h : fillWords (parseFormat format) ap = some words) :
    redisvFormatCommand format ap = .ok (encodeRequest (sentWords false words)) := by
  obtain ⟨st, hrun, hsent, hprint⟩ := scanFormat_sent h
  rw [redisvFormatCommand, hrun, Outcome.ok_bind]
  simp only [hsent]
  exact hprint

theorem computedLength_eq {format : Bytes} {ap : List FormatArg} {words : List Filled}
    (h : fillWords (parseFormat format) ap = some words)
    (hint : (encodeRequest (sentWords false words)).length < 2 ^ 31) :
    ∃ st, scanFormat format ⟨[], false, [], 0⟩ ap = .ok st ∧
      computedLength (lastArgument st) = (encodeRequest (sentWords false words)).length := by
  obtain ⟨st, hrun, hsent, hprint⟩ := scanFormat_sent h
  have hlen := printCommand_length hprint
  refine ⟨st, hrun, ?_⟩
  rw [computedLength, hsent, ← hlen]
  exact wrap_of_range (by omega) (by omega)

/-- Any format with any arguments: the format is cut into words first, and the arguments
only fill them. If an argument of the right kind is missing the function fails. Otherwise,
with a command that an `int` can count, it prints the request of the words that are sent,
and has computed its length. These are the words of the format in their order, without
some of the empty ones: no argument makes a word or ends one, but an empty one may drop
its own. -/
theorem redisvFormatCommand_parse (format : Bytes) (ap : List FormatArg) :
    (fillWords (parseFormat format) ap = none →
      redisvFormatCommand format ap = .fault .missingArgument) ∧
    ∀ words, fillWords (parseFormat format) ap = some words →
      (encodeRequest (sentWords false words)).length < 2 ^ 31 →
      redisvFormatCommand format ap = .ok (encodeRequest (sentWords false words)) ∧
      (∃ st, scanFormat format ⟨[], false, [], 0⟩ ap = .ok st ∧
        computedLength (lastArgument st) = (encodeRequest (sentWords false words)).length) ∧
      (sentWords false words).length ≤ (parseFormat format).length ∧
      (sentWords false words).Sublist (words.map Filled.text) ∧
      (sentWords false words).filter (· ≠ []) = (words.map Filled.text).filter (· ≠ []) := by
  refine ⟨fun h => ?_, fun words hwords hint => ?_⟩
  · obtain ⟨hnone, -⟩ := scans format (rfl : Counted ⟨[], false, [], 0⟩) ap
    rw [redisvFormatCommand, hnone h]
    rfl
  · have hsub := sentWords_sublist false words
    have hcount := hsub.length_le
    rw [List.length_map, length_fillWords hwords] at hcount
    exact ⟨redisvFormatCommand_eq hwords, computedLength_eq hwords hint, hcount, hsub,
      sentWords_filter false words⟩

theorem redisvFormatCommand_parse_empty :
    redisvFormatCommand (ascii "SET %s %s") [.str [], .str (ascii "v")] =
      .ok (encodeRequest [ascii "SET", ascii "v"]) := by
  obtain ⟨-, hsome⟩ := redisvFormatCommand_parse (ascii "SET %s %s") [.str [], .str (ascii "v")]
  exact (hsome [⟨ascii "SET", false⟩, ⟨[], true⟩, ⟨ascii "v", true⟩] (by decide) (by decide)).1

end PhpHiredis
