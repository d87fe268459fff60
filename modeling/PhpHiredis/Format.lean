import PhpHiredis.Context
import PhpHiredis.Request

/-!
# Formatting of commands

The two functions of `hiredis.c` that put a command into protocol form: from a
format like that of `printf`, and from a vector of arguments. Both first compute
the length of the command and then print it; `print_eq` shows that the two
agree, so that the assertion between them never fails.

The format functions cut the format at blanks, and take an argument that is
still empty at a blank for no argument at all. `redisvFormatCommand_words` says
what this does to the words of a command.
-/
namespace PhpHiredis

open Library

def intlenFor : ℕ → ℕ → ℕ
  | 0, _ => 0
  | n + 1, i => if i / 10 = 0 then 1 else intlenFor n (i / 10) + 1

/-- The number of digits of a length or a count. -/
def intlen (i : ℕ) : ℕ := intlenFor (i + 1) i

def argumentLength (arg : Bytes) : ℕ := 1 + intlen arg.length + 2 + arg.length + 2

def printArguments : List Bytes → Bytes
  | [] => []
  | arg :: argv => ascii "$" ++ decimal arg.length ++ CRLF ++ arg ++ CRLF ++ printArguments argv

/-- Build the command at protocol level in `totlen` bytes. -/
def printCommand (argv : List Bytes) (totlen : ℕ) : Run Bytes :=
  let cmd := ascii "*" ++ decimal argv.length ++ CRLF ++ printArguments argv
  if cmd.length = totlen then .ok cmd else .fault .assertion

/-- What a caller passes for `%s`, `%b`, `%d` and `%f`. A floating point number
is given by its text. -/
inductive FormatArg where
  | str (s : Bytes)
  | bin (s : Bytes)
  | int (n : ℤ)
  | double (shown : Bytes)
  deriving DecidableEq, Repr

structure Formatting where
  current : Bytes
  interpolated : Bool
  argv : List Bytes
  totlen : ℕ
  deriving DecidableEq, Repr

def addArgument (st : Formatting) : Formatting :=
  { st with
    argv := st.argv ++ [st.current]
    totlen := st.totlen + argumentLength st.current }

def Formatting.interpolate (st : Formatting) (text : Bytes) : Formatting :=
  { st with current := st.current ++ text, interpolated := true }

/-- The conversion `%d` for the letter `d`. -/
def convert (d : UInt8) (st : Formatting) (ap : List FormatArg) :
    Run (Formatting × List FormatArg) :=
  if d = 115 then
    match ap with
    | .str s :: ap => .ok (st.interpolate (s.takeWhile (· ≠ 0)), ap)
    | _ => .fault .missingArgument
  else if d = 98 then
    match ap with
    | .bin s :: ap => .ok (st.interpolate s, ap)
    | _ => .fault .missingArgument
  else if d = 100 ∨ d = 105 then
    match ap with
    | .int n :: ap => .ok (st.interpolate (decimalInt n), ap)
    | _ => .fault .missingArgument
  else if d = 102 then
    match ap with
    | .double shown :: ap => .ok (st.interpolate shown, ap)
    | _ => .fault .missingArgument
  else if d = 37 then .ok ({ st with current := st.current ++ ascii "%" }, ap)
  else .ok (st, ap)

def literal (c : UInt8) (st : Formatting) : Formatting :=
  if c = 32 then
    if st.current ≠ [] then { addArgument st with current := [], interpolated := false } else st
  else { st with current := st.current ++ [c] }

def scanFormat : Bytes → Formatting → List FormatArg → Run Formatting
  | [], st, _ => .ok st
  | [c], st, _ => .ok (literal c st)
  | c :: d :: format, st, ap =>
      if c = 37 then do
        let (st, ap) ← convert d st ap
        scanFormat format st ap
      else scanFormat (d :: format) (literal c st) ap

def lastArgument (st : Formatting) : Formatting :=
  if st.interpolated ∨ st.current ≠ [] then addArgument st else st

def redisvFormatCommand (format : Bytes) (ap : List FormatArg) : Run Bytes := do
  let st ← scanFormat format ⟨[], false, [], 0⟩ ap
  let st := lastArgument st
  printCommand st.argv (st.totlen + (1 + intlen st.argv.length + 2))

def redisFormatCommandArgv (argv : List Bytes) : Run Bytes :=
  let totlen := argv.foldl (fun totlen arg => totlen + argumentLength arg)
    (1 + intlen argv.length + 2)
  printCommand argv totlen

variable {σ ρ : Type}

def redisAppendCommand (c : RedisContext σ ρ) (format : Bytes) (ap : List FormatArg) :
    Run (RedisContext σ ρ) := do
  let cmd ← redisvFormatCommand format ap
  return redisAppend c cmd

def redisAppendCommandArgv (c : RedisContext σ ρ) (argv : List Bytes) : Run (RedisContext σ ρ) := do
  let cmd ← redisFormatCommandArgv argv
  return redisAppend c cmd

theorem intlenFor_eq {n i : ℕ} (h : i < n) : intlenFor n i = (decimal i).length := by
  induction n generalizing i with
  | zero => omega
  | succ n ih =>
      rw [intlenFor, decimal, List.length_map, Nat.toDigits_eq_if (by decide)]
      by_cases hi : i < 10
      · rw [if_pos (Nat.div_eq_of_lt hi), if_pos hi, List.length_singleton]
      · have hdec := ih (show i / 10 < n by omega)
        rw [decimal, List.length_map] at hdec
        rw [if_neg (by omega), if_neg hi, List.length_append, List.length_singleton, hdec]

theorem intlen_eq (i : ℕ) : intlen i = (decimal i).length := intlenFor_eq (Nat.lt_succ_self i)

theorem printArguments_eq (argv : List Bytes) :
    printArguments argv = (argv.map encodeBulk).flatten := by
  induction argv with
  | nil => rfl
  | cons arg argv ih =>
      rw [printArguments, ih, List.map_cons, List.flatten_cons]
      rfl

theorem length_printArguments (argv : List Bytes) :
    (printArguments argv).length = (argv.map argumentLength).sum := by
  induction argv with
  | nil => rfl
  | cons arg argv ih =>
      have h1 : (ascii "$").length = 1 := rfl
      simp only [printArguments, List.length_append, ih, List.map_cons, List.sum_cons,
        argumentLength, intlen_eq, h1, CRLF, List.length_cons, List.length_nil]

/-- What is printed is the request, and takes the bytes that were computed. -/
theorem print_eq {argv : List Bytes} {totlen : ℕ}
    (h : totlen = (argv.map argumentLength).sum + (1 + intlen argv.length + 2)) :
    printCommand argv totlen = .ok (encodeRequest argv) := by
  have h1 : (ascii "*").length = 1 := rfl
  unfold printCommand
  rw [if_pos]
  · rw [printArguments_eq]
    rfl
  · simp only [List.length_append, length_printArguments, h, h1, intlen_eq, CRLF, List.length_cons,
      List.length_nil]
    omega

theorem printCommand_length {argv : List Bytes} {totlen : ℕ} {cmd : Bytes}
    (h : printCommand argv totlen = .ok cmd) : cmd.length = totlen := by
  simp only [printCommand] at h
  split_ifs at h with hlen
  cases h
  exact hlen

theorem foldl_argumentLength (argv : List Bytes) (n : ℕ) :
    argv.foldl (fun totlen arg => totlen + argumentLength arg) n =
      (argv.map argumentLength).sum + n := by
  induction argv generalizing n with
  | nil => simp
  | cons arg argv ih =>
      rw [List.foldl_cons, ih, List.map_cons, List.sum_cons]
      omega

theorem redisFormatCommandArgv_eq (argv : List Bytes) :
    redisFormatCommandArgv argv = .ok (encodeRequest argv) :=
  print_eq (foldl_argumentLength argv _)

/-- The conversion that takes an argument, and the text it inserts. -/
def FormatArg.conversion : FormatArg → Bytes
  | .str _ => ascii "%s"
  | .bin _ => ascii "%b"
  | .int _ => ascii "%d"
  | .double _ => ascii "%f"

def FormatArg.text : FormatArg → Bytes
  | .str s => s.takeWhile (· ≠ 0)
  | .bin s => s
  | .int n => decimalInt n
  | .double shown => shown

def formatOf (keyword : Bytes) (ap : List FormatArg) : Bytes :=
  keyword ++ (ap.map fun a => ascii " " ++ a.conversion).flatten

/-- A keyword is a word of its own in a format. -/
def Plain (keyword : Bytes) : Prop := keyword ≠ [] ∧ ∀ c ∈ keyword, c ≠ 37 ∧ c ≠ 32

instance (keyword : Bytes) : Decidable (Plain keyword) :=
  decidable_of_iff (keyword ≠ [] ∧ keyword.all (fun c => c ≠ 37 ∧ c ≠ 32) = true)
    (by simp [Plain, List.all_eq_true])

/-- The words a command ends up with: an empty one survives in the last place only. -/
def tokens : List Bytes → List Bytes
  | [] => []
  | [word] => [word]
  | word :: next :: words => (if word = [] then [] else [word]) ++ tokens (next :: words)

theorem length_tokens_le (words : List Bytes) : (tokens words).length ≤ words.length := by
  induction words with
  | nil => exact le_rfl
  | cons word words ih =>
      cases words with
      | nil => exact le_rfl
      | cons next words =>
          rw [tokens, List.length_append, List.length_cons]
          split_ifs <;> simp only [List.length_nil, List.length_singleton] <;> omega

/-- Nothing is lost exactly when no word but the last is empty. -/
theorem tokens_eq_self {words : List Bytes} :
    tokens words = words ↔ ∀ w ∈ words.dropLast, w ≠ [] := by
  induction words with
  | nil => simp [tokens]
  | cons word words ih =>
      cases words with
      | nil => simp [tokens]
      | cons next words =>
          rw [tokens, List.dropLast_cons_cons]
          by_cases hw : word = []
          · rw [if_pos hw, List.nil_append]
            constructor
            · intro h
              have hlen := length_tokens_le (next :: words)
              rw [h, List.length_cons] at hlen
              omega
            · intro h
              exact absurd hw (h word (by simp))
          · rw [if_neg hw, List.singleton_append, List.cons_inj_right, ih]
            simp [hw]

theorem scanFormat_literal {c : UInt8} (hc : c ≠ 37) (format : Bytes) (st : Formatting)
    (ap : List FormatArg) :
    scanFormat (c :: format) st ap = scanFormat format (literal c st) ap := by
  cases format with
  | nil => rfl
  | cons d format => rw [scanFormat, if_neg hc]

theorem scanFormat_word {keyword : Bytes} (hk : ∀ c ∈ keyword, c ≠ 37 ∧ c ≠ 32) (format : Bytes)
    (st : Formatting) (ap : List FormatArg) :
    scanFormat (keyword ++ format) st ap =
      scanFormat format { st with current := st.current ++ keyword } ap := by
  induction keyword generalizing st with
  | nil => simp
  | cons c keyword ih =>
      obtain ⟨h37, h32⟩ := hk c (by simp)
      rw [List.cons_append, scanFormat_literal h37, ih (fun c hc => hk c (by simp [hc])), literal,
        if_neg h32]
      simp

theorem scanFormat_conversion (a : FormatArg) (format : Bytes) (st : Formatting)
    (ap : List FormatArg) :
    scanFormat (a.conversion ++ format) st (a :: ap) =
      scanFormat format (st.interpolate a.text) ap := by
  cases a with
  | str s => change scanFormat (37 :: 115 :: format) st (.str s :: ap) = _; rfl
  | bin s => change scanFormat (37 :: 98 :: format) st (.bin s :: ap) = _; rfl
  | int n => change scanFormat (37 :: 100 :: format) st (.int n :: ap) = _; rfl
  | double shown => change scanFormat (37 :: 102 :: format) st (.double shown :: ap) = _; rfl

/-- The state of the loop is consistent: the length counts the arguments so far. -/
def Counted (st : Formatting) : Prop := st.totlen = (st.argv.map argumentLength).sum

theorem Counted.add {st : Formatting} (h : Counted st) : Counted (addArgument st) := by
  unfold Counted at h ⊢
  simp [addArgument, h]

/-- The loop from a blank on, by induction on the arguments that are left. The
current argument is the one before the blank. -/
theorem scanFormat_arguments (ap : List FormatArg) {st : Formatting} (hc : Counted st)
    (hw : st.interpolated ∨ st.current ≠ []) :
    ∃ st', scanFormat (formatOf [] ap) st ap = .ok st' ∧ Counted (lastArgument st') ∧
      (lastArgument st').argv = st.argv ++ tokens (st.current :: ap.map FormatArg.text) := by
  induction ap generalizing st with
  | nil =>
      refine ⟨st, rfl, ?_, ?_⟩
      · rw [lastArgument, if_pos hw]
        exact hc.add
      · rw [lastArgument, if_pos hw]
        rfl
  | cons a ap ih =>
      have hstep : scanFormat (formatOf [] (a :: ap)) st (a :: ap) =
          scanFormat (formatOf [] ap) ((literal 32 st).interpolate a.text) ap := by
        have hf : formatOf [] (a :: ap) = 32 :: (a.conversion ++ formatOf [] ap) := by
          simp [formatOf, ascii]
        rw [hf, scanFormat_literal (by decide), scanFormat_conversion]
      by_cases hcur : st.current = []
      · have hblank : literal 32 st = st := by simp [literal, hcur]
        obtain ⟨st', h₁, h₂, h₃⟩ := @ih (st.interpolate a.text) hc (Or.inl rfl)
        refine ⟨st', by rw [hstep, hblank, h₁], h₂, ?_⟩
        rw [h₃]
        simp [Formatting.interpolate, hcur, tokens]
      · have hblank : literal 32 st =
            { addArgument st with current := [], interpolated := false } := by
          simp [literal, hcur]
        obtain ⟨st', h₁, h₂, h₃⟩ := @ih ((literal 32 st).interpolate a.text)
          (by rw [hblank]; exact hc.add) (Or.inl rfl)
        refine ⟨st', by rw [hstep, h₁], h₂, ?_⟩
        rw [h₃, hblank]
        simp [Formatting.interpolate, addArgument, hcur, tokens]

/-- What a formatted command is on the wire. -/
theorem redisvFormatCommand_words {keyword : Bytes} (hk : Plain keyword) (ap : List FormatArg) :
    redisvFormatCommand (formatOf keyword ap) ap =
      .ok (encodeRequest (tokens (keyword :: ap.map FormatArg.text))) := by
  have hf : formatOf keyword ap = keyword ++ formatOf [] ap := rfl
  obtain ⟨st', h₁, h₂, h₃⟩ := @scanFormat_arguments ap ⟨keyword, false, [], 0⟩ rfl (Or.inr hk.1)
  rw [redisvFormatCommand, hf, scanFormat_word hk.2]
  simp only [List.nil_append, h₁, Outcome.ok_bind]
  rw [print_eq (congrArg (· + _) h₂), h₃]
  rfl

end PhpHiredis
