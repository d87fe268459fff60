import PhpHiredis.Methods

/-!
# Commands and the requests they make

The methods that send one command, as one type. `Command.run_eq` is the
specification of all of them: a command appends one request to the output
buffer, or returns `FALSE` and does nothing, and goes on as `REDIS_RUN` does.
The words of that request are the arguments of the call when no argument but
the last is empty, and only then.
-/
namespace PhpHiredis

open Library Reader

variable {σ : Type}

inductive Command where
  | set (key val : Bytes)
  | get (key : Bytes)
  | incr (key : Bytes) (delta : Option ℤ)
  | decr (key : Bytes) (delta : Option ℤ)
  | incrby (key : Bytes) (delta : ℤ)
  | decrby (key : Bytes) (delta : ℤ)
  | hset (key field val : Bytes)
  | hgetall (key : Bytes)
  | lrange (key : Bytes) (start stop : ℤ)
  | setnx (key val : Bytes)
  | getset (key val : Bytes)
  | ping
  | randomKey
  | exists_ (key : Bytes)
  | hmget (params : List Zval)
  | delete (params : List Zval)
  | getmultiple (params : List Zval)

namespace Command

def run (peer : Peer σ) (s : RedisSock σ) : Command → Run (Returned × RedisSock σ)
  | set key val => PhpHiredis.set peer s key val
  | get key => PhpHiredis.get peer s key
  | incr key delta => PhpHiredis.incr peer s key delta
  | decr key delta => PhpHiredis.decr peer s key delta
  | incrby key delta => PhpHiredis.incrby peer s key delta
  | decrby key delta => PhpHiredis.decrby peer s key delta
  | hset key field val => PhpHiredis.hset peer s key field val
  | hgetall key => PhpHiredis.hgetall peer s key
  | lrange key start stop => PhpHiredis.lrange peer s key start stop
  | setnx key val => PhpHiredis.setnx peer s key val
  | getset key val => PhpHiredis.getset peer s key val
  | ping => PhpHiredis.ping peer s
  | randomKey => PhpHiredis.randomKey peer s
  | exists_ key => PhpHiredis.exists_ peer s key
  | hmget params => PhpHiredis.hmget peer s params
  | delete params => PhpHiredis.delete peer s params
  | getmultiple params => PhpHiredis.getmultiple peer s params

def validator : Command → Validator
  | set .. => .status
  | get .. | getset .. | ping | randomKey => .string
  | incr .. | decr .. | incrby .. | decrby .. | hset .. | delete .. => .long
  | hgetall .. => .zip
  | lrange .. | getmultiple .. => .array
  | setnx .. | exists_ .. => .longAsBool
  | hmget .. => .zipClosure

theorem validator_ne_skip (c : Command) : c.validator ≠ .skip := by
  cases c <;> exact fun h => nomatch h

def incrKeyword (keyword : Bytes) (delta : ℤ) : Bytes :=
  if delta = 1 then keyword else keyword ++ ascii "BY"

def keyword : Command → Bytes
  | set .. => ascii "SET"
  | get .. => ascii "GET"
  | incr _ delta => incrKeyword (ascii "INCR") (delta.getD 1)
  | decr _ delta => incrKeyword (ascii "DECR") (delta.getD 1)
  | incrby _ delta => incrKeyword (ascii "INCR") delta
  | decrby _ delta => incrKeyword (ascii "DECR") delta
  | hset .. => ascii "HSET"
  | hgetall .. => ascii "HGETALL"
  | lrange .. => ascii "LRANGE"
  | setnx .. => ascii "SETNX"
  | getset .. => ascii "GETSET"
  | ping => ascii "PING"
  | randomKey => ascii "RANDOMKEY"
  | exists_ .. => ascii "EXISTS"
  | hmget .. => ascii "HMGET"
  | delete .. => ascii "DEL"
  | getmultiple .. => ascii "MGET"

/-- An increment by 1 has no second argument. Numbers are passed as `int`. -/
def incrArgs (key : Bytes) (delta : ℤ) : List FormatArg :=
  if delta = 1 then [.bin key] else [.bin key, .int (wrap 32 delta)]

def formatArgs : Command → List FormatArg
  | set key val | setnx key val | getset key val => [.bin key, .bin val]
  | get key | hgetall key | exists_ key => [.bin key]
  | incr key delta | decr key delta => incrArgs key (delta.getD 1)
  | incrby key delta | decrby key delta => incrArgs key delta
  | hset key field val => [.bin key, .bin field, .bin val]
  | lrange key start stop => [.bin key, .int (wrap 32 start), .int (wrap 32 stop)]
  | ping | randomKey | hmget .. | delete .. | getmultiple .. => []

end Command

/-- The elements at the indices `i`, `i + 1`, .., `n` of them. -/
def elementsFrom (es : HashTable) : ℕ → ℕ → Option (List Zval)
  | 0, _ => some []
  | n + 1, i => do
      let z ← indexFind es i
      let zs ← elementsFrom es n (i + 1)
      return z :: zs

/-- The arguments a call stands for: the parameters, or the elements of an array
and what comes before it; `none` when an index of the array is missing. -/
def vargArguments : List Zval → Option (List Bytes)
  | [z_key, .array es] => do
      let zs ← elementsFrom es es.length 0
      return z_key.convertToString :: zs.map Zval.convertToString
  | [.array es] => (elementsFrom es es.length 0).map fun zs => zs.map Zval.convertToString
  | params => some (params.map Zval.convertToString)

/-- The arguments that are kept, as strings; an empty array alone is not converted. -/
def keptArgs : List Zval → Option (List Zval)
  | [.array []] => some [.array []]
  | params => (vargArguments params).map fun strs => strs.map .string

def VargForm : List Zval → Prop
  | [.array _] => False
  | _ => True

def VargRoom : List Zval → Prop
  | [.array es] => es.length ≤ 1 ∨ elementsFrom es 2 0 = none
  | _ => True

theorem VargForm.room {params : List Zval} (h : VargForm params) : VargRoom params := by
  unfold VargRoom
  split
  · exact h.elim
  · trivial

theorem vargForm_cons {z : Zval} {zs : List Zval} (hne : zs ≠ []) : VargForm (z :: zs) := by
  unfold VargForm
  split
  · rename_i es heq
    exact hne (List.cons.inj heq).2
  · trivial

theorem elementsFrom_length {es : HashTable} {n i : ℕ} {zs : List Zval}
    (h : elementsFrom es n i = some zs) : zs.length = n := by
  induction n generalizing i zs with
  | zero =>
      cases h
      rfl
  | succ n ih =>
      simp only [elementsFrom, Option.bind_eq_bind, Option.bind_eq_some_iff, Option.pure_def,
        Option.some.injEq] at h
      obtain ⟨z, -, zs', hzs, rfl⟩ := h
      rw [List.length_cons, ih hzs]

theorem Slots.write_next {α : Type} (pre : List α) (n : ℕ) (a : α) :
    Slots.write (pre.map some ++ List.replicate (n + 1) none) pre.length a =
      .ok ((pre ++ [a]).map some ++ List.replicate n none) := by
  have hlt : pre.length < (pre.map some ++ List.replicate (n + 1) (none : Option α)).length := by
    simp
  rw [Slots.write, if_pos hlt, List.replicate_succ]
  simp

theorem copyElements_eq (es : HashTable) (n i : ℕ) {copyTo : ℕ} {pre : List Zval}
    (hpre : pre.length = i + copyTo) :
    copyElements es copyTo n i (pre.map some ++ List.replicate n none) =
      .ok ((elementsFrom es n i).map fun zs => (pre ++ zs).map some) := by
  induction n generalizing i pre with
  | zero => simp [copyElements, elementsFrom]
  | succ n ih =>
      rw [copyElements, elementsFrom]
      cases hz : indexFind es i with
      | none => rfl
      | some z =>
          simp only [← hpre, Slots.write_next, Outcome.ok_bind]
          rw [ih (i + 1) (by rw [List.length_append, hpre, List.length_singleton]; omega)]
          cases elementsFrom es n (i + 1) <;> simp

theorem Slots.read_at {α : Type} (pre : List (Option α)) (a : α) (post : List (Option α)) :
    Slots.read (pre ++ some a :: post) pre.length = .ok a := by
  simp [Slots.read]

theorem Slots.write_at {α : Type} (pre : List (Option α)) (x : Option α) (a : α)
    (post : List (Option α)) :
    Slots.write (pre ++ x :: post) pre.length a = .ok (pre ++ some a :: post) := by
  simp [Slots.write]

/-- The conversion loop, by induction on the arguments that are left. -/
theorem convertArgs_eq (zs : List Zval) (done : List Bytes) :
    convertArgs zs.length done.length (done.map (some ∘ .string) ++ zs.map some)
        (none :: done.map some ++ List.replicate zs.length none)
        (none :: done.map (some ∘ List.length) ++ List.replicate zs.length none) =
      .ok ((done ++ zs.map Zval.convertToString).map (some ∘ .string),
        none :: (done ++ zs.map Zval.convertToString).map some,
        none :: (done ++ zs.map Zval.convertToString).map (some ∘ List.length)) := by
  induction zs generalizing done with
  | nil => simp [convertArgs]
  | cons z zs ih =>
      have hread := Slots.read_at (done.map (some ∘ .string)) z (zs.map some)
      have hz := Slots.write_at (done.map (some ∘ .string)) (some z) (.string z.convertToString)
        (zs.map some)
      have harg := Slots.write_at (none :: done.map some) none z.convertToString
        (List.replicate zs.length none)
      have hlen := Slots.write_at (none :: done.map (some ∘ List.length)) none
        z.convertToString.length (List.replicate zs.length none)
      simp only [List.length_cons, List.length_map, List.cons_append] at hread hz harg hlen
      have hih := ih (done ++ [z.convertToString])
      simp only [List.map_append, List.map_cons, List.map_nil, List.append_assoc,
        List.length_append, List.length_singleton, Function.comp_apply, List.cons_append] at hih
      simp only [List.length_cons, convertArgs, List.map_cons, List.replicate_succ, hread, hz, harg,
        hlen, Outcome.ok_bind, List.cons_append]
      simpa using hih

theorem readArgv_eq (argv pre : List Bytes) :
    readArgv ((pre ++ argv).map some) ((pre ++ argv).map (some ∘ List.length)) argv.length
      pre.length = .ok argv := by
  induction argv generalizing pre with
  | nil => rfl
  | cons arg argv ih =>
      have hread := Slots.read_at (pre.map some) arg (argv.map some)
      have hlen := Slots.read_at (pre.map (some ∘ List.length)) arg.length
        (argv.map (some ∘ List.length))
      have hih := ih (pre ++ [arg])
      simp only [List.length_map] at hread hlen
      simp only [List.append_assoc, List.singleton_append, List.length_append,
        List.length_singleton] at hih
      simp only [List.length_cons, readArgv, List.map_append, List.map_cons, Function.comp_apply,
        hread, hlen, Outcome.ok_bind, List.take_length, Outcome.pure_eq]
      simp only [List.map_append, List.map_cons, Function.comp_apply] at hih
      rw [hih]
      rfl

variable {peer : Peer σ}

/-- What every method does once its request is known: append it, and go on as
`REDIS_RUN` does. -/
def runRequest (peer : Peer σ) (s : RedisSock σ) (words : Request) (fn : Validator)
    (closureArgs : Option (List Zval)) : Run (Returned × RedisSock σ) :=
  let s := redisSockGet s
  redisRunEnd peer { s with ctx := redisAppend s.ctx (encodeRequest words) } fn closureArgs

theorem redisRunArgs_eq (s : RedisSock σ) (fn : Validator) (argv : List Bytes)
    (closureArgs : Option (List Zval)) :
    redisRunArgs peer (redisSockGet s) fn argv closureArgs =
      runRequest peer s argv fn closureArgs := by
  rw [redisRunArgs, redisAppendCommandArgv, redisFormatCommandArgv_eq]
  rfl

theorem redisRun_eq (s : RedisSock σ) (fn : Validator) (keyword : Bytes) (hk : Plain keyword)
    (ap : List FormatArg) :
    redisRun peer (redisSockGet s) fn (formatOf keyword ap) ap =
      runRequest peer s (tokens (keyword :: ap.map FormatArg.text)) fn none := by
  rw [redisRun, redisAppendCommand, redisvFormatCommand_words hk]
  rfl

/-- The part of `vargArgv` that follows the copying of the arguments. -/
def convertedArgv (keyword : Bytes) (keepArgs : Bool) (argc : ℕ) (z_args : Slots Zval) :
    Run (Option (List Bytes × Option (List Zval))) := do
  let (z_args, args, arglen) ← convertArgs argc 0 z_args (List.replicate (argc + 1) none)
    (List.replicate (argc + 1) none)
  let args ← args.write 0 keyword
  let arglen ← arglen.write 0 keyword.length
  let argv ← readArgv args arglen (argc + 1) 0
  return some (argv, if keepArgs then some (z_args.map fun z => z.getD .null) else none)

section
variable (keyword : Bytes) (keep : Bool)

theorem vargArgv_eq {params : List Zval} {z_args : Slots Zval} {argc : ℕ}
    {copy : Option (HashTable × ℕ)} (h : layoutArgs params = .ok (z_args, argc, copy)) :
    vargArgv keyword keep params =
      (match copy with
        | none => .ok (some z_args)
        | some (es, copyTo) => copyElements es copyTo es.length 0 z_args) >>= fun copied =>
      match copied with
      | none => .ok none
      | some z_args => convertedArgv keyword keep argc z_args := by
  rw [vargArgv, h]
  cases copy <;> rfl

theorem convertedArgv_eq (zs : List Zval) :
    convertedArgv keyword keep zs.length (zs.map some) =
      .ok (some (keyword :: zs.map Zval.convertToString,
        if keep then some ((zs.map Zval.convertToString).map .string) else none)) := by
  have hconv := convertArgs_eq zs []
  have hread := readArgv_eq (keyword :: zs.map Zval.convertToString) []
  simp only [List.map_nil, List.nil_append, List.length_nil, List.singleton_append,
    List.length_cons, List.length_map, List.map_cons, Function.comp_apply] at hconv hread
  simp only [convertedArgv, List.replicate_succ, hconv, Outcome.ok_bind, Slots.write,
    List.length_cons, Nat.zero_lt_succ, if_true, List.set_cons_zero, hread, Outcome.pure_eq]
  cases keep <;> simp

theorem layoutArgs_cases {params : List Zval} (h : VargForm params) :
    (∃ z_key es, params = [z_key, .array es]) ∨
      (layoutArgs params = .ok (params.map some, params.length, none) ∧
        vargArguments params = some (params.map Zval.convertToString)) := by
  unfold layoutArgs
  split
  · exact Or.inl ⟨_, _, rfl⟩
  · exact h.elim
  · rename_i hkey hone
    exact Or.inr ⟨rfl, vargArguments.eq_3 _ hkey hone⟩

theorem keptArgs_of_form {params : List Zval} (h : VargForm params) {strs : List Bytes}
    (hs : vargArguments params = some strs) : keptArgs params = some (strs.map .string) := by
  unfold keptArgs
  split
  · exact h.elim
  · rw [hs]
    rfl

/-- The two layouts that have room for every argument lead to the same three
vectors. -/
theorem vargArgv_of_form {params : List Zval} (hform : VargForm params) :
    vargArgv keyword keep params = .ok ((vargArguments params).map fun strs =>
      (keyword :: strs, if keep then some (strs.map .string) else none)) := by
  rcases layoutArgs_cases hform with ⟨z_key, es, rfl⟩ | ⟨hlayout, hargs⟩
  · have hlayout : layoutArgs [z_key, .array es] =
        .ok (([z_key].map some ++ List.replicate es.length none), 1 + es.length, some (es, 1)) := by
      rw [layoutArgs, Nat.add_comm, List.replicate_succ]
      rfl
    rw [vargArgv_eq keyword keep hlayout]
    simp only [Outcome.ok_bind,
      copyElements_eq es es.length 0 (show [z_key].length = 0 + 1 from rfl), vargArguments]
    cases hes : elementsFrom es es.length 0 with
    | none => rfl
    | some zs =>
        have hlen : 1 + es.length = (z_key :: zs).length := by
          rw [List.length_cons, elementsFrom_length hes, Nat.add_comm]
        simp only [Option.map_some, List.singleton_append, hlen]
        exact convertedArgv_eq keyword keep (z_key :: zs)
  · rw [vargArgv_eq keyword keep hlayout, hargs]
    exact convertedArgv_eq keyword keep params

/-- An array of two and more elements alone does not fit in one slot. -/
theorem copyElements_one {es : HashTable} {n : ℕ} (z : Zval) :
    copyElements es 0 (n + 2) 0 [some z] =
      if elementsFrom es 2 0 = none then .ok none else .fault .outOfBounds := by
  rw [copyElements]
  cases h₀ : indexFind es 0 with
  | none => simp [elementsFrom, h₀]
  | some z₀ =>
      have hwrite : Slots.write [some z] (0 + 0) z₀ = .ok [some z₀] := rfl
      have hover : ∀ z₁, Slots.write [some z₀] (0 + 1 + 0) z₁ = .fault .outOfBounds := fun _ => rfl
      simp only [hwrite, Outcome.ok_bind, copyElements]
      cases h₁ : indexFind es (0 + 1) with
      | none => simp [elementsFrom, h₀, h₁]
      | some z₁ => simp [elementsFrom, h₀, h₁, hover]

theorem elementsFrom_of_two {es : HashTable} (h : elementsFrom es 2 0 = none) (n : ℕ) :
    elementsFrom es (n + 2) 0 = none := by
  simp only [elementsFrom, Option.bind_eq_bind] at h ⊢
  cases h₀ : indexFind es 0 with
  | none => rfl
  | some z₀ =>
      cases h₁ : indexFind es (0 + 1) with
      | none => rfl
      | some z₁ => simp [h₀, h₁] at h

/-- An array alone: the vector keeps its one slot. -/
theorem vargArgv_array (es : HashTable) :
    vargArgv keyword keep [.array es] =
      if es.length ≤ 1 ∨ elementsFrom es 2 0 = none then
        .ok ((vargArguments [.array es]).map fun strs =>
          (keyword :: strs, if keep then keptArgs [.array es] else none))
      else .fault .outOfBounds := by
  rw [vargArgv_eq keyword keep (show layoutArgs [.array es] = _ from rfl)]
  match es with
  | [] =>
      have hread : convertedArgv keyword keep 0 [some (.array [])] =
          .ok (some ([keyword.take keyword.length], if keep then some [.array []] else none)) := rfl
      rw [List.take_length] at hread
      exact hread
  | [e] =>
      simp only [List.length_singleton, le_refl, true_or, if_true, vargArguments, keptArgs,
        copyElements, elementsFrom]
      cases indexFind [e] 0 with
      | none => rfl
      | some z => exact convertedArgv_eq keyword keep [z]
  | e :: e' :: es =>
      simp only [List.length_cons, vargArguments, copyElements_one,
        show ¬es.length + 1 + 1 ≤ 1 by omega, false_or]
      by_cases h2 : elementsFrom (e :: e' :: es) 2 0 = none
      · simp only [h2, if_true, elementsFrom_of_two h2]
        rfl
      · simp only [h2, if_false]
        rfl

/-- The request and the kept arguments, where the vector has room. -/
theorem vargArgv_spec {params : List Zval} (h : VargRoom params) :
    vargArgv keyword keep params = .ok ((vargArguments params).map fun strs =>
      (keyword :: strs, if keep then keptArgs params else none)) := by
  by_cases hform : VargForm params
  · rw [vargArgv_of_form keyword keep hform]
    cases hs : vargArguments params with
    | none => rfl
    | some strs => rw [keptArgs_of_form hform hs, Option.map_some, Option.map_some]
  · unfold VargForm at hform
    split at hform
    · rw [vargArgv_array, if_pos (by exact h)]
    · exact absurd trivial hform

/-- Without room the vector is written beyond its end. -/
theorem vargArgv_overflow {params : List Zval} (h : ¬VargRoom params) :
    vargArgv keyword keep params = .fault .outOfBounds := by
  unfold VargRoom at h
  split at h
  · rw [vargArgv_array, if_neg (by exact h)]
  · exact absurd trivial h

/-- The specification of `redis_varg_run`, where the vector has room. -/
theorem redisVargRun_spec (s : RedisSock σ) (fn : Validator) {params : List Zval}
    (h : VargRoom params) :
    redisVargRun peer s keyword fn keep params =
      match vargArguments params with
      | none => .ok (.value .false, s)
      | some strs =>
          runRequest peer s (keyword :: strs) fn (if keep then keptArgs params else none) := by
  rw [redisVargRun, vargArgv_spec keyword keep h]
  cases vargArguments params with
  | none => rfl
  | some strs => exact redisRunArgs_eq s fn (keyword :: strs) _

theorem redisVargRun_overflow (s : RedisSock σ) (fn : Validator) {params : List Zval}
    (h : ¬VargRoom params) :
    redisVargRun peer s keyword fn keep params = .fault .outOfBounds := by
  rw [redisVargRun, vargArgv_overflow keyword keep h]
  rfl

end

namespace Command

/-- The vector of arguments, for the methods that use one, has room. -/
def Fits : Command → Prop
  | hmget params | delete params | getmultiple params => VargRoom params
  | _ => True

def sent : Command → Option Request
  | hmget params => (vargArguments params).map (ascii "HMGET" :: ·)
  | delete params => (vargArguments params).map (ascii "DEL" :: ·)
  | getmultiple params => (vargArguments params).map (ascii "MGET" :: ·)
  | c => some (tokens (c.keyword :: c.formatArgs.map FormatArg.text))

def closureArgs : Command → Option (List Zval)
  | hmget params => keptArgs params
  | _ => none

def spec (peer : Peer σ) (s : RedisSock σ) (c : Command) : Run (Returned × RedisSock σ) :=
  match c.sent with
  | none => .ok (.value .false, s)
  | some words => runRequest peer s words c.validator c.closureArgs

theorem plain_append_by {keyword : Bytes} (h : Plain keyword) : Plain (keyword ++ ascii "BY") := by
  have hby : Plain (ascii "BY") := by decide
  refine ⟨by simp [h.1], fun c hc => ?_⟩
  rcases List.mem_append.mp hc with hc | hc
  · exact h.2 c hc
  · exact hby.2 c hc

theorem commonIncr_eq (s : RedisSock σ) (keyword key : Bytes) (delta : ℤ) (hk : Plain keyword)
    (hl : keyword.length = 4) :
    commonIncr peer s keyword key delta =
      runRequest peer s (tokens
        (incrKeyword keyword delta :: (incrArgs key delta).map FormatArg.text))
        .long none := by
  have htake : keyword.take 4 = keyword := by rw [← hl, List.take_length]
  unfold commonIncr incrKeyword incrArgs
  rw [htake]
  split_ifs
  · exact redisRun_eq s .long keyword hk [.bin key]
  · have hpattern : keyword ++ ascii "BY %b %d" =
        formatOf (keyword ++ ascii "BY") [.bin key, .int (wrap 32 delta)] := by
      rw [formatOf, List.append_assoc]
      rfl
    rw [hpattern]
    exact redisRun_eq s .long _ (plain_append_by hk) _

theorem varg_eq (s : RedisSock σ) (keyword : Bytes) (fn : Validator) {params : List Zval}
    (h : VargRoom params) :
    redisVargRun peer s keyword fn false params =
      match (vargArguments params).map (keyword :: ·) with
      | none => .ok (.value .false, s)
      | some words => runRequest peer s words fn none := by
  rw [redisVargRun_spec keyword false s fn h]
  cases vargArguments params <;> rfl

theorem run_eq (peer : Peer σ) (s : RedisSock σ) {c : Command} (h : c.Fits) :
    c.run peer s = c.spec peer s := by
  cases c with
  | set key val => exact redisRun_eq s .status (ascii "SET") (by decide) [.bin key, .bin val]
  | get key => exact redisRun_eq s .string (ascii "GET") (by decide) [.bin key]
  | incr key delta => exact commonIncr_eq s (ascii "INCR") key (delta.getD 1) (by decide) rfl
  | decr key delta => exact commonIncr_eq s (ascii "DECR") key (delta.getD 1) (by decide) rfl
  | incrby key delta => exact commonIncr_eq s (ascii "INCR") key delta (by decide) rfl
  | decrby key delta => exact commonIncr_eq s (ascii "DECR") key delta (by decide) rfl
  | hset key field val =>
      exact redisRun_eq s .long (ascii "HSET") (by decide) [.bin key, .bin field, .bin val]
  | hgetall key => exact redisRun_eq s .zip (ascii "HGETALL") (by decide) [.bin key]
  | lrange key start stop =>
      exact redisRun_eq s .array (ascii "LRANGE") (by decide)
        [.bin key, .int (wrap 32 start), .int (wrap 32 stop)]
  | setnx key val =>
      exact redisRun_eq s .longAsBool (ascii "SETNX") (by decide) [.bin key, .bin val]
  | getset key val => exact redisRun_eq s .string (ascii "GETSET") (by decide) [.bin key, .bin val]
  | ping => exact redisRun_eq s .string (ascii "PING") (by decide) []
  | randomKey => exact redisRun_eq s .string (ascii "RANDOMKEY") (by decide) []
  | exists_ key => exact redisRun_eq s .longAsBool (ascii "EXISTS") (by decide) [.bin key]
  | hmget params =>
      refine (redisVargRun_spec (ascii "HMGET") true s .zipClosure h).trans ?_
      simp only [spec, sent, closureArgs, validator]
      cases vargArguments params <;> rfl
  | delete params => exact varg_eq s (ascii "DEL") .long h
  | getmultiple params => exact varg_eq s (ascii "MGET") .array h

theorem fits_of_returns {peer : Peer σ} {s : RedisSock σ} {c : Command}
    (h : (c.run peer s).Returns) : c.Fits := by
  by_contra hfits
  cases c with
  | hmget params =>
      rw [run, hmget.eq_1, redisVargRun_overflow _ _ s _ hfits] at h
      exact Outcome.not_returns_fault _ h
  | delete params =>
      rw [run, delete.eq_1, redisVargRun_overflow _ _ s _ hfits] at h
      exact Outcome.not_returns_fault _ h
  | getmultiple params =>
      rw [run, getmultiple.eq_1, redisVargRun_overflow _ _ s _ hfits] at h
      exact Outcome.not_returns_fault _ h
  | _ => exact hfits trivial

def Formatted : Command → Prop
  | hmget _ | delete _ | getmultiple _ => False
  | _ => True

def arguments (c : Command) : List Bytes := c.formatArgs.map FormatArg.text

def words (c : Command) : Request := c.keyword :: c.arguments

theorem Formatted.spec_eq {c : Command} (h : c.Formatted) (peer : Peer σ) (s : RedisSock σ) :
    c.run peer s = runRequest peer s (tokens c.words) c.validator none := by
  have hfits : c.Fits := by cases c <;> first | exact h.elim | trivial
  rw [run_eq peer s hfits]
  cases c <;> first | exact h.elim | rfl

/-- In every state, the method appends bytes to the output buffer that are one
request with exactly the words `ws`, and goes on as `REDIS_RUN` does. -/
def Sends (c : Command) (ws : Request) : Prop :=
  ∀ {σ : Type} (peer : Peer σ) (s : RedisSock σ), ∃ bytes,
    c.run peer s = redisRunEnd peer
      { redisSockGet s with ctx := redisAppend (redisSockGet s).ctx bytes } c.validator none ∧
    decodeRequest bytes = some (ws, [])

def pipelined : RedisSock Unit :=
  { RedisSock.connected (redisConnect 0 ⟨(), [], []⟩) with pipeline := 1 }

/-- A pattern yields one request, with the words that its tokens are. -/
theorem sends_iff {c : Command} (hc : c.Formatted) (ws : Request) :
    c.Sends ws ↔ tokens c.words = ws := by
  constructor
  · intro h
    obtain ⟨bytes, hrun, hdec⟩ := h silent pipelined
    have hq : ∀ ctx, ¬(({ redisSockGet pipelined with ctx := ctx } : RedisSock Unit).pipeline = 0 ∧
        ({ redisSockGet pipelined with ctx := ctx } : RedisSock Unit).multi = 0) :=
      fun _ hh => Nat.one_ne_zero hh.1
    rw [hc.spec_eq, runRequest, redisRunEnd_queued silent (hq _),
      redisRunEnd_queued silent (hq _)] at hrun
    have hobuf := congrArg (fun r => r.2.ctx.obuf) (Outcome.ok.inj hrun)
    simp only [redisEnqueue_ctx, redisAppend] at hobuf
    rw [← List.append_cancel_left hobuf, ← List.append_nil (encodeRequest _),
      decodeRequest_encode] at hdec
    exact congrArg Prod.fst (Option.some.inj hdec)
  · intro h σ peer s
    refine ⟨encodeRequest ws, ?_, ?_⟩
    · rw [hc.spec_eq, h]
      rfl
    · rw [← List.append_nil (encodeRequest _), decodeRequest_encode]

theorem keyword_ne_nil (c : Command) : c.keyword ≠ [] := by
  cases c <;> (simp only [keyword, incrKeyword]; try split_ifs) <;> decide

/-- Only empty words before the last get lost. -/
theorem tokens_words {c : Command} :
    tokens c.words = c.words ↔ ∀ a ∈ c.arguments.dropLast, a ≠ [] := by
  rw [tokens_eq_self]
  unfold words
  cases c.arguments with
  | nil => simp
  | cons a as => simp [List.dropLast_cons_cons, c.keyword_ne_nil]

end Command

end PhpHiredis
