import PhpHiredis.Library.Incremental
import PhpHiredis.Library.Trees
import PhpHiredis.ObjectReader
import PhpHiredis.Partial

/-!
# Reading replies with a stack of open arrays

What the reply reader is for, whatever builds its objects: a pushdown machine over
the bytes of the replies. Its stack holds the arrays that are open, with the
elements that are complete. `drain_encode` says that the encoding of a reply is read
as its object, on top of any stack; where the bytes are cut does not matter, since
the machine is a consumer in the sense of `Incremental`.
-/
namespace PhpHiredis.Objects

open Library Library.Incremental Library.Trees Reader

/-- What an object says of itself, its elements apart. -/
inductive Content where
  | text (type : ReplyType) (str : Bytes)
  | integer (n : ℤ)
  | nil
  | array
  deriving DecidableEq

/-- An object, with `null` for the elements of an open array that were not read yet. -/
abbrev Obj := Rose Content

namespace Obj

def text (type : ReplyType) (str : Bytes) : Obj := .node (.text type str) []

def integer (n : ℤ) : Obj := .node (.integer n) []

def nil : Obj := .node .nil []

def array (elems : List Obj) : Obj := .node .array elems

end Obj

mutual

/-- The object of a reply. The two nils cannot be told apart. -/
def objectOf : Reply → Obj
  | .status text => Obj.text .status text
  | .error text => Obj.text .error text
  | .integer n => Obj.integer n
  | .bulk s => Obj.text .string s
  | .nil | .nilArray => Obj.nil
  | .array es => Obj.array (objectsOf es)

def objectsOf : List Reply → List Obj
  | [] => []
  | e :: es => objectOf e :: objectsOf es

end

theorem objectsOf_eq_map (es : List Reply) : objectsOf es = es.map objectOf := by
  induction es with
  | nil => rw [objectsOf, List.map_nil]
  | cons e es ih => rw [objectsOf, ih, List.map_cons]

theorem objectOf_array (es : List Reply) : objectOf (.array es) = Obj.array (es.map objectOf) := by
  rw [objectOf, objectsOf_eq_map]

/-- An open array: its complete elements, and how many follow the one at hand. -/
structure OpenArray where
  items : List Obj
  rest : ℕ

/-- `item` is in front of an item or, with a type, behind its first byte. No memory
is made for the array of an `overflow`. -/
inductive State where
  | item (stack : List OpenArray) (type : Option ReplyType)
  | done (o : Obj)
  | failed (err : Bytes)
  | overflow

/-- An object is complete, and with it the arrays whose last element it is. -/
def complete : List OpenArray → Obj → State
  | [], o => .done o
  | ⟨items, 0⟩ :: stack, o => complete stack (Obj.array (items ++ [o]))
  | ⟨items, n + 1⟩ :: stack, o => .item (⟨items ++ [o], n⟩ :: stack) none

/-- The count of an array was read. -/
def openArray (stack : List OpenArray) (n : ℤ) : State :=
  if n = -1 then complete stack Obj.nil
  else if n = 0 then complete stack (Obj.array [])
  else if 0 < n ∧ n < 2 ^ 31 then .item (⟨[], n.toNat - 1⟩ :: stack) none
  else .overflow

def typedStep (stack : List OpenArray) (t : ReplyType) (xs : Bytes) : Option (State × Bytes) :=
  match findCRLF xs with
  | none => none
  | some i =>
      match t with
      | .integer => some (complete stack (Obj.integer (readLongLong xs)), xs.drop (i + 2))
      | .error | .status => some (complete stack (Obj.text t (xs.take i)), xs.drop (i + 2))
      | .string =>
          let len := readLongLong xs
          let bytelen := i + 2 + (len.toNat + 2)
          if len < 0 then some (complete stack Obj.nil, xs.drop (i + 2))
          else if bytelen ≤ xs.length then
            some (complete stack (Obj.text .string ((xs.drop (i + 2)).take len.toNat)),
              xs.drop bytelen)
          else none
      | .array => some (openArray stack (readLongLong xs), xs.drop (i + 2))
      | .nil => none

def typeStep (stack : List OpenArray) (b : UInt8) : State :=
  match replyTypeOf b with
  | some t =>
      if t = .array ∧ stack.length = 2 then .failed depthError else .item stack (some t)
  | none => .failed (typeByteError b)

def step : Consumer State UInt8
  | .item stack none, b :: xs => some (typeStep stack b, xs)
  | .item stack (some t), xs => typedStep stack t xs
  | _, _ => none

theorem typedStep_takes {stack : List OpenArray} {t : ReplyType} {xs ys : Bytes} {st : State}
    (h : typedStep stack t xs = some (st, ys)) : ys <:+ xs ∧ ys.length < xs.length := by
  have hdrop : ∀ n, 0 < n → n ≤ xs.length → xs.drop n <:+ xs ∧ (xs.drop n).length < xs.length := by
    intro n hpos hle
    refine ⟨List.drop_suffix n xs, ?_⟩
    rw [List.length_drop]
    omega
  unfold typedStep at h
  split at h
  · cases h
  · rename_i i hi
    have hl := findCRLF_le hi
    cases t with
    | integer | error | status | array =>
        cases h
        exact hdrop _ (by omega) hl
    | nil => cases h
    | string =>
        simp only [] at h
        split_ifs at h with h₁ h₂
        · cases h
          exact hdrop _ (by omega) hl
        · cases h
          exact hdrop _ (by omega) h₂

theorem typedStep_extend {stack : List OpenArray} {t : ReplyType} {xs ys : Bytes} {st : State}
    (h : typedStep stack t xs = some (st, ys)) (zs : Bytes) :
    typedStep stack t (xs ++ zs) = some (st, ys ++ zs) := by
  unfold typedStep at h ⊢
  cases hi : findCRLF xs with
  | none =>
      rw [hi] at h
      cases h
  | some i =>
      have hl := findCRLF_le hi
      rw [hi] at h
      rw [findCRLF_append hi]
      cases t with
      | integer | error | status | array =>
          cases h
          simp only [readLongLong_append hi, List.drop_append_of_le_length hl,
            List.take_append_of_le_length (show i ≤ xs.length by omega)]
      | nil => cases h
      | string =>
          simp only [readLongLong_append hi, List.drop_append_of_le_length hl] at h ⊢
          split_ifs at h with h₁ h₂
          · cases h
            rw [if_pos h₁]
          · cases h
            have hd : (readLongLong xs).toNat ≤ (xs.drop (i + 2)).length := by
              rw [List.length_drop]
              omega
            rw [if_neg h₁, if_pos (by rw [List.length_append]; omega),
              List.take_append_of_le_length hd, List.drop_append_of_le_length h₂]

/-- What the machine does with some bytes does not depend on those after them. -/
theorem step_local : Local step where
  takes := by
    intro st xs st' ys h
    cases st with
    | item stack type =>
        cases type with
        | none =>
            cases xs with
            | nil => cases h
            | cons b xs =>
                cases h
                exact ⟨List.suffix_cons b _, Nat.lt_succ_self _⟩
        | some t => exact typedStep_takes h
    | done | failed | overflow => cases h
  extend := by
    intro st xs st' ys h zs
    cases st with
    | item stack type =>
        cases type with
        | none =>
            cases xs with
            | nil => cases h
            | cons b xs =>
                cases h
                rfl
        | some t => exact typedStep_extend h zs
    | done | failed | overflow => cases h

@[simp] theorem drain_done (o : Obj) (xs : Bytes) : drain step (.done o) xs = (.done o, xs) :=
  drain_stop rfl

@[simp] theorem drain_failed (err : Bytes) (xs : Bytes) :
    drain step (.failed err) xs = (.failed err, xs) :=
  drain_stop rfl

@[simp] theorem drain_overflow (xs : Bytes) : drain step .overflow xs = (.overflow, xs) :=
  drain_stop rfl

section
variable {stack : List OpenArray}

theorem drain_item {b : UInt8} {t : ReplyType} {xs ys : Bytes} {st : State}
    (hb : replyTypeOf b = some t) (hdepth : t = .array → stack.length ≠ 2)
    (h : typedStep stack t xs = some (st, ys)) :
    drain step (.item stack none) (b :: xs) = drain step st ys := by
  have htype : typeStep stack b = .item stack (some t) := by
    simp only [typeStep, hb]
    rw [if_neg fun hd => hdepth hd.1 hd.2]
  have hfirst : step (.item stack none) (b :: xs) = some (.item stack (some t), xs) := by
    rw [step, htype]
  rw [drain_step step_local hfirst, drain_step step_local (show step (.item stack (some t)) xs =
    some (st, ys) from h)]

theorem typedStep_text {t : ReplyType} (ht : t = .error ∨ t = .status) {text : Bytes}
    (hline : findCRLF text = none) (rest : Bytes) :
    typedStep stack t (text ++ CRLF ++ rest) = some (complete stack (Obj.text t text), rest) := by
  obtain ⟨hhead, htail⟩ := line_split text rest
  rcases ht with rfl | rfl <;> simp only [typedStep, findCRLF_line hline, hhead, htail]

theorem typedStep_integer {n : ℤ} (hl : -2 ^ 63 ≤ n) (hu : n < 2 ^ 63) (rest : Bytes) :
    typedStep stack .integer (decimalInt n ++ CRLF ++ rest) =
      some (complete stack (Obj.integer n), rest) := by
  have hline := findCRLF_line (findCRLF_eq_none (cr_notMem_decimalInt n)) rest
  simp only [typedStep, hline, readLongLong_decimalInt hl hu, (line_split _ rest).2]

theorem typedStep_nil (rest : Bytes) :
    typedStep stack .string (ascii "-1" ++ CRLF ++ rest) = some (complete stack Obj.nil, rest) := by
  have hminus : decimalInt (-1) = ascii "-1" := rfl
  have hread : readLongLong (ascii "-1" ++ CRLF ++ rest) = -1 := by
    rw [← hminus, readLongLong_decimalInt (by decide) (by decide)]
  have hline := @findCRLF_line (ascii "-1") (by decide) rest
  have hneg : (-1 : ℤ) < 0 := by decide
  simp only [typedStep, hline, hread, if_pos hneg]
  exact congrArg (fun ys => some (complete stack Obj.nil, ys)) (line_split (ascii "-1") rest).2

theorem typedStep_bulk {str : Bytes} (hl : str.length < 2 ^ 63) (rest : Bytes) :
    typedStep stack .string (decimal str.length ++ CRLF ++ str ++ CRLF ++ rest) =
      some (complete stack (Obj.text .string str), rest) := by
  have hxs : decimal str.length ++ CRLF ++ str ++ CRLF ++ rest =
      decimal str.length ++ CRLF ++ (str ++ CRLF ++ rest) := by simp only [List.append_assoc]
  have hline := findCRLF_line (findCRLF_eq_none (cr_notMem_decimal str.length))
    (str ++ CRLF ++ rest)
  have hread := readLongLong_decimal hl (str ++ CRLF ++ rest)
  have htail := (line_split (decimal str.length) (str ++ CRLF ++ rest)).2
  have hle : (decimal str.length).length + 2 + (str.length + 2) ≤
      (decimal str.length ++ CRLF ++ (str ++ CRLF ++ rest)).length := by
    simp only [List.length_append, CRLF, List.length_cons, List.length_nil]
    omega
  rw [hxs]
  simp only [typedStep, hline, hread, Int.toNat_natCast, hle, if_true, htail]
  rw [if_neg (by omega), ← List.drop_drop, htail, (line_split str rest).1, (line_split str rest).2]

theorem typedStep_array {n : ℤ} (hl : -2 ^ 63 ≤ n) (hu : n < 2 ^ 63) (rest : Bytes) :
    typedStep stack .array (decimalInt n ++ CRLF ++ rest) = some (openArray stack n, rest) := by
  have hline := findCRLF_line (findCRLF_eq_none (cr_notMem_decimalInt n)) rest
  simp only [typedStep, hline, readLongLong_decimalInt hl hu, (line_split _ rest).2]

theorem drain_scalar {e : Reply} (he : e.Sound 0) (rest : Bytes) :
    drain step (.item stack none) (e.encode ++ rest) =
      drain step (complete stack (objectOf e)) rest := by
  cases e with
  | status text =>
      exact drain_item (t := .status) rfl nofun (typedStep_text (.inr rfl) he rest)
  | error text =>
      exact drain_item (t := .error) rfl nofun (typedStep_text (.inl rfl) he rest)
  | integer n =>
      exact drain_item (t := .integer) rfl nofun (typedStep_integer he.1 he.2 rest)
  | bulk s =>
      exact drain_item (t := .string) rfl nofun (typedStep_bulk he rest)
  | nil =>
      exact drain_item (t := .string) rfl nofun (typedStep_nil rest)
  | nilArray => exact he.elim
  | array es => exact he.elim

theorem drain_items {es : List Reply} (hne : es ≠ [])
    (hreads : ∀ e ∈ es, ∀ (stack' : List OpenArray) (rest : Bytes),
      stack'.length = stack.length + 1 →
      drain step (.item stack' none) (e.encode ++ rest) =
        drain step (complete stack' (objectOf e)) rest) (items : List Obj) (rest : Bytes) :
    drain step (.item (⟨items, es.length - 1⟩ :: stack) none) (Reply.encodeAll es ++ rest) =
      drain step (complete stack (Obj.array (items ++ es.map objectOf))) rest := by
  induction es generalizing items with
  | nil => exact absurd rfl hne
  | cons e es ih =>
      rw [Reply.encodeAll_cons, List.append_assoc, hreads e (by simp) _ _ rfl]
      cases es with
      | nil => rfl
      | cons e' es =>
          have hrest := ih (List.cons_ne_nil _ _) (fun e he => hreads e (by simp [he]))
            (items ++ [objectOf e])
          rw [List.append_assoc, List.singleton_append, ← List.map_cons] at hrest
          exact hrest

/-- The encoding of a reply is read as its object, by induction on its depth. -/
theorem drain_encode {d : ℕ} {e : Reply} (he : e.Sound d) (hd : stack.length + d = 2)
    (rest : Bytes) :
    drain step (.item stack none) (e.encode ++ rest) =
      drain step (complete stack (objectOf e)) rest := by
  induction d generalizing stack e rest with
  | zero => exact drain_scalar he rest
  | succ d ih =>
      have hroom : stack.length ≠ 2 := by omega
      cases e with
      | nilArray =>
          have hcount := @typedStep_array stack (-1) (by decide) (by decide) rest
          exact drain_item (t := .array) rfl (fun _ => hroom) hcount
      | array es =>
          have hcount := @typedStep_array stack es.length (by omega)
            (by have := he.1; omega) (Reply.encodeAll es ++ rest)
          rw [show decimalInt (es.length : ℤ) = decimal es.length by simp [decimalInt]] at hcount
          have hxs : (Reply.array es).encode ++ rest =
              42 :: (decimal es.length ++ CRLF ++ (Reply.encodeAll es ++ rest)) := by
            simp [Reply.encode_array, Reply.header]
          rw [hxs, drain_item (t := .array) rfl (fun _ => hroom) hcount, objectOf_array]
          by_cases hes : es = []
          · subst hes
            simp [openArray]
          · have hpos := List.length_pos_of_ne_nil hes
            have hopen : openArray stack es.length = .item (⟨[], es.length - 1⟩ :: stack) none := by
              rw [openArray, if_neg (by omega), if_neg (by omega),
                if_pos ⟨by omega, by exact_mod_cast he.1⟩, Int.toNat_natCast]
            rw [hopen]
            exact drain_items hes (fun e hm stack' rest' hlen => ih (he.2 e hm) (by omega) rest') []
              rest
      | status | error | integer | bulk | nil =>
          refine drain_scalar ?_ rest
          exact he

end

end PhpHiredis.Objects
