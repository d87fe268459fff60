import PhpHiredis.Zval

/-!
# Replies of the server

The replies of the Redis protocol as trees, their encoding, and the PHP value
each of them stands for. This is what the reply reader is for, stated without
buffers, tasks or hooks.
-/
namespace PhpHiredis

open Library

/-- `nil` is the bulk reply of length -1, `nilArray` the multi-bulk reply of
count -1. -/
inductive Reply where
  | status (text : Bytes)
  | error (text : Bytes)
  | integer (n : ℤ)
  | bulk (s : Bytes)
  | nil
  | nilArray
  | array (elems : List Reply)

namespace Reply

def typeByte : Reply → UInt8
  | status _ => 43
  | error _ => 45
  | integer _ => 58
  | bulk _ | nil => 36
  | nilArray | array _ => 42

mutual

def payload : Reply → Bytes
  | status text | error text => text ++ CRLF
  | integer n => decimalInt n ++ CRLF
  | bulk s => decimal s.length ++ CRLF ++ s ++ CRLF
  | nil | nilArray => ascii "-1" ++ CRLF
  | array es => decimal es.length ++ CRLF ++ encodeAll es

def encodeAll : List Reply → Bytes
  | [] => []
  | e :: es => (typeByte e :: payload e) ++ encodeAll es

end

def encode (e : Reply) : Bytes := typeByte e :: payload e

@[simp] theorem encodeAll_nil : encodeAll [] = [] := by rw [encodeAll]

@[simp] theorem encodeAll_cons (e : Reply) (es : List Reply) :
    encodeAll (e :: es) = e.encode ++ encodeAll es := by rw [encodeAll, encode]

theorem encodeAll_append (es fs : List Reply) :
    encodeAll (es ++ fs) = encodeAll es ++ encodeAll fs := by
  induction es with
  | nil => rw [encodeAll_nil, List.nil_append, List.nil_append]
  | cons e es ih => rw [List.cons_append, encodeAll_cons, encodeAll_cons, ih, List.append_assoc]

theorem encode_ne_nil (e : Reply) : e.encode ≠ [] := List.cons_ne_nil _ _

mutual

/-- The PHP value of a reply. Errors and nils are `FALSE`; the text of a status
is dropped, except for the answer to PING. -/
def value : Reply → Zval
  | status text => if text = ascii "PONG" then .string (ascii "+PONG") else .true
  | error _ | nil | nilArray => .false
  | integer n => .long n
  | bulk s => .string s
  | array es => .array (listTable (values es))

def values : List Reply → List Zval
  | [] => []
  | e :: es => value e :: values es

end

@[simp] theorem values_nil : values [] = [] := by rw [values]

@[simp] theorem values_cons (e : Reply) (es : List Reply) :
    values (e :: es) = e.value :: values es := by rw [values]

theorem values_eq_map (es : List Reply) : values es = es.map value := by
  induction es with
  | nil => rw [values_nil, List.map_nil]
  | cons e es ih => rw [values_cons, List.map_cons, ih]

@[simp] theorem value_array (es : List Reply) :
    (array es).value = .array (listTable (es.map value)) := by
  rw [value, values_eq_map]

theorem value_ne_undef (r : Reply) : r.value ≠ .undef := by
  cases r with
  | status text =>
      rw [value]
      split <;> exact fun h => nomatch h
  | _ =>
      rw [value]
      exact fun h => nomatch h

theorem exists_map_bulk {es : List Reply} (h : ∀ e ∈ es, ∃ s, e = bulk s) :
    ∃ strs : List Bytes, es = strs.map bulk := by
  induction es with
  | nil => exact ⟨[], rfl⟩
  | cons e es ih =>
      obtain ⟨s, rfl⟩ := h e (by simp)
      obtain ⟨strs, rfl⟩ := ih fun e he => h e (by simp [he])
      exact ⟨s :: strs, rfl⟩

/-- The replies this client can represent: texts are single lines, integers
have 64 bits, counts fit an `int`, and arrays, the nil one included, nest at
most `d` deep. -/
def Sound : ℕ → Reply → Prop
  | _, status text | _, error text => findCRLF text = none
  | _, integer n => -2 ^ 63 ≤ n ∧ n < 2 ^ 63
  | _, bulk s => s.length < 2 ^ 63
  | _, nil => True
  | 0, nilArray | 0, array _ => False
  | _ + 1, nilArray => True
  | d + 1, array es => es.length < 2 ^ 31 ∧ ∀ e ∈ es, Sound d e

theorem Sound.mono {d : ℕ} {e : Reply} (h : Sound d e) : Sound (d + 1) e := by
  induction d generalizing e with
  | zero => cases e <;> simp_all [Sound]
  | succ d ih =>
      cases e with
      | array es => exact ⟨h.1, fun e he => ih (h.2 e he)⟩
      | nilArray => trivial
      | _ => exact h

theorem Sound.of_le {d d' : ℕ} {e : Reply} (h : e.Sound d) (hd : d ≤ d') : e.Sound d' := by
  induction d', hd using Nat.le_induction with
  | base => exact h
  | succ d' _ ih => exact ih.mono

end Reply
end PhpHiredis
