import PhpHiredis.Library.Cells
import PhpHiredis.Zval
import Mathlib.Data.List.DropRight
import Mathlib.Tactic.Linarith

/-!
# Dynamic strings

`sds.c` keeps a string in one block of memory, behind a header with its length and with
the number of bytes that are free. Everywhere else in this development a string is
the list of its bytes. Here the functions are given on headers and cells, with the
arithmetic of `int` and `size_t`, and every one of them is shown to compute a function on
lists: in any order of calls no cell outside of the block is written, no cell without
a value is read, the block ends as the header says, and a NUL follows the bytes.
-/
namespace PhpHiredis.Sds

open Library

/-- `buf` is what was allocated behind the header. -/
structure Sdshdr where
  len : ℤ
  free : ℤ
  buf : Cells UInt8
  deriving DecidableEq, Repr

/-- Conversion to `size_t`. -/
def sizeT (n : ℤ) : ℕ := (n % 2 ^ 64).toNat

/-- A string of C ends at the first NUL. -/
def cstr (t : Bytes) : Bytes := t.takeWhile (· ≠ 0)

def store (buf : Cells UInt8) (i : ℕ) (t : Bytes) : Run (Cells UInt8) :=
  match buf.put i t with
  | some buf => .ok buf
  | none => .fault .outOfBounds

def load (buf : Cells UInt8) (i n : ℕ) : Run Bytes :=
  match buf.get i n with
  | some t => .ok t
  | none => .fault .uninitialised

def strlen : Cells UInt8 → Run ℕ
  | [] => .fault .outOfBounds
  | none :: _ => .fault .uninitialised
  | some b :: buf =>
      if b = 0 then .ok 0
      else do
        let n ← strlen buf
        return n + 1

/-- The bytes of a new string; without `init` they are zero. -/
def fill (init : Option Bytes) (initlen : ℕ) (buf : Cells UInt8) : Run (Cells UInt8) :=
  if initlen = 0 then .ok buf
  else
    match init with
    | some t => if initlen ≤ t.length then store buf 0 (t.take initlen) else .fault .outOfBounds
    | none => store buf 0 (List.replicate initlen 0)

def sdsnewlen (init : Option Bytes) (initlen : ℕ) : Run Sdshdr := do
  let buf ← fill init initlen (Cells.alloc (initlen + 1))
  let buf ← store buf initlen [0]
  return ⟨wrap 32 initlen, 0, buf⟩

def sdsempty : Run Sdshdr := sdsnewlen (some []) 0

def sdsnew (init : Option Bytes) : Run Sdshdr :=
  sdsnewlen init (match init with | some t => (cstr t).length | none => 0)

def sdslen (s : Sdshdr) : ℕ := sizeT s.len

def sdsavail (s : Sdshdr) : ℕ := sizeT s.free

def sdsdup (s : Sdshdr) : Run Sdshdr := do
  let t ← load s.buf 0 (sdslen s)
  sdsnewlen (some t) (sdslen s)

/-- The length is read again from the bytes, after a caller wrote a NUL into them. -/
def sdsupdatelen (s : Sdshdr) : Run Sdshdr := do
  let reallen ← strlen s.buf
  let reallen := wrap 32 reallen
  return { s with free := wrap 32 (s.free + (s.len - reallen)), len := reallen }

def sdsMakeRoomFor (s : Sdshdr) (addlen : ℕ) : Sdshdr :=
  if addlen ≤ sdsavail s then s
  else
    let len := sdslen s
    let newlen := sizeT ((len + addlen) * 2)
    { s with free := wrap 32 (newlen - len), buf := s.buf.resize (newlen + 1) }

/-- `t` is the bytes at the pointer, as many as the length says. -/
def sdscatlen (s : Sdshdr) (t : Bytes) : Run Sdshdr := do
  let curlen := sdslen s
  let s := sdsMakeRoomFor s t.length
  let buf ← store s.buf curlen t
  let buf ← store buf (curlen + t.length) [0]
  return { len := wrap 32 (curlen + t.length), free := wrap 32 (s.free - t.length), buf := buf }

def sdscat (s : Sdshdr) (t : Bytes) : Run Sdshdr := sdscatlen s (cstr t)

def sdscpylen (s : Sdshdr) (t : Bytes) : Run Sdshdr := do
  let totlen := sizeT (wrap 32 (s.free + s.len))
  let s := if totlen < t.length then sdsMakeRoomFor s (sizeT (t.length - s.len)) else s
  let totlen := sizeT (wrap 32 (s.free + s.len))
  let buf ← store s.buf 0 t
  let buf ← store buf t.length [0]
  return { len := wrap 32 t.length, free := wrap 32 (totlen - t.length), buf := buf }

def sdscpy (s : Sdshdr) (t : Bytes) : Run Sdshdr := sdscpylen s (cstr t)

/-- What `vsnprintf` leaves in a buffer when `out` is the text of the format. -/
def vsnprintf (buf : Cells UInt8) (out : Bytes) : Run (Cells UInt8) :=
  store buf 0 (out.take (buf.length - 1) ++ [0])

/-- The loop of `sdscatvprintf`. The last byte but one of a buffer tells whether the text
ended before it; a buffer that was too small is doubled. -/
def printBuffer (out : Bytes) : ℕ → ℕ → Run (Cells UInt8)
  | 0, _ => .blocked
  | n + 1, buflen => do
      let buf ← store (Cells.alloc buflen) (buflen - 2) [0]
      let buf ← vsnprintf buf out
      let last ← load buf (buflen - 2) 1
      if last = [0] then return buf else printBuffer out n (buflen * 2)

/-- `out` is the text that the format and its arguments make. -/
def sdscatvprintf (s : Sdshdr) (out : Bytes) : Run Sdshdr := do
  let buf ← printBuffer out (out.length + 1) 16
  let len ← strlen buf
  let t ← load buf 0 len
  sdscatlen s t

/-- `strchr` finds the NUL at the end of the set, too. -/
def inSet (cset : Bytes) (b : UInt8) : Bool := b = 0 ∨ b ∈ cstr cset

/-- The loop that moves `sp`; `len` is the cell behind `end`. -/
def trimFront (buf : Cells UInt8) (cset : Bytes) (len : ℕ) : ℕ → ℕ → Run ℕ
  | 0, sp => .ok sp
  | n + 1, sp =>
      if sp < len then do
        let t ← load buf sp 1
        if t.all (inSet cset) then trimFront buf cset len n (sp + 1) else return sp
      else return sp

/-- The loop that moves `ep`, given by the cell behind it. -/
def trimBack (buf : Cells UInt8) (cset : Bytes) : ℕ → Run ℕ
  | 0 => .ok 0
  | ep + 1 =>
      -- `start` is the first cell, and stays
      if ep = 0 then return 1
      else do
        let t ← load buf ep 1
        if t.all (inSet cset) then trimBack buf cset ep else return ep + 1

/-- The bytes from `start` on are moved to the front. -/
def moveDown (buf : Cells UInt8) (start newlen : ℕ) : Run (Cells UInt8) :=
  if start = 0 then .ok buf
  else do
    let t ← load buf start newlen
    store buf 0 t

/-- The end of both functions that cut a string. -/
def keep (s : Sdshdr) (start newlen : ℕ) : Run Sdshdr := do
  let buf ← moveDown s.buf start newlen
  let buf ← store buf newlen [0]
  return { len := wrap 32 newlen, free := wrap 32 (s.free + (s.len - newlen)), buf := buf }

def sdstrim (s : Sdshdr) (cset : Bytes) : Run Sdshdr := do
  let sp ← trimFront s.buf cset (sdslen s) (sdslen s) 0
  let ep ← trimBack s.buf cset (sdslen s)
  keep s sp (ep - sp)

/-- A position from the end is negative. -/
def fromEnd (len : ℕ) (pos : ℤ) : ℤ :=
  if pos < 0 then max 0 (wrap 32 (len + pos)) else pos

def sdsrange (s : Sdshdr) (start stop : ℤ) : Run Sdshdr :=
  let len := sdslen s
  if len = 0 then return s
  else
    let start := fromEnd len start
    let stop := fromEnd len stop
    let newlen := if stop < start then 0 else sizeT (wrap 32 (stop - start + 1))
    if newlen = 0 then keep s 0 0
    else
      let start := if wrap 32 len ≤ start then wrap 32 (len - 1) else start
      let stop := if wrap 32 len ≤ stop then wrap 32 (len - 1) else stop
      let newlen := if stop < start then 0 else sizeT (wrap 32 (stop - start + 1))
      keep s start.toNat newlen

def tolower (b : UInt8) : UInt8 := if 65 ≤ b.toNat ∧ b.toNat ≤ 90 then b + 32 else b

def toupper (b : UInt8) : UInt8 := if 97 ≤ b.toNat ∧ b.toNat ≤ 122 then b - 32 else b

/-- The loop of the two functions below. -/
def mapBytes (f : UInt8 → UInt8) (s : Sdshdr) : Run Sdshdr := do
  let t ← load s.buf 0 (sdslen s)
  let buf ← store s.buf 0 (t.map f)
  return { s with buf := buf }

def sdstolower : Sdshdr → Run Sdshdr := mapBytes tolower

def sdstoupper : Sdshdr → Run Sdshdr := mapBytes toupper

/-- Without the bytes of the set at both ends. -/
def trimmed (cset : Bytes) (s : Bytes) : Bytes := (s.dropWhile (inSet cset)).rdropWhile (inSet cset)

/-- The position that a number means: from the end if it is negative, and not before
the first byte. -/
def position (s : Bytes) (pos : ℤ) : ℕ := (if pos < 0 then s.length + pos else pos).toNat

/-- The bytes from `start` to `stop`, both included; beyond the end both mean the last byte. -/
def slice (s : Bytes) (start stop : ℤ) : Bytes :=
  if position s stop < position s start then []
  else (s.take (position s stop + 1)).drop (min (position s start) (s.length - 1))

/-- The header and the cells of a string. -/
structure Represents (h : Sdshdr) (s : Bytes) : Prop where
  len : h.len = s.length
  free : 0 ≤ h.free
  room : (h.buf.length : ℤ) = h.len + h.free + 1
  bound : h.len + h.free < 2 ^ 31
  starts : h.buf.Starts (s ++ [0])

theorem sizeT_natCast {n : ℕ} (h : n < 2 ^ 64) : sizeT n = n := by
  unfold sizeT
  omega

theorem wrap_int {n : ℤ} (hl : 0 ≤ n) (hu : n < 2 ^ 31) : wrap 32 n = n :=
  wrap_of_range (by omega) hu

theorem wrap_nat {n : ℕ} (h : n < 2 ^ 31) : wrap 32 n = n :=
  wrap_int (Int.natCast_nonneg _) (by exact_mod_cast h)

theorem store_starts {buf : Cells UInt8} {s t : Bytes} {i : ℕ} (hstarts : buf.Starts s)
    (hi : i ≤ s.length) (hle : i + t.length ≤ buf.length) :
    ∃ buf', store buf i t = .ok buf' ∧ buf'.Starts (s.take i ++ t) ∧ buf'.length = buf.length := by
  obtain ⟨buf', hput, hstarts', hlen⟩ := hstarts.put hi hle
  exact ⟨buf', by rw [store, hput], hstarts', hlen⟩

theorem store_nul {buf : Cells UInt8} {s : Bytes} {n : ℕ} (hstarts : buf.Starts s)
    (hn : n ≤ s.length) (hle : n + 1 ≤ buf.length) :
    ∃ buf', store buf n [0] = .ok buf' ∧ buf'.Starts (s.take n ++ [0]) ∧ buf'.length = buf.length :=
  store_starts hstarts hn hle

section
variable {h : Sdshdr} {s t : Bytes}

theorem Represents.sdslen (hr : Represents h s) : Sds.sdslen h = s.length := by
  have hlen := hr.len
  have hfree := hr.free
  have hbound := hr.bound
  rw [Sds.sdslen, hlen, sizeT_natCast (by omega)]

theorem Represents.sdsavail (hr : Represents h s) : (Sds.sdsavail h : ℤ) = h.free := by
  have hlen := hr.len
  have hfree := hr.free
  have hbound := hr.bound
  unfold Sds.sdsavail sizeT
  omega

theorem Represents.lt (hr : Represents h s) : s.length < 2 ^ 31 := by
  have hlen := hr.len
  have hfree := hr.free
  have hbound := hr.bound
  omega

theorem Represents.load (hr : Represents h s) {i n : ℕ} (hle : i + n ≤ s.length) :
    Sds.load h.buf i n = .ok ((s.drop i).take n) := by
  have hget := hr.starts.of_append.get hle
  rw [Sds.load, hget]

theorem represents_header {buf : Cells UInt8} {n : ℕ} (hstarts : buf.Starts (s ++ [0]))
    (hlen : buf.length = s.length + n + 1) (hbound : (s.length : ℤ) + n < 2 ^ 31) :
    Represents ⟨s.length, n, buf⟩ s :=
  ⟨rfl, Int.natCast_nonneg n, by rw [hlen]; push_cast; rfl, hbound, hstarts⟩

theorem fill_starts (t : Bytes) :
    ∃ buf, fill (some t) t.length (Cells.alloc (t.length + 1)) = .ok buf ∧ buf.Starts t ∧
      buf.length = t.length + 1 := by
  unfold fill
  by_cases hnil : t.length = 0
  · obtain rfl := List.eq_nil_of_length_eq_zero hnil
    exact ⟨_, if_pos rfl, Cells.starts_nil _, Cells.length_alloc _⟩
  · obtain ⟨buf, hstore, hstarts, hlen⟩ := store_starts (t := t) (i := 0)
      (Cells.starts_nil (Cells.alloc (t.length + 1))) (Nat.zero_le _)
      (by rw [Cells.length_alloc]; omega)
    simp only [if_neg hnil, if_pos (Nat.le_refl _), List.take_length]
    exact ⟨buf, hstore, hstarts, hlen.trans (Cells.length_alloc _)⟩

theorem sdsnewlen_represents (hlt : t.length < 2 ^ 31) :
    ∃ h, sdsnewlen (some t) t.length = .ok h ∧ Represents h t := by
  obtain ⟨b₁, hfill, hstarts₁, hlen₁⟩ := fill_starts t
  obtain ⟨b₂, hnul, hstarts₂, hlen₂⟩ := store_nul hstarts₁ (Nat.le_refl _) (by omega)
  rw [List.take_length] at hstarts₂
  have hwrap := wrap_nat hlt
  refine ⟨⟨t.length, (0 : ℕ), b₂⟩, ?_, represents_header hstarts₂ (by omega) (by omega)⟩
  simp only [sdsnewlen, hfill, Outcome.ok_bind, hnul, hwrap, Outcome.pure_eq, Nat.cast_zero]

theorem sdsnewlen_take {u : Bytes} {n : ℕ} (hn : n ≤ u.length) (hlt : n < 2 ^ 31) :
    ∃ h, sdsnewlen (some u) n = .ok h ∧ Represents h (u.take n) := by
  have hlen : (u.take n).length = n := List.length_take_of_le hn
  obtain ⟨h, hnew, hrep⟩ := sdsnewlen_represents (t := u.take n) (by omega)
  refine ⟨h, ?_, hrep⟩
  rw [← hnew, hlen]
  simp only [sdsnewlen, fill, if_pos hn, hlen, Nat.le_refl, if_true, List.take_take, Nat.min_self]

theorem sdsdup_represents (hr : Represents h s) : ∃ h', sdsdup h = .ok h' ∧ Represents h' s := by
  obtain ⟨h', hnew, hr'⟩ := sdsnewlen_represents hr.lt
  have hload := hr.load (i := 0) (n := s.length) (by omega)
  rw [List.drop_zero, List.take_length] at hload
  refine ⟨h', ?_, hr'⟩
  rw [sdsdup, hr.sdslen, hload, Outcome.ok_bind, hnew]

theorem sdsMakeRoomFor_represents (hr : Represents h s) {n : ℕ} (hn : 2 * (s.length + n) < 2 ^ 31) :
    Represents (sdsMakeRoomFor h n) s ∧ (n : ℤ) ≤ (sdsMakeRoomFor h n).free := by
  have hlen := hr.len
  have hfree := hr.free
  have hroom := hr.room
  have havail := hr.sdsavail
  unfold sdsMakeRoomFor
  split_ifs with henough
  · exact ⟨hr, by omega⟩
  · have hnew : sizeT (((s.length : ℤ) + n) * 2) = (s.length + n) * 2 := by
      unfold sizeT
      omega
    have hwrap : wrap 32 (((s.length + n) * 2 : ℕ) - (s.length : ℤ)) = s.length + 2 * n := by
      rw [wrap_int (by omega) (by omega)]
      omega
    simp only [hr.sdslen, hnew, hwrap]
    refine ⟨⟨hlen, ?_, ?_, ?_, ?_⟩, ?_⟩
    · change 0 ≤ (s.length : ℤ) + 2 * n
      omega
    · change ((h.buf.resize ((s.length + n) * 2 + 1)).length : ℤ) = h.len + (s.length + 2 * n) + 1
      rw [Cells.length_resize, hlen]
      omega
    · change h.len + ((s.length : ℤ) + 2 * n) < 2 ^ 31
      omega
    · refine hr.starts.resize ?_
      rw [List.length_append, List.length_singleton]
      omega
    · omega

theorem sdscatlen_represents (hr : Represents h s) (ht : 2 * (s.length + t.length) < 2 ^ 31) :
    ∃ h', sdscatlen h t = .ok h' ∧ Represents h' (s ++ t) := by
  obtain ⟨hr₁, hroom⟩ := sdsMakeRoomFor_represents hr ht
  have hlen := hr₁.len
  have hbuf := hr₁.room
  have hbound := hr₁.bound
  obtain ⟨b₁, hstore, hstarts₁, hlen₁⟩ := store_starts (t := t) hr₁.starts.of_append (Nat.le_refl _)
    (by omega)
  rw [List.take_length] at hstarts₁
  obtain ⟨b₂, hnul, hstarts₂, hlen₂⟩ := store_nul hstarts₁ (Nat.le_refl _)
    (by rw [List.length_append]; omega)
  rw [List.take_length] at hstarts₂
  rw [List.length_append] at hnul
  have hfree : wrap 32 ((sdsMakeRoomFor h t.length).free - t.length) =
      ((sdsMakeRoomFor h t.length).free - t.length).toNat := by
    rw [wrap_int (by omega) (by omega)]
    omega
  have hwrap : wrap 32 (((s.length + t.length : ℕ) : ℤ)) = (s ++ t).length := by
    rw [wrap_int (by omega) (by omega), List.length_append]
  refine ⟨⟨(s ++ t).length, ((sdsMakeRoomFor h t.length).free - t.length).toNat, b₂⟩, ?_,
    represents_header hstarts₂ (by rw [List.length_append]; omega)
      (by rw [List.length_append]; omega)⟩
  rw [← hwrap, ← hfree]
  simp only [sdscatlen, hr.sdslen, hstore, Outcome.ok_bind, hnul, Outcome.pure_eq, Nat.cast_add]

theorem sdscpylen_represents (hr : Represents h s) (ht : 2 * t.length < 2 ^ 31) :
    ∃ h', sdscpylen h t = .ok h' ∧ Represents h' t := by
  have hlen := hr.len
  have hfree := hr.free
  have hbound := hr.bound
  have htot : ∀ {g : Sdshdr}, Represents g s → (sizeT (wrap 32 (g.free + g.len)) : ℤ) =
      g.free + g.len := by
    intro g hg
    have h₁ := hg.len
    have h₂ := hg.free
    have h₃ := hg.bound
    rw [wrap_int (by omega) (by omega)]
    unfold sizeT
    omega
  obtain ⟨g, hg, hr₁, hroom⟩ : ∃ g, (if sizeT (wrap 32 (h.free + h.len)) < t.length then
      sdsMakeRoomFor h (sizeT (t.length - h.len)) else h) = g ∧ Represents g s ∧
      (t.length : ℤ) ≤ g.free + g.len := by
    have htot' := htot hr
    split_ifs with hsmall
    · have hadd : sizeT ((t.length : ℤ) - h.len) = t.length - s.length := by
        unfold sizeT
        omega
      obtain ⟨hr₁, hroom⟩ := sdsMakeRoomFor_represents hr (n := t.length - s.length) (by omega)
      rw [hadd]
      refine ⟨_, rfl, hr₁, ?_⟩
      have := hr₁.len
      omega
    · exact ⟨h, rfl, hr, by omega⟩
  have hlen' := hr₁.len
  have hbuf := hr₁.room
  have hbound' := hr₁.bound
  obtain ⟨n, hn⟩ : ∃ n : ℕ, (n : ℤ) = g.free + g.len - t.length :=
    ⟨_, Int.toNat_of_nonneg (by omega)⟩
  have hlt : (n : ℤ) < 2 ^ 31 := by omega
  have htot' := htot hr₁
  obtain ⟨b₁, hstore, hstarts₁, hlen₁⟩ := store_starts (t := t) (i := 0) hr₁.starts (Nat.zero_le _)
    (by omega)
  obtain ⟨b₂, hnul, hstarts₂, hlen₂⟩ := store_nul hstarts₁ (Nat.le_refl _)
    (by rw [List.take_zero, List.nil_append]; omega)
  rw [List.take_length, List.take_zero, List.nil_append] at hstarts₂
  rw [List.take_zero, List.nil_append] at hnul
  have hfree' : wrap 32 ((sizeT (wrap 32 (g.free + g.len)) : ℤ) - t.length) = n := by
    rw [htot', ← hn, wrap_int (Int.natCast_nonneg n) hlt]
  have hwrap := wrap_nat (n := t.length) (by omega)
  refine ⟨⟨t.length, n, b₂⟩, ?_,
    represents_header hstarts₂ (by omega) (by linarith only [hn, hbound'])⟩
  rw [← hfree']
  simp only [sdscpylen, hg, hstore, Outcome.ok_bind, hnul, hwrap, Outcome.pure_eq]

/-- The new length is that of the bytes in front of the first NUL. -/
theorem strlen_starts {buf : Cells UInt8} (hstarts : buf.Starts (s ++ [0])) :
    strlen buf = .ok (cstr s).length := by
  induction s generalizing buf with
  | nil =>
      obtain ⟨rest, rfl⟩ := hstarts
      rfl
  | cons b s ih =>
      obtain ⟨rest, rfl⟩ := hstarts
      have hstarts' : Cells.Starts ((s ++ [0]).map some ++ rest) (s ++ [0]) := ⟨rest, rfl⟩
      have hrest := ih hstarts'
      by_cases hb : b = 0
      · subst hb
        rfl
      · have hcstr : cstr (b :: s) = b :: cstr s := List.takeWhile_cons_of_pos (by simpa using hb)
        rw [List.cons_append, List.map_cons, List.cons_append, strlen, if_neg hb, hrest, hcstr]
        rfl

theorem cstr_nul_initial (s : Bytes) : cstr s ++ [0] <+: s ++ [0] := by
  induction s with
  | nil => exact List.prefix_rfl
  | cons b s ih =>
      by_cases hb : b = 0
      · subst hb
        exact ⟨s ++ [0], rfl⟩
      · have hcstr : cstr (b :: s) = b :: cstr s := List.takeWhile_cons_of_pos (by simpa using hb)
        rw [hcstr]
        exact (List.cons_prefix_cons).mpr ⟨rfl, ih⟩

theorem sdsupdatelen_represents (hr : Represents h s) :
    ∃ h', sdsupdatelen h = .ok h' ∧ Represents h' (cstr s) := by
  have hlen := hr.len
  have hfree := hr.free
  have hbound := hr.bound
  have hroom := hr.room
  have hle : (cstr s).length ≤ s.length := (List.takeWhile_prefix _).length_le
  have hwrap := wrap_nat (Nat.lt_of_le_of_lt hle hr.lt)
  obtain ⟨n, hn⟩ : ∃ n : ℕ, (n : ℤ) = h.free + (h.len - (cstr s).length) :=
    ⟨_, Int.toNat_of_nonneg (by omega)⟩
  have hfree' : wrap 32 (h.free + (h.len - (cstr s).length)) = n := by
    rw [← hn, wrap_int (by omega) (by omega)]
  have hstarts : h.buf.Starts (cstr s ++ [0]) :=
    List.IsPrefix.trans ((cstr_nul_initial s).map some) hr.starts
  refine ⟨⟨(cstr s).length, n, h.buf⟩, ?_, represents_header hstarts (by omega) (by omega)⟩
  simp only [sdsupdatelen, strlen_starts hr.starts, Outcome.ok_bind, hwrap, hfree', Outcome.pure_eq]

theorem cstr_take {n : ℕ} (hnul : 0 ∈ s.take n) : cstr (s.take n) = cstr s := by
  induction s generalizing n with
  | nil => rw [List.take_nil]
  | cons b s ih =>
      cases n with
      | zero => cases hnul
      | succ n =>
          by_cases hb : b = 0
          · subst hb
            rfl
          · have hcons : ∀ u : Bytes, cstr (b :: u) = b :: cstr u :=
              fun u => List.takeWhile_cons_of_pos (by simpa using hb)
            rw [List.take_succ_cons] at hnul ⊢
            have hrest : 0 ∈ s.take n := (List.mem_cons.mp hnul).resolve_left fun h => hb h.symm
            rw [hcons, hcons, ih hrest]

/-- One turn of the loop, with a buffer that does or does not do. A NUL within the text may
end the loop early: it ends the string as well. -/
theorem printBuffer_succ (out : Bytes) (n : ℕ) {buflen : ℕ} (hlen : 2 ≤ buflen) :
    (∃ buf, printBuffer out (n + 1) buflen = .ok buf ∧ buf.Starts (cstr out ++ [0])) ∨
    buflen < out.length + 2 ∧ printBuffer out (n + 1) buflen = printBuffer out n (buflen * 2) := by
  have halloc : (Cells.alloc buflen : Cells UInt8).length = buflen := Cells.length_alloc buflen
  obtain ⟨b₁, hput₁, hlen₁⟩ : ∃ b₁, (Cells.alloc buflen).put (buflen - 2) [(0 : UInt8)] = some b₁ ∧
      b₁.length = (Cells.alloc buflen : Cells UInt8).length :=
    Cells.exists_put (by rw [halloc, List.length_singleton]; omega)
  rw [halloc] at hlen₁
  have hstore₁ : store (Cells.alloc buflen) (buflen - 2) [0] = .ok b₁ := by rw [store, hput₁]
  have hu : (out.take (buflen - 1)).length = min (buflen - 1) out.length := List.length_take
  obtain ⟨b₂, hput₂, hstarts, hlen₂⟩ := (Cells.starts_nil b₁).put (Nat.zero_le _)
    (show 0 + (out.take (buflen - 1) ++ [0]).length ≤ b₁.length by
      rw [List.length_append, hu, List.length_singleton]
      omega)
  rw [List.take_nil, List.nil_append] at hstarts
  have hprint : vsnprintf b₁ out = .ok b₂ := by rw [vsnprintf, hlen₁, store, hput₂]
  -- the two cases of what the last byte but one is
  have hlast : (out.length + 2 ≤ buflen ∧ load b₂ (buflen - 2) 1 = .ok [0]) ∨
      buflen < out.length + 2 ∧ load b₂ (buflen - 2) 1 = .ok ((out.drop (buflen - 2)).take 1) := by
    by_cases hshort : out.length + 3 ≤ buflen
    · refine .inl ⟨by omega, ?_⟩
      have hget := Cells.get_put_front (n := 1) (j := buflen - 2) hput₂
        (by rw [List.length_append, hu, List.length_singleton]; omega)
      have hset : b₁.get (buflen - 2) 1 = some [0] := Cells.get_put hput₁
      rw [load, hget, hset]
    · have hget := hstarts.get (i := buflen - 2) (n := 1)
        (by rw [List.length_append, hu, List.length_singleton]; omega)
      by_cases hfits : out.length + 2 ≤ buflen
      · refine .inl ⟨hfits, ?_⟩
        have hend : buflen - 2 = out.length := by omega
        rw [load, hget, List.take_of_length_le (show out.length ≤ buflen - 1 by omega), hend,
          List.drop_left]
        rfl
      · refine .inr ⟨by omega, ?_⟩
        rw [load, hget, List.drop_append_of_le_length (by rw [hu]; omega),
          List.take_append_of_le_length (by rw [List.length_drop, hu]; omega), List.drop_take,
            List.take_take]
        have hone : min 1 (buflen - 1 - (buflen - 2)) = 1 := by omega
        rw [hone]
  have hturn : printBuffer out (n + 1) buflen = load b₂ (buflen - 2) 1 >>= fun last =>
      if last = [0] then return b₂ else printBuffer out n (buflen * 2) := by
    rw [printBuffer, hstore₁]
    simp only [Outcome.ok_bind, hprint]
  rcases hlast with ⟨hfits, hload⟩ | ⟨hlong, hload⟩
  · left
    refine ⟨b₂, by rw [hturn, hload, Outcome.ok_bind, if_pos rfl]; rfl, ?_⟩
    rw [List.take_of_length_le (by omega)] at hstarts
    exact List.IsPrefix.trans ((cstr_nul_initial out).map some) hstarts
  · by_cases hnul : (out.drop (buflen - 2)).take 1 = [0]
    · left
      refine ⟨b₂, by rw [hturn, hload, Outcome.ok_bind, if_pos hnul]; rfl, ?_⟩
      have hmem : 0 ∈ out.take (buflen - 1) := by
        have hsplit : out.take (buflen - 1) =
            out.take (buflen - 2) ++ (out.drop (buflen - 2)).take 1 := by
          rw [← List.take_add]
          congr 1
          omega
        rw [hsplit, hnul]
        exact List.mem_append_right _ (List.mem_singleton_self 0)
      have hinitial := cstr_nul_initial (out.take (buflen - 1))
      rw [cstr_take hmem] at hinitial
      exact List.IsPrefix.trans (hinitial.map some) hstarts
    · exact .inr ⟨hlong, by rw [hturn, hload, Outcome.ok_bind, if_neg hnul]⟩

/-- The loop ends, by induction on the buffers that may be too small. -/
theorem printBuffer_starts (out : Bytes) {n buflen : ℕ} (hlen : 2 ≤ buflen)
    (hn : out.length + 2 ≤ buflen + n) :
    ∃ buf, printBuffer out (n + 1) buflen = .ok buf ∧ buf.Starts (cstr out ++ [0]) := by
  induction n generalizing buflen with
  | zero =>
      rcases printBuffer_succ out 0 hlen with hdone | ⟨hlong, -⟩
      · exact hdone
      · omega
  | succ n ih =>
      rcases printBuffer_succ out (n + 1) hlen with hdone | ⟨-, hturn⟩
      · exact hdone
      · rw [hturn]
        exact ih (by omega) (by omega)

theorem sdscatvprintf_represents (hr : Represents h s) (out : Bytes)
    (hfits : 2 * (s.length + (cstr out).length) < 2 ^ 31) :
    ∃ h', sdscatvprintf h out = .ok h' ∧ Represents h' (s ++ cstr out) := by
  obtain ⟨buf, hprint, hstarts⟩ := printBuffer_starts out (show 2 ≤ 16 by omega)
    (show out.length + 2 ≤ 16 + out.length by omega)
  have hcstr : cstr (cstr out) = cstr out := List.takeWhile_idem
  have hstrlen := strlen_starts hstarts
  rw [hcstr] at hstrlen
  have hget := hstarts.of_append.get (i := 0) (n := (cstr out).length) (by omega)
  rw [List.drop_zero, List.take_length] at hget
  obtain ⟨h', hcat, hr'⟩ := sdscatlen_represents hr hfits
  refine ⟨h', ?_, hr'⟩
  rw [sdscatvprintf, hprint, Outcome.ok_bind, hstrlen, Outcome.ok_bind, load, hget]
  exact hcat

theorem mapBytes_represents (f : UInt8 → UInt8) (hr : Represents h s) :
    ∃ h', mapBytes f h = .ok h' ∧ Represents h' (s.map f) := by
  have hload := hr.load (i := 0) (n := s.length) (by omega)
  rw [List.drop_zero, List.take_length] at hload
  obtain ⟨buf, hput, hstarts, hlen⟩ := hr.starts.put_over (List.length_map f)
  refine ⟨{ h with buf := buf }, ?_, ?_⟩
  · simp only [mapBytes, hr.sdslen, hload, Outcome.ok_bind, store, hput, Outcome.pure_eq]
  · exact ⟨by rw [List.length_map]; exact hr.len, hr.free, by rw [hlen]; exact hr.room, hr.bound,
      hstarts⟩

theorem keep_represents (hr : Represents h s) (start newlen : ℕ) (hle : start + newlen ≤ s.length) :
    ∃ h', keep h start newlen = .ok h' ∧ Represents h' ((s.drop start).take newlen) := by
  have hlen := hr.len
  have hfree := hr.free
  have hbound := hr.bound
  have hroom := hr.room
  have hkept : ((s.drop start).take newlen).length = newlen := by
    rw [List.length_take, List.length_drop]
    omega
  obtain ⟨b₁, hmove, hstarts₁, hlen₁⟩ : ∃ b₁, moveDown h.buf start newlen = .ok b₁ ∧
      b₁.Starts ((s.drop start).take newlen) ∧ b₁.length = h.buf.length := by
    unfold moveDown
    by_cases hstart : start = 0
    · subst hstart
      refine ⟨h.buf, if_pos rfl, ?_, rfl⟩
      rw [List.drop_zero]
      exact List.IsPrefix.trans ((List.take_prefix newlen s).map some) hr.starts.of_append
    · obtain ⟨b₁, hstore, hstarts₁, hlen₁⟩ :=
        store_starts (t := (s.drop start).take newlen) (i := 0)
        hr.starts (Nat.zero_le _) (by rw [hkept]; omega)
      rw [if_neg hstart, hr.load hle, Outcome.ok_bind]
      exact ⟨b₁, hstore, hstarts₁, hlen₁⟩
  obtain ⟨b₂, hnul, hstarts₂, hlen₂⟩ := store_nul hstarts₁ (Nat.le_of_eq hkept.symm) (by omega)
  rw [List.take_of_length_le (Nat.le_of_eq hkept)] at hstarts₂
  obtain ⟨n, hn⟩ : ∃ n : ℕ, (n : ℤ) = h.free + (h.len - newlen) :=
    ⟨_, Int.toNat_of_nonneg (by omega)⟩
  have hfree' : wrap 32 (h.free + (h.len - newlen)) = n := by
    rw [← hn, wrap_int (by omega) (by omega)]
  have hwrap : wrap 32 (newlen : ℤ) = ((s.drop start).take newlen).length := by
    rw [hkept, wrap_nat (Nat.lt_of_le_of_lt (Nat.le_of_add_left_le hle) hr.lt)]
  refine ⟨⟨((s.drop start).take newlen).length, n, b₂⟩, ?_,
    represents_header hstarts₂ (by omega) (by rw [hkept]; linarith only [hn, hbound])⟩
  rw [← hwrap]
  simp only [keep, hmove, Outcome.ok_bind, hnul, hfree', Outcome.pure_eq]

theorem trimFront_eq (hr : Represents h s) (cset : Bytes) {n sp : ℕ} (hsp : sp ≤ s.length)
    (hn : s.length - sp ≤ n) :
    trimFront h.buf cset s.length n sp =
      .ok (sp + ((s.drop sp).takeWhile (inSet cset)).length) := by
  induction n generalizing sp with
  | zero =>
      have hend : s.drop sp = [] := List.drop_eq_nil_of_le (by omega)
      rw [trimFront, hend]
      rfl
  | succ n ih =>
      rw [trimFront]
      by_cases hlt : sp < s.length
      · have hdrop := List.drop_eq_getElem_cons hlt
        have hload : load h.buf sp 1 = .ok [s[sp]] := by
          rw [hr.load (by omega), hdrop]
          rfl
        rw [if_pos hlt, hload, Outcome.ok_bind, hdrop]
        by_cases hin : inSet cset s[sp] = true
        · rw [if_pos (by simpa using hin), ih (by omega) (by omega), List.takeWhile_cons_of_pos hin,
            List.length_cons]
          congr 1
          omega
        · rw [if_neg (by simpa using hin), List.takeWhile_cons_of_neg hin]
          rfl
      · have hend : s.drop sp = [] := List.drop_eq_nil_of_le (by omega)
        rw [if_neg hlt, hend]
        rfl

/-- The loop does not look at the first byte. -/
theorem trimBack_eq (hr : Represents h s) (cset : Bytes) {ep : ℕ} (hep : ep ≤ s.length) :
    trimBack h.buf cset ep =
      .ok (if ep = 0 then 0 else max 1 ((s.take ep).rdropWhile (inSet cset)).length) := by
  induction ep with
  | zero => rfl
  | succ ep ih =>
      have hlt : ep < s.length := hep
      have htake : s.take (ep + 1) = s.take ep ++ [s[ep]] := by
        rw [List.take_add_one, List.getElem?_eq_getElem hlt]
        rfl
      rw [trimBack, if_neg (Nat.succ_ne_zero ep), htake]
      by_cases hzero : ep = 0
      · subst hzero
        rw [if_pos rfl, List.take_zero, List.nil_append, List.rdropWhile_singleton]
        split_ifs <;> rfl
      · have hload : load h.buf ep 1 = .ok [s[ep]] := by
          rw [hr.load (by omega), List.drop_eq_getElem_cons hlt]
          rfl
        rw [if_neg hzero, hload, Outcome.ok_bind]
        by_cases hin : inSet cset s[ep] = true
        · rw [if_pos (by simpa using hin), ih (by omega), if_neg hzero,
            List.rdropWhile_concat_pos _ _ _ hin]
        · rw [if_neg (by simpa using hin), List.rdropWhile_concat_neg _ _ _ hin]
          have hmax : max 1 (s.take ep ++ [s[ep]]).length = ep + 1 := by
            rw [List.length_append, List.length_take, List.length_singleton]
            omega
          rw [hmax]
          rfl

theorem rdropWhile_append_of_ne {p : UInt8 → Bool} {xs ys : Bytes} (h : ys.rdropWhile p ≠ []) :
    (xs ++ ys).rdropWhile p = xs ++ ys.rdropWhile p := by
  have hne : (ys.reverse.dropWhile p).isEmpty = false := by
    rw [List.isEmpty_eq_false_iff]
    intro hnil
    exact h (by rw [List.rdropWhile, hnil, List.reverse_nil])
  rw [List.rdropWhile, List.reverse_append, List.dropWhile_append,
    if_neg (by rw [hne]; exact Bool.false_ne_true),
    List.reverse_append, List.reverse_reverse]
  rfl

theorem sdstrim_represents (hr : Represents h s) (cset : Bytes) :
    ∃ h', sdstrim h cset = .ok h' ∧ Represents h' (trimmed cset s) := by
  have hfront := trimFront_eq hr cset (Nat.zero_le s.length) (Nat.le_of_eq (Nat.sub_zero _))
  have hback := trimBack_eq hr cset (Nat.le_refl s.length)
  rw [List.drop_zero, Nat.zero_add] at hfront
  rw [List.take_length] at hback
  have hsplit : s.takeWhile (inSet cset) ++ s.dropWhile (inSet cset) = s :=
    List.takeWhile_append_dropWhile
  obtain ⟨xs, hxs⟩ : ∃ xs, s.takeWhile (inSet cset) = xs := ⟨_, rfl⟩
  obtain ⟨ys, hys⟩ : ∃ ys, s.dropWhile (inSet cset) = ys := ⟨_, rfl⟩
  rw [hxs] at hfront
  rw [hxs, hys] at hsplit
  have hdrop : s.drop xs.length = ys := by rw [← hsplit, List.drop_left]
  have hlen : xs.length + ys.length = s.length := by rw [← hsplit, List.length_append]
  have hprefix := (List.rdropWhile_prefix (inSet cset) s).length_le
  have hkept : (s.drop xs.length).take ((if s.length = 0 then 0
      else max 1 (s.rdropWhile (inSet cset)).length) - xs.length) = trimmed cset s := by
    rw [hdrop, trimmed, hys]
    by_cases hnil : ys.rdropWhile (inSet cset) = []
    · -- every byte goes: the first of `ys` would stay
      have hempty : ys = [] := by
        cases ys with
        | nil => rfl
        | cons y ys =>
            have hy := List.rdropWhile_eq_nil_iff.mp hnil y List.mem_cons_self
            have hne : s.dropWhile (inSet cset) ≠ [] := by
              rw [hys]
              exact List.cons_ne_nil y ys
            have hhead := List.head_dropWhile_not (inSet cset) hne
            simp only [hys, List.head_cons] at hhead
            rw [hy] at hhead
            cases hhead
      rw [hempty, List.take_nil, List.rdropWhile_nil]
    · have hsum : (s.rdropWhile (inSet cset)).length =
          xs.length + (ys.rdropWhile (inSet cset)).length := by
        rw [← hsplit, rdropWhile_append_of_ne hnil, List.length_append]
      have hpos := List.length_pos_of_ne_nil hnil
      have hcount : (if s.length = 0 then 0 else max 1 (s.rdropWhile (inSet cset)).length) -
        xs.length =
          (ys.rdropWhile (inSet cset)).length := by
        split_ifs <;> omega
      rw [hcount]
      exact (List.prefix_iff_eq_take.mp (List.rdropWhile_prefix (inSet cset) ys)).symm
  obtain ⟨h', hkeep, hr'⟩ := keep_represents hr xs.length
    ((if s.length = 0 then 0 else max 1 (s.rdropWhile (inSet cset)).length) - xs.length)
    (by split_ifs <;> omega)
  rw [hkept] at hr'
  refine ⟨h', ?_, hr'⟩
  simp only [sdstrim, hr.sdslen, hfront, Outcome.ok_bind, hback, hkeep]

theorem fromEnd_eq (hr : Represents h s) {pos : ℤ} (hl : -2 ^ 31 ≤ pos) :
    fromEnd s.length pos = position s pos := by
  have hlt := hr.lt
  unfold fromEnd position
  split_ifs with hneg
  · rw [wrap_of_range (by omega) (by omega)]
    omega
  · omega

theorem clamp_eq (hr : Represents h s) (hne : s.length ≠ 0) (a : ℕ) :
    (if wrap 32 s.length ≤ (a : ℤ) then wrap 32 ((s.length : ℤ) - 1) else a) =
      ((min a (s.length - 1) : ℕ) : ℤ) := by
  have hlt := hr.lt
  rw [wrap_nat hlt, wrap_int (by omega) (by omega)]
  split_ifs <;> omega

theorem sizeT_range {a b : ℕ} (hab : a ≤ b) (hb : (b : ℤ) < 2 ^ 31) :
    sizeT (wrap 32 ((b : ℤ) - a + 1)) ≠ 0 ∧
      ((b : ℤ) - a + 1 < 2 ^ 31 → sizeT (wrap 32 ((b : ℤ) - a + 1)) = b - a + 1) := by
  have hsmall : (b : ℤ) - a + 1 < 2 ^ 31 → sizeT (wrap 32 ((b : ℤ) - a + 1)) = b - a + 1 := by
    intro hlt
    rw [wrap_int (by omega) hlt]
    unfold sizeT
    omega
  refine ⟨?_, hsmall⟩
  by_cases hlt : (b : ℤ) - a + 1 < 2 ^ 31
  · rw [hsmall hlt]
    omega
  · -- the whole range of `int`
    have hall : (b : ℤ) - a + 1 = 2 ^ 31 := by omega
    rw [hall]
    decide

theorem sdsrange_represents (hr : Represents h s) {start stop : ℤ} (hstart : -2 ^ 31 ≤ start)
    (hstop : -2 ^ 31 ≤ stop) (hu : stop < 2 ^ 31) :
    ∃ h', sdsrange h start stop = .ok h' ∧ Represents h' (slice s start stop) := by
  have hlt := hr.lt
  unfold sdsrange
  simp only [hr.sdslen, fromEnd_eq hr hstart, fromEnd_eq hr hstop]
  by_cases hempty : s.length = 0
  · obtain rfl := List.eq_nil_of_length_eq_zero hempty
    refine ⟨h, if_pos rfl, ?_⟩
    have hslice : slice [] start stop = [] := by
      unfold slice
      split_ifs <;> simp
    rw [hslice]
    exact hr
  · rw [if_neg hempty]
    have hb : (position s stop : ℤ) < 2 ^ 31 := by
      unfold position
      split_ifs <;> omega
    unfold slice
    generalize position s start = a
    generalize position s stop = b at hb
    by_cases hab : b < a
    · obtain ⟨h', hkeep, hr'⟩ := keep_represents hr 0 0 (Nat.zero_le _)
      have hab' : (b : ℤ) < a := by omega
      rw [if_pos hab', if_pos rfl, if_pos hab]
      exact ⟨h', hkeep, hr'⟩
    · have hab' : ¬(b : ℤ) < a := by omega
      obtain ⟨hne, -⟩ := sizeT_range (Nat.le_of_not_lt hab) hb
      have hle : min a (s.length - 1) ≤ min b (s.length - 1) := by omega
      have hle' : ¬((min b (s.length - 1) : ℕ) : ℤ) < (min a (s.length - 1) : ℕ) := by omega
      have hnew := (sizeT_range hle (by omega)).2 (by omega)
      obtain ⟨h', hkeep, hr'⟩ := keep_represents hr (min a (s.length - 1))
        (min b (s.length - 1) - min a (s.length - 1) + 1) (by omega)
      have hslice : (s.take (b + 1)).drop (min a (s.length - 1)) =
          (s.drop (min a (s.length - 1))).take
            (min b (s.length - 1) - min a (s.length - 1) + 1) := by
        rw [List.drop_take, List.take_eq_take_iff, List.length_drop]
        omega
      rw [if_neg hab', if_neg hne, if_neg hab, clamp_eq hr hempty, clamp_eq hr hempty, if_neg hle',
        hnew, Int.toNat_natCast, hslice]
      exact ⟨h', hkeep, hr'⟩

end

/-- A new string, of one of the three functions that make one. -/
inductive SdsNew where
  | newlen (init : Bytes)
  | new (init : Bytes)
  | empty

namespace SdsNew

def exec : SdsNew → Run Sdshdr
  | .newlen init => sdsnewlen (some init) init.length
  | .new init => sdsnew (some init)
  | .empty => sdsempty

def bytes : SdsNew → Bytes
  | .newlen init => init
  | .new init => cstr init
  | .empty => []

theorem exec_represents {new : SdsNew} (hlt : new.bytes.length < 2 ^ 31) :
    ∃ h, new.exec = .ok h ∧ Represents h new.bytes := by
  cases new with
  | newlen init => exact sdsnewlen_represents hlt
  | empty => exact sdsnewlen_represents hlt
  | new init =>
      have hprefix : cstr init <+: init := List.takeWhile_prefix _
      obtain ⟨h, hnew, hr⟩ := sdsnewlen_take hprefix.length_le hlt
      rw [← List.prefix_iff_eq_take.mp hprefix] at hr
      exact ⟨h, hnew, hr⟩

end SdsNew

inductive SdsOp where
  | catlen (t : Bytes)
  | cat (t : Bytes)
  | cpylen (t : Bytes)
  | cpy (t : Bytes)
  | trim (cset : Bytes)
  | range (start stop : ℤ)
  | tolower
  | toupper
  | updatelen
  | dup
  | catprintf (out : Bytes)

namespace SdsOp

def exec (h : Sdshdr) : SdsOp → Run Sdshdr
  | .catlen t => sdscatlen h t
  | .cat t => sdscat h t
  | .cpylen t => sdscpylen h t
  | .cpy t => sdscpy h t
  | .trim cset => sdstrim h cset
  | .range start stop => sdsrange h start stop
  | .tolower => sdstolower h
  | .toupper => sdstoupper h
  | .updatelen => sdsupdatelen h
  | .dup => sdsdup h
  | .catprintf out => sdscatvprintf h out

def apply (s : Bytes) : SdsOp → Bytes
  | .catlen t => s ++ t
  | .cat t => s ++ cstr t
  | .cpylen t => t
  | .cpy t => cstr t
  | .trim cset => trimmed cset s
  | .range start stop => slice s start stop
  | .tolower => s.map Sds.tolower
  | .toupper => s.map Sds.toupper
  | .updatelen => cstr s
  | .dup => s
  | .catprintf out => s ++ cstr out

/-- What an `int` holds: twice the length after a string has grown, and the ends of a range. -/
def Fits (s : Bytes) : SdsOp → Prop
  | .catlen t => 2 * (s.length + t.length) < 2 ^ 31
  | .cat t | .catprintf t => 2 * (s.length + (cstr t).length) < 2 ^ 31
  | .cpylen t => 2 * t.length < 2 ^ 31
  | .cpy t => 2 * (cstr t).length < 2 ^ 31
  | .range start stop => -2 ^ 31 ≤ start ∧ -2 ^ 31 ≤ stop ∧ stop < 2 ^ 31
  | .trim _ | .tolower | .toupper | .updatelen | .dup => True

def AllFit : Bytes → List SdsOp → Prop
  | _, [] => True
  | s, op :: ops => op.Fits s ∧ AllFit (op.apply s) ops

end SdsOp

def runOps (h : Sdshdr) : List SdsOp → Run Sdshdr
  | [] => return h
  | op :: ops => do
      let h ← op.exec h
      runOps h ops

theorem exec_represents {h : Sdshdr} {s : Bytes} (hr : Represents h s) {op : SdsOp}
    (hop : op.Fits s) :
    ∃ h', op.exec h = .ok h' ∧ Represents h' (op.apply s) := by
  cases op with
  | catlen t | cat t => exact sdscatlen_represents hr hop
  | cpylen t | cpy t => exact sdscpylen_represents hr hop
  | trim cset => exact sdstrim_represents hr cset
  | range start stop => exact sdsrange_represents hr hop.1 hop.2.1 hop.2.2
  | tolower => exact mapBytes_represents Sds.tolower hr
  | toupper => exact mapBytes_represents Sds.toupper hr
  | updatelen => exact sdsupdatelen_represents hr
  | dup => exact sdsdup_represents hr
  | catprintf out => exact sdscatvprintf_represents hr out hop

/-- Calls, by induction on them. -/
theorem runOps_represents {h : Sdshdr} {s : Bytes} (hr : Represents h s) {ops : List SdsOp}
    (hops : SdsOp.AllFit s ops) :
    ∃ h', runOps h ops = .ok h' ∧ Represents h' (ops.foldl SdsOp.apply s) := by
  induction ops generalizing h s with
  | nil => exact ⟨h, rfl, hr⟩
  | cons op ops ih =>
      obtain ⟨h₁, hexec, hr₁⟩ := exec_represents hr hops.1
      obtain ⟨h₂, hrun, hr₂⟩ := ih hr₁ hops.2
      exact ⟨h₂, by rw [runOps, hexec, Outcome.ok_bind, hrun], hr₂⟩

/-- Any calls on a new string compute the functions on lists: every access is within the
block and to a cell with a value, the header says what was allocated, and a NUL
follows the bytes. -/
theorem sds_run {new : SdsNew} (hnew : new.bytes.length < 2 ^ 31) {ops : List SdsOp}
    (hops : SdsOp.AllFit new.bytes ops) :
    ∃ h, (new.exec >>= fun h => runOps h ops) = .ok h ∧
      Represents h (ops.foldl SdsOp.apply new.bytes) := by
  obtain ⟨h, hexec, hr⟩ := SdsNew.exec_represents hnew
  rw [hexec, Outcome.ok_bind]
  exact runOps_represents hr hops

theorem sds_run_set :
    ∃ h, (sdsnew (some (ascii " ab\x00c")) >>= fun h =>
        runOps h [.catlen (ascii "cd\x00e "), .trim (ascii " "), .range (-3) 9, .updatelen,
          .toupper]) =
          .ok h ∧ Represents h (ascii "D") :=
  @sds_run (.new (ascii " ab\x00c")) (by decide) _
    ⟨by simp [SdsOp.Fits, SdsNew.bytes, cstr, ascii], trivial, by simp [SdsOp.Fits], trivial,
      trivial, trivial⟩

end PhpHiredis.Sds
