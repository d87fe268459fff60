import PhpHiredis.Arrival
import PhpHiredis.Deferral
import Mathlib.Data.List.Nodup

/-!
# Fields and values

`hgetall` receives fields and values in turn and makes them an array again, and
`hmget` pairs the fields of the call with the values of the reply. Both store
one pair after another, so what a repeated field does is decided by the hash
table alone. A hash table turns decimal strings into integers; no two fields
become one key that way.
-/
namespace PhpHiredis

open Library Reader

variable {σ : Type}

/-- The string that was stored under a key. -/
def Key.text : Key → Bytes
  | .index n => decimalInt n
  | .name s => s

@[simp] theorem Key.text_ofString (s : Bytes) : (Key.ofString s).text = s := by
  unfold Key.ofString
  split_ifs with h
  · exact h.1
  · rfl

theorem Key.ofString_injective : Function.Injective Key.ofString :=
  Function.LeftInverse.injective Key.text_ofString

theorem Key.nodup_ofString {strs : List Bytes} (h : strs.Nodup) : (strs.map Key.ofString).Nodup :=
  h.map Key.ofString_injective

def flattened (pairs : List (Bytes × Bytes)) : List Zval :=
  pairs.flatMap fun p => [.string p.1, .string p.2]

def fieldEntries (pairs : List (Bytes × Bytes)) : HashTable :=
  pairs.map fun p => (.ofString p.1, .string p.2)

theorem zipPairs_flattened (pairs : List (Bytes × Bytes)) (rest : List Zval) (ret : HashTable) :
    zipPairs (flattened pairs ++ rest) ret =
      zipPairs rest (OrderedMap.insertAll ret (fieldEntries pairs)) := by
  induction pairs generalizing ret with
  | nil => rfl
  | cons p pairs ih =>
      have hflat : flattened (p :: pairs) ++ rest =
          .string p.1 :: .string p.2 :: (flattened pairs ++ rest) := rfl
      rw [hflat, zipPairs]
      simp only [Zval.strval, Outcome.ok_bind, ih]
      rfl

theorem redisReplyZip_listTable (zs : List Zval) :
    redisReplyZip (.array (listTable zs)) =
      (zipPairs zs [] >>= fun ret => .ok (0, .array ret)) := by
  rw [redisReplyZip, listTable_values]
  rfl

/-- The array that `hgetall` returns for the pairs of a hash. -/
def zipped (pairs : List (Bytes × Bytes)) : HashTable :=
  OrderedMap.insertAll [] (fieldEntries pairs)

theorem zipped_of_nodup {pairs : List (Bytes × Bytes)} (h : (pairs.map Prod.fst).Nodup) :
    zipped pairs = fieldEntries pairs := by
  have hkeys : (fieldEntries pairs).map Prod.fst = (pairs.map Prod.fst).map Key.ofString := by
    simp [fieldEntries]
  refine OrderedMap.insertAll_of_nodup ?_
  rw [List.nil_append, hkeys]
  exact Key.nodup_ofString h

/-- Zipping stores the pairs in order. The pairs of distinct fields come back as
they were, and an element without a partner is ignored. -/
theorem zip_undoes_flattening (pairs : List (Bytes × Bytes)) :
    redisReplyZip (.array (listTable (flattened pairs))) = .ok (0, .array (zipped pairs)) ∧
      ((pairs.map Prod.fst).Nodup →
        (zipped pairs).map (fun e => (e.1.text, e.2)) = pairs.map fun p => (p.1, .string p.2)) ∧
      ∀ k, redisReplyZip (.array (listTable (flattened pairs ++ [.string k]))) =
        .ok (0, .array (zipped pairs)) := by
  refine ⟨?_, ?_, ?_⟩
  · rw [redisReplyZip_listTable, ← List.append_nil (flattened pairs), zipPairs_flattened]
    rfl
  · intro h
    rw [zipped_of_nodup h]
    simp [fieldEntries]
  · intro k
    rw [redisReplyZip_listTable, zipPairs_flattened]
    rfl

/-- Numbers and other names. -/
theorem zip_undoes_flattening_two :
    (zipped [(ascii "7", ascii "a"), (ascii "07", ascii "b")]).map (fun e => (e.1.text, e.2)) =
      [(ascii "7", .string (ascii "a")), (ascii "07", .string (ascii "b"))] :=
  (zip_undoes_flattening [(ascii "7", ascii "a"), (ascii "07", ascii "b")]).2.1 (by decide)

theorem zipFields_eq (fields : List Bytes) (vs : List Zval) :
    zipFields fields vs =
      OrderedMap.insertAll [] ((fields.zip vs).map fun e => (.ofString e.1, e.2)) := by
  rw [zipFields, OrderedMap.insertAll, List.foldl_map]

theorem keys_zipFields {fields : List Bytes} {vs : List Zval} {k : Key}
    (h : k ∈ (zipFields fields vs).map Prod.fst) : ∃ f ∈ fields, k = .ofString f := by
  rw [zipFields_eq] at h
  have hk := OrderedMap.keys_insertAll_subset _ _ h
  simp only [List.map_nil, List.nil_append, List.map_map, List.mem_map, Function.comp_apply] at hk
  obtain ⟨e, he, rfl⟩ := hk
  exact ⟨e.1, (List.of_mem_zip he).1, rfl⟩

def hmgetValue (fields : List Bytes) : Reply → Zval
  | .array elems => .array (zipFields fields (elems.map Reply.value))
  | _ => .null

theorem hmget_result {key : Zval} {fields params : List Zval} (h : FieldsForm key fields params)
    (hne : fields ≠ []) {e : Reply}
    (hlen : ∀ elems, e = .array elems → elems.length = fields.length) :
    (Command.hmget params).result e =
      .ok (hmgetValue (fields.map Zval.convertToString) e) := by
  cases e with
  | array elems => exact h.result hne (hlen elems rfl)
  | status text =>
      rw [Command.result, Reply.value]
      split <;> rfl
  | _ =>
      rw [Command.result, Reply.value]
      rfl

/-- A direct command whose reply arrives whole returns its result, or fails with it. -/
theorem Command.run_arrives {peer : Peer σ} {s : RedisSock σ}
    (hdirect : s.pipeline = 0 ∧ s.multi = 0)
    {c : Command} (hfit : c.Fits) {ws : Request} (hc : c.sent = some ws) {e : Reply}
    (he : e.Sound 2) {S : Bytes} {tail : List ReadResult}
    (harrives : Arrives peer (redisAppend (redisSockGet s).ctx (encodeRequest ws)) (e.encode ++ S)
    tail) :
    ∃ s', c.run peer s = (c.result e >>= fun z => .ok (.value z, s')) := by
  obtain ⟨ctx, hread⟩ := harrives.readInto he (show _ = redisReplyReaderCreate callMem from rfl)
    (show callMem returnValue = some .null from rfl)
  refine ⟨{ redisEnqueue { redisSockGet s with
    ctx := redisAppend (redisSockGet s).ctx (encodeRequest ws) } c.validator none with ctx := ctx },
      ?_⟩
  rw [Command.run_eq peer s hfit, Command.spec, hc]
  simp only [runRequest]
  rw [redisRunEnd_direct peer (by exact hdirect)]
  simp only [hread, Outcome.ok_bind, Outcome.pure_eq, Command.result, bind_assoc]

/-- A direct `hmget`, with its fields in either form, returns them with the
elements of the reply, and `NULL` for a reply that is no array. -/
theorem hmget_zips {peer : Peer σ} {s : RedisSock σ} (hdirect : s.pipeline = 0 ∧ s.multi = 0)
    {key : Zval} {fields params : List Zval} (hform : FieldsForm key fields params)
    (hne : fields ≠ []) {e : Reply} (he : e.Sound 2)
    (hlen : ∀ elems, e = .array elems → elems.length = fields.length) {S : Bytes}
    {tail : List ReadResult}
    (harrives : Arrives peer (redisAppend (redisSockGet s).ctx (encodeRequest
      (ascii "HMGET" :: (key :: fields).map Zval.convertToString))) (e.encode ++ S) tail) :
    ∃ s', hmget peer s params =
        .ok (.value (hmgetValue (fields.map Zval.convertToString) e), s') ∧
      ∀ es, hmgetValue (fields.map Zval.convertToString) e = .array es →
        ∀ k ∈ es.map Prod.fst, ∃ f ∈ fields, k = .ofString f.convertToString := by
  have hfit : (Command.hmget params).Fits := (hform.vargArguments hne).1.room
  obtain ⟨s', hrun⟩ := Command.run_arrives hdirect hfit (hform.sent hne) he harrives
  rw [hmget_result hform hne hlen, Outcome.ok_bind] at hrun
  refine ⟨s', hrun, ?_⟩
  intro es hes k hk
  cases e with
  | array elems =>
      obtain rfl := Zval.array.inj hes
      obtain ⟨f, hf, rfl⟩ := keys_zipFields hk
      obtain ⟨z, hz, rfl⟩ := List.mem_map.mp hf
      exact ⟨z, hz, rfl⟩
  | _ => cases hes

/-- A field that is set, and a numeric one that is not. -/
theorem hmget_zips_two :
    ∃ s', hmget (answering [.data ⟨ascii "*2\r\n$1\r\nv\r\n$-1\r\n", by decide⟩]) newConnection
        [.string (ascii "h"), .string (ascii "f"), .string (ascii "7")] =
      .ok (.value (.array [(.name (ascii "f"), .string (ascii "v")), (.index 7, .false)]), s') := by
  have he : (Reply.array [.bulk (ascii "v"), .nil]).Sound 2 := by
    simp [Reply.Sound]
    decide
  have harrives := (arrives_answering (quiet_data ⟨ascii "*2\r\n$1\r\nv\r\n$-1\r\n", by decide⟩) []
    (encodeRequest_ne_nil ([ascii "HMGET", ascii "h", ascii "f", ascii "7"]))).withReader
    (redisReplyReaderCreate callMem)
  have hform : FieldsForm (.string (ascii "h")) [.string (ascii "f"), .string (ascii "7")]
      [.string (ascii "h"), .string (ascii "f"), .string (ascii "7")] :=
    .separate fun _ h => by simp at h
  obtain ⟨s', hrun, -⟩ := @hmget_zips Unit _ newConnection ⟨rfl, rfl⟩ _ _ _ hform (by simp)
    _ he (fun elems h => by cases h; rfl) [] [] harrives
  refine ⟨s', hrun.trans ?_⟩
  rfl

end PhpHiredis
