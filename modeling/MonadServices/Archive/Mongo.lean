import Mathlib.Data.List.AList
import Mathlib.Logic.Relation
import MonadServices.Archive.Kv
import MonadServices.Lib.Bytes
import MonadServices.Lib.Chunks
import MonadServices.Lib.Result

/-!
# The store in MongoDB

A store may be a MongoDB collection. A value that is too long for a document is cut into
chunks; each of them is a document of its own, under the key of the value with the number of
the chunk at its end, and the document of the value itself names only how many there are.

**The chunks are documents like any other**: a scan returns their keys, deleting a value
leaves them behind, and a key that was never put can be read. The query of the logs index asks
for the value of a document and not for its number of chunks, so that it cannot
resolve a value that was cut. As long as no value is, the collection is a plain map
(`MonadServices.Archive.Mongo.refines_of_whole`).
-/

namespace MonadServices

namespace Archive

namespace Mongo

/-- A key, as a list of characters. -/
abbrev Key := List Char

/-- The number of bytes above which a value is cut: 15 MB. -/
@[irreducible] def chunkSize : ℕ := 1024 * 1024 * 15

theorem chunkSize_pos : 0 < chunkSize := by
  unfold chunkSize
  decide

theorem chunkSize_lt : chunkSize < 2 ^ 64 := by
  unfold chunkSize
  norm_num

/-- A document: a value, or the number of the chunks it was cut into. -/
structure KeyValueDocument where
  value : Option Bytes
  chunks : Option ℕ
  deriving DecidableEq

/-- A collection, with at most one document for each key. -/
abbrev Collection := AList fun _ : Key => KeyValueDocument

/-- How a read fails. -/
inductive ReadFault where
  | error (message : String)
  /-- A branch is reached that was taken to be unreachable. -/
  | unreachable (message : String)
  deriving DecidableEq

/-- The key of a chunk. -/
def chunkId (id : Key) (chunkIdx : ℕ) : Key := id ++ "_chunk_".toList ++ Nat.toDigits 10 chunkIdx

/-! ### Reading -/

/-- **The value of a document**, which may be in other documents. -/
def resolve (collection : Collection) (id : Key) (doc : KeyValueDocument) :
    Except ReadFault (Key × Bytes) :=
  match doc.value, doc.chunks with
  | some value, none => .ok (id, value)
  | none, some chunks => do
    let keys := (List.range chunks).map (chunkId id)
    -- Of the chunks, those that are there are read first.
    keys.forM fun key =>
      match collection.lookup key with
      | some chunk => chunk.value.elim (.error (.error "Chunk has no value")) fun _ => .ok ()
      | none => .ok ()
    let parts ← keys.mapM fun key =>
      let name := String.ofList key
      ((collection.lookup key).bind fun chunk => chunk.value).elim
        (.error (.error s!"Chunk not found for key: {name}")) .ok
    return (id, parts.flatten)
  | _, _ => .error (.unreachable "KeyValueDocument should either have value or chunks")

/-- Reads a value. -/
def get (collection : Collection) (key : Key) : Except ReadFault (Option Bytes) :=
  match collection.lookup key with
  | some doc => do
    let (_, bytes) ← resolve collection key doc
    return some bytes
  | none => .ok none

/-- Whether there is a value. -/
def isThere (collection : Collection) (key : Key) : Bool := (collection.lookup key).isSome

/-- Reads several values. -/
def bulkGet (collection : Collection) (keys : List Key) : Except ReadFault (List (Key × Bytes)) :=
  (collection.entries.filter fun entry => keys.contains entry.1).mapM fun entry =>
    resolve collection entry.1 entry.2

/-- The keys with a given beginning. -/
def scanPrefix (collection : Collection) (start : Key) : List Key :=
  collection.keys.filter fun key => start <+: key

/-- The value of a document that the query of the logs index has found: the query returns its
key and its value only. -/
def resolveFound (collection : Collection) (id : Key) (doc : KeyValueDocument) :
    Except ReadFault (Key × Bytes) :=
  resolve collection id { doc with chunks := none }

/-! ### Writing -/

/-- A value is cut. -/
def IsCut (data : Bytes) : Prop := chunkSize < data.length

instance (data : Bytes) : Decidable (IsCut data) := inferInstanceAs (Decidable (_ < _))

/-- The documents of the chunks of a value; their numbers are `u32`. -/
def chunkDocs (key : Key) (data : Bytes) : List (Key × KeyValueDocument) :=
  (chunks chunkSize data).zipIdx.map fun (chunk, chunkNum) =>
    (chunkId key (chunkNum % 2 ^ 32), ⟨some chunk, none⟩)

/-- The document of a value itself. -/
def mainDoc (data : Bytes) : KeyValueDocument :=
  if IsCut data then ⟨none, some ((data.length ⌈/⌉ chunkSize) % 2 ^ 32)⟩ else ⟨some data, none⟩

/-- `replace_one` with `upsert`, one document after the other. -/
def replaceAll (collection : Collection) (docs : List (Key × KeyValueDocument)) : Collection :=
  docs.foldl (fun c doc => c.insert doc.1 doc.2) collection

/-- **Puts a value.** -/
def put (collection : Collection) (key : Key) (data : Bytes) (policy : WritePolicy) :
    Collection × PutResult :=
  if IsCut data ∧ policy = .noClobber ∧ isThere collection key then (collection, .skipped)
  else
    let chunked := if IsCut data then replaceAll collection (chunkDocs key data) else collection
    match policy with
    | .noClobber =>
      -- `insert_one` fails if there is a document.
      if isThere chunked key then (chunked, .skipped)
      else (chunked.insert key (mainDoc data), .written)
    | .allowOverwrite => (chunked.insert key (mainDoc data), .written)

/-- Deletes a value. -/
def delete (collection : Collection) (key : Key) : Collection := collection.erase key

/-! ### Keys of chunks -/

variable {collection : Collection} {key : Key} {data : Bytes}

theorem chunkId_injective (id : Key) : Function.Injective (chunkId id) := by
  intro i j h
  have hdigits : Nat.toDigits 10 i = Nat.toDigits 10 j := List.append_cancel_left h
  rw [← Nat.ofDigitChars_ten_toDigits (n := i), hdigits, Nat.ofDigitChars_ten_toDigits]

/-- The key of a chunk is longer than that of its value. -/
theorem chunkId_ne (id : Key) (chunkIdx : ℕ) : chunkId id chunkIdx ≠ id := by
  intro h
  have hlen := congrArg List.length h
  simp only [chunkId, List.length_append] at hlen
  have hpos : 0 < "_chunk_".toList.length := by decide
  omega

theorem ne_of_mem_chunkDocs {doc : Key × KeyValueDocument} (h : doc ∈ chunkDocs key data) :
    key ≠ doc.1 := by
  obtain ⟨p, -, rfl⟩ := List.mem_map.mp h
  exact (chunkId_ne key _).symm

/-! ### The collection as a map -/

/-- An operation that writes. -/
inductive Op where
  | put (key : Key) (data : Bytes) (policy : WritePolicy)
  | delete (key : Key)

/-- What an operation does to the collection. -/
def Op.apply (collection : Collection) : Op → Collection
  | .put key data policy => (Mongo.put collection key data policy).1
  | .delete key => Mongo.delete collection key

/-- What an operation does to a plain map. -/
def Op.spec (m : Key → Option Bytes) : Op → Key → Option Bytes
  | .put key data policy => (Archive.put m key data policy).1
  | .delete key => Function.update m key none

/-- **The collection reads as the map.** -/
structure Refines (collection : Collection) (m : Key → Option Bytes) : Prop where
  get : ∀ key, Mongo.get collection key = .ok (m key)
  bulkGet : ∀ keys, ∃ found, Mongo.bulkGet collection keys = .ok found ∧
    ∀ key data, (key, data) ∈ found ↔ key ∈ keys ∧ m key = some data
  isThere : ∀ key, Mongo.isThere collection key = (m key).isSome
  scanPrefix : ∀ start, (Mongo.scanPrefix collection start).Nodup ∧
    ∀ key, key ∈ Mongo.scanPrefix collection start ↔ (m key).isSome ∧ start <+: key
  resolveFound : ∀ key doc, collection.lookup key = some doc →
    ∃ data, m key = some data ∧ Mongo.resolveFound collection key doc = .ok (key, data)

/-- An operation that cuts no value: a value it puts is short, or is skipped because there is
one. -/
def Op.Whole (m : Key → Option Bytes) : Op → Prop
  | .put key data policy => ¬IsCut data ∨ (policy = .noClobber ∧ (m key).isSome)
  | .delete _ => True

/-- A step of the collection together with the map, by an operation that is `allowed`. -/
def Step (allowed : (Key → Option Bytes) → Op → Prop)
    (s s' : Collection × (Key → Option Bytes)) : Prop :=
  ∃ op, allowed s.2 op ∧ s' = (op.apply s.1, op.spec s.2)

variable {m : Key → Option Bytes} {op : Op}

/-- The collection holds the values of the map, each in one document. -/
def Plain (collection : Collection) (m : Key → Option Bytes) : Prop :=
  ∀ key, collection.lookup key = (m key).map fun data => ⟨some data, none⟩

theorem Plain.isThere (h : Plain collection m) (key : Key) :
    Mongo.isThere collection key = (m key).isSome := by
  rw [Mongo.isThere, h key, Option.isSome_map]

theorem Plain.resolve (h : Plain collection m) {doc : KeyValueDocument}
    (hdoc : collection.lookup key = some doc) :
    ∃ data, m key = some data ∧ doc = ⟨some data, none⟩ := by
  rw [h key, Option.map_eq_some_iff] at hdoc
  obtain ⟨data, hdata, rfl⟩ := hdoc
  exact ⟨data, hdata, rfl⟩

/-- **A collection of whole values reads as the map.** -/
theorem Plain.refines (h : Plain collection m) : Refines collection m where
  get := by
    intro key
    unfold Mongo.get
    cases hdoc : collection.lookup key with
    | none =>
      rw [h key, Option.map_eq_none_iff] at hdoc
      rw [hdoc]
    | some doc =>
      obtain ⟨data, hdata, rfl⟩ := h.resolve hdoc
      rw [hdata]
      rfl
  bulkGet := by
    intro keys
    -- Each document that is found is resolved to its own value.
    have hdocs : ∀ entry ∈ collection.entries.filter fun entry => keys.contains entry.1,
        Mongo.resolve collection entry.1 entry.2 = .ok (entry.1, entry.2.value.getD []) := by
      intro entry hentry
      have hlookup : collection.lookup entry.1 = some entry.2 :=
        AList.mem_lookup_iff.mpr (List.mem_filter.mp hentry).1
      obtain ⟨data, -, hdata⟩ := h.resolve hlookup
      rw [hdata]
      rfl
    refine ⟨_, mapM_eq_ok_map hdocs, fun key data => ?_⟩
    simp only [List.mem_map, List.mem_filter, List.contains_iff_mem, Prod.mk.injEq]
    constructor
    · rintro ⟨entry, ⟨hmem, hkeys⟩, rfl, rfl⟩
      have hlookup : collection.lookup entry.1 = some entry.2 := AList.mem_lookup_iff.mpr hmem
      obtain ⟨data, hdata, hdoc⟩ := h.resolve hlookup
      refine ⟨hkeys, ?_⟩
      rw [hdoc]
      exact hdata
    · rintro ⟨hkeys, hdata⟩
      refine ⟨⟨key, ⟨some data, none⟩⟩, ⟨?_, hkeys⟩, rfl, rfl⟩
      refine AList.mem_lookup_iff.mp ?_
      rw [h key, hdata]
      rfl
  isThere := h.isThere
  scanPrefix := by
    intro start
    refine ⟨collection.keys_nodup.filter _, fun key => ?_⟩
    simp only [Mongo.scanPrefix, List.mem_filter, decide_eq_true_eq]
    rw [← AList.mem_keys, ← AList.lookup_isSome, h key, Option.isSome_map]
  resolveFound := by
    intro key doc hdoc
    obtain ⟨data, hdata, rfl⟩ := h.resolve hdoc
    exact ⟨data, hdata, rfl⟩

/-- A value that is not cut is put as into a map. -/
theorem Plain.put (h : Plain collection m) {policy : WritePolicy}
    (hwhole : Op.Whole m (.put key data policy)) :
    Plain (Mongo.put collection key data policy).1 (Archive.put m key data policy).1 := by
  have hthere := h.isThere key
  have hinsert : ¬IsCut data → Plain (collection.insert key (mainDoc data))
      (Function.update m key (some data)) := by
    intro hcut key'
    rcases eq_or_ne key' key with rfl | hne
    · rw [AList.lookup_insert, Function.update_self, mainDoc, if_neg hcut]
      rfl
    · rw [AList.lookup_insert_ne hne, Function.update_of_ne hne, h key']
  rcases em (IsCut data) with hcut | hcut
  · -- A value that is cut is skipped.
    obtain ⟨rfl, hsome⟩ := hwhole.resolve_left fun hnot => hnot hcut
    rw [Mongo.put, if_pos ⟨hcut, rfl, by rw [hthere, hsome]⟩, Archive.put, if_pos ⟨rfl, hsome⟩]
    exact h
  · rw [Mongo.put, if_neg fun hskip => hcut hskip.1, if_neg hcut]
    cases policy with
    | allowOverwrite =>
      rw [Archive.put, if_neg fun hskip => (by cases hskip.1)]
      exact hinsert hcut
    | noClobber =>
      simp only [hthere]
      by_cases hsome : (m key).isSome = true
      · rw [if_pos hsome, Archive.put, if_pos ⟨rfl, hsome⟩]
        exact h
      · rw [if_neg hsome, Archive.put, if_neg fun hskip => hsome hskip.2]
        exact hinsert hcut

theorem Plain.step (h : Plain collection m) (hwhole : op.Whole m) :
    Plain (op.apply collection) (op.spec m) := by
  cases op with
  | put key data policy => exact h.put hwhole
  | delete key =>
    intro key'
    rcases eq_or_ne key' key with rfl | hne
    · rw [Op.apply, Mongo.delete, AList.lookup_erase, Op.spec, Function.update_self]
      rfl
    · rw [Op.apply, Mongo.delete, AList.lookup_erase_ne hne, Op.spec, Function.update_of_ne hne,
        h key']

/-- **The collection refines a plain map** in every run in which no value is cut. -/
theorem refines_of_whole {s : Collection × (Key → Option Bytes)}
    (hrun : Relation.ReflTransGen (Step fun m op => op.Whole m) (∅, fun _ => none) s) :
    Refines s.1 s.2 := by
  have hplain : Plain s.1 s.2 := by
    induction hrun with
    | refl =>
      intro key
      exact AList.lookup_empty key
    | tail _ hstep ih =>
      obtain ⟨op, hwhole, rfl⟩ := hstep
      exact ih.step hwhole
  exact hplain.refines

/-- A value is put, kept from being overwritten, and deleted. -/
theorem refines_of_whole_run :
    ∃ s : Collection × (Key → Option Bytes), get s.1 ['a'] = .ok (some [1]) ∧
      get s.1 ['b'] = .ok none ∧ isThere s.1 ['b'] = false := by
  have hshort : ∀ b : UInt8, ¬IsCut [b] := by
    intro b
    unfold IsCut chunkSize
    simp
  have hrun : Relation.ReflTransGen (Step fun m op => op.Whole m) (∅, fun _ => none)
      (_, Op.spec (Op.spec (Op.spec (Op.spec (fun _ => none) (.put ['a'] [1] .noClobber))
        (.put ['b'] [2] .allowOverwrite)) (.put ['a'] [3] .noClobber)) (.delete ['b'])) :=
    .head ⟨.put ['a'] [1] .noClobber, Or.inl (hshort 1), rfl⟩ <|
    .head ⟨.put ['b'] [2] .allowOverwrite, Or.inl (hshort 2), rfl⟩ <|
    .head ⟨.put ['a'] [3] .noClobber, Or.inl (hshort 3), rfl⟩ <|
    .head ⟨.delete ['b'], trivial, rfl⟩ .refl
  have hrefines := refines_of_whole hrun
  exact ⟨_, hrefines.get ['a'], hrefines.get ['b'], hrefines.isThere ['b']⟩

/-! ### A value that is cut -/

theorem mem_replaceAll {docs : List (Key × KeyValueDocument)} :
    key ∈ replaceAll collection docs ↔ key ∈ collection ∨ key ∈ docs.map Prod.fst := by
  induction docs generalizing collection with
  | nil => simp [replaceAll]
  | cons doc docs ih =>
    have hcons : replaceAll collection (doc :: docs) =
        replaceAll (collection.insert doc.1 doc.2) docs := rfl
    rw [hcons, ih, AList.mem_insert, List.map_cons, List.mem_cons]
    tauto

/-- The first chunk is a document of its own. -/
theorem chunkId_mem_put (hcut : IsCut data) :
    chunkId key 0 ∈ (put collection key data .allowOverwrite).1 := by
  have hne : data ≠ [] := by
    rintro rfl
    exact Nat.not_lt_zero _ hcut
  rw [put, if_neg fun hskip => (by cases hskip.2.1), if_pos hcut]
  refine (AList.mem_insert _).mpr (Or.inr (mem_replaceAll.mpr (Or.inr ?_)))
  rw [chunkDocs, chunks_of_ne_nil chunkSize_pos hne, List.zipIdx_cons]
  exact List.mem_cons_self

/-- A scan returns its key. -/
theorem chunkId_mem_scanPrefix (hcut : IsCut data) :
    chunkId key 0 ∈ scanPrefix (Op.apply collection (.put key data .allowOverwrite)) [] := by
  rw [scanPrefix, List.mem_filter]
  exact ⟨AList.mem_keys.mp (chunkId_mem_put hcut), by simp⟩

/-- A value that is one byte too long. -/
@[irreducible] def longData (b : UInt8) : Bytes := List.replicate (chunkSize + 1) b

theorem isCut_longData (b : UInt8) : IsCut (longData b) := by
  unfold IsCut longData
  rw [List.length_replicate]
  exact Nat.lt_succ_self _

/-- A scan after one put returns the key of a chunk, which was never put. -/
theorem chunk_key_scanned :
    ¬ ∀ s : Collection × (Key → Option Bytes),
      Relation.ReflTransGen (Step fun _ _ => True) (∅, fun _ => none) s → Refines s.1 s.2 := by
  intro h
  have hrefines := h (Op.apply ∅ (.put ['k'] (longData 0) .allowOverwrite),
    Op.spec (fun _ => none) (.put ['k'] (longData 0) .allowOverwrite))
    (.single ⟨.put ['k'] (longData 0) .allowOverwrite, trivial, rfl⟩)
  have hscan : chunkId ['k'] 0 ∈
      scanPrefix (Op.apply ∅ (.put ['k'] (longData 0) .allowOverwrite)) [] :=
    chunkId_mem_scanPrefix (isCut_longData 0)
  have hsome := (((hrefines.scanPrefix []).2 _).mp hscan).1
  simp only [Op.spec] at hsome
  rw [put_of_ne (chunkId_ne _ _)] at hsome
  cases hsome

end Mongo

end Archive

end MonadServices
