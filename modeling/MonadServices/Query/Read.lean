import MonadServices.Query.Tables

/-!
# Reading payloads

A partition blob is read by ranges: one read fetches the bytes from the start of the
first range to the end of the last, and each item is cut out of them and
decompressed. A list of ranges is accepted only when it is not empty and the ranges
are in order, and `MonadServices.Query.PartitionItemBoundaries` carries this with it, so
that cutting never leaves the bytes that were fetched.
-/

namespace MonadServices

namespace Query

/-- `BlobStore::get_range` on the payload table. -/
def getRange (t : Tables) (key : PayloadKey) (start endExclusive : ℕ) :
    Except QueryError (Option Bytes) :=
  if endExclusive ≤ start then .error (.decode "invalid blob range")
  else
    match rowValue (t (.payload key)) with
    | .error e => .error e
    | .ok none => .ok none
    | .ok (some blob) =>
      if blob.length < endExclusive then .error (.decode "blob range exceeds blob length")
      else .ok (some ((blob.drop start).take (endExclusive - start)))

/-- What `PartitionItemBoundaries::new` asks of ranges. -/
def boundariesValid (ranges : List (ℕ × ℕ)) : Bool :=
  ranges != [] && ranges.all (fun r => r.1 ≤ r.2) &&
    (ranges.zip ranges.tail).all fun p => p.1.2 ≤ p.2.1

/-- Ranges of items in a partition. -/
structure PartitionItemBoundaries where
  ranges : List (ℕ × ℕ)
  valid : boundariesValid ranges = true

namespace PartitionItemBoundaries

/-- `PartitionItemBoundaries::new`. -/
def new (ranges : List (ℕ × ℕ)) : Except QueryError PartitionItemBoundaries :=
  if h : boundariesValid ranges = true then .ok ⟨ranges, h⟩
  else .error (.decode "invalid partition item boundaries")

/-- `PartitionItemBoundaries::range`. -/
def range (b : PartitionItemBoundaries) : ℕ × ℕ :=
  ((b.ranges.head?.map Prod.fst).getD 0, (b.ranges.getLast?.map Prod.snd).getD 0)

end PartitionItemBoundaries

/-- `PayloadItem::decode`. -/
def payloadItemDecode (ext : Externals) (bytes : Bytes) : Except QueryError Bytes :=
  match ext.decompress bytes maxPayloadSize with
  | none => .error (.decode "invalid compressed payload")
  | some item => .ok item

/-- `PartitionSchemaBlobTable::get_many`. -/
def getMany (ext : Externals) (t : Tables) (key : PayloadKey) (b : PartitionItemBoundaries) :
    Except QueryError (Option (List Bytes)) :=
  match getRange t key b.range.1 b.range.2 with
  | .error e => .error e
  | .ok none => .ok none
  | .ok (some bytes) =>
    (b.ranges.mapM fun r => payloadItemDecode ext
      ((bytes.drop (r.1 - b.range.1)).take (r.2 - r.1))).map some

/-! ### What a read gives -/

/-- **What makes ranges valid**: there is one, none of them is turned around, and each
ends before those after it start. -/
theorem boundariesValid_iff {ranges : List (ℕ × ℕ)} : boundariesValid ranges = true ↔
    ranges ≠ [] ∧ (∀ r ∈ ranges, r.1 ≤ r.2) ∧ ranges.Pairwise (·.2 ≤ ·.1) := by
  have hpair : ∀ ranges : List (ℕ × ℕ), (∀ r ∈ ranges, r.1 ≤ r.2) →
      (((ranges.zip ranges.tail).all fun p => p.1.2 ≤ p.2.1) = true ↔
        ranges.Pairwise (·.2 ≤ ·.1)) := by
    intro ranges hle
    induction ranges with
    | nil => simp
    | cons r ranges ih =>
      have ih := ih fun q hq => hle q (List.mem_cons_of_mem r hq)
      cases ranges with
      | nil => simp
      | cons q ranges =>
        simp only [List.tail_cons, List.zip_cons_cons, List.all_cons, Bool.and_eq_true,
          decide_eq_true_eq] at ih ⊢
        rw [ih]
        constructor
        · rintro ⟨hrq, hq⟩
          refine List.pairwise_cons.mpr ⟨fun p hp => ?_, hq⟩
          rcases List.mem_cons.mp hp with rfl | hp
          · exact hrq
          · have h1 := hle q (by simp)
            have h2 := (List.pairwise_cons.mp hq).1 p hp
            omega
        · intro h
          obtain ⟨hr, hq⟩ := List.pairwise_cons.mp h
          exact ⟨hr q (by simp), hq⟩
  unfold boundariesValid
  simp only [Bool.and_eq_true, bne_iff_ne, ne_eq, List.all_eq_true, decide_eq_true_eq, and_assoc]
  refine and_congr_right fun _ => and_congr_right fun hle => ?_
  rw [← hpair ranges hle, List.all_eq_true]
  simp only [decide_eq_true_eq]

namespace PartitionItemBoundaries

variable {b : PartitionItemBoundaries}

/-- The ranges lie between the start of the first one and the end of the last one. -/
theorem within (b : PartitionItemBoundaries) {r : ℕ × ℕ} (hr : r ∈ b.ranges) :
    b.range.1 ≤ r.1 ∧ r.1 ≤ r.2 ∧ r.2 ≤ b.range.2 := by
  obtain ⟨ranges, hvalid⟩ := b
  dsimp only at hr
  obtain ⟨-, hle, hpair⟩ := boundariesValid_iff.mp hvalid
  refine ⟨?_, hle r hr, ?_⟩
  · cases ranges with
    | nil => simp at hr
    | cons q ranges =>
      rcases List.mem_cons.mp hr with rfl | hr
      · simp [range]
      · have h1 := (List.pairwise_cons.mp hpair).1 r hr
        have h2 := hle q (by simp)
        simp only [range, List.head?_cons, Option.map_some, Option.getD_some]
        omega
  · rcases List.eq_nil_or_concat ranges with rfl | ⟨init, q, rfl⟩
    · simp at hr
    · simp only [range, List.concat_eq_append, List.getLast?_concat, Option.map_some,
        Option.getD_some] at hr hpair hle ⊢
      rcases List.mem_append.mp hr with hr' | hr'
      · have h1 := (List.pairwise_append.mp hpair).2.2 r hr' q (by simp)
        have h2 := hle q (by simp)
        omega
      · rw [List.mem_singleton] at hr'
        rw [hr']

/-- The end of the last range is the end of a range. -/
theorem exists_range_end (b : PartitionItemBoundaries) : ∃ r ∈ b.ranges, b.range.2 = r.2 := by
  obtain ⟨ranges, hvalid⟩ := b
  rcases List.eq_nil_or_concat ranges with rfl | ⟨init, q, rfl⟩
  · exact absurd rfl (boundariesValid_iff.mp hvalid).1
  · exact ⟨q, by simp, by simp [range]⟩

end PartitionItemBoundaries

theorem payloadItemDecode_eq_ok {ext : Externals} {bytes item : Bytes} :
    payloadItemDecode ext bytes = .ok item ↔ ext.decompress bytes maxPayloadSize = some item := by
  unfold payloadItemDecode
  rcases ext.decompress bytes maxPayloadSize with _ | item' <;> simp

/-- **What is read from a blob**: the pieces between the bounds, decompressed. -/
theorem getMany_eq_some {ext : Externals} {t : Tables} {key : PayloadKey}
    {b : PartitionItemBoundaries} {values : List Bytes} :
    getMany ext t key b = .ok (some values) ↔
      ∃ blob, t (.payload key) = some (.ok blob) ∧ b.range.1 < b.range.2 ∧
        b.range.2 ≤ blob.length ∧
        List.Forall₂ (fun r value => ext.decompress ((blob.drop r.1).take (r.2 - r.1))
          maxPayloadSize = some value) b.ranges values := by
  -- A piece of the bytes fetched is the piece of the blob.
  have hpiece : ∀ blob : Bytes, ∀ r ∈ b.ranges,
      ((((blob.drop b.range.1).take (b.range.2 - b.range.1)).drop (r.1 - b.range.1)).take
        (r.2 - r.1)) = (blob.drop r.1).take (r.2 - r.1) := by
    intro blob r hr
    obtain ⟨h1, h2, h3⟩ := b.within hr
    rw [List.drop_take, List.drop_drop, List.take_take]
    congr 2
    · omega
    · omega
  unfold getMany getRange
  by_cases hlt : b.range.2 ≤ b.range.1
  · rw [if_pos hlt]
    simp only [reduceCtorEq, false_iff, not_exists, not_and]
    intro blob _ hcon
    omega
  · rw [if_neg hlt]
    rcases hrow : t (.payload key) with _ | (e | blob)
    · simp [rowValue]
    · simp [rowValue]
    · simp only [rowValue, Option.some.injEq, Except.ok.injEq, exists_eq_left']
      by_cases hlen : blob.length < b.range.2
      · simp only [if_pos hlen, reduceCtorEq, false_iff, not_and]
        intro _ hcon
        omega
      · simp only [if_neg hlen]
        rw [and_iff_right (by omega), and_iff_right (by omega)]
        have hmap : ∀ x : Except QueryError (List Bytes), x.map some = .ok (some values) ↔
            x = .ok values := by
          rintro (e | vs) <;> simp [Except.map]
        rw [hmap, mapM_eq_ok]
        refine forall₂_congr_of_mem fun r hr value => ?_
        rw [hpiece blob r hr, payloadItemDecode_eq_ok]

/-- A compressed record is read back. -/
theorem payloadItemDecode_compress {ext : Externals} {bytes : Bytes}
    (h : bytes.length ≤ maxPayloadSize) :
    payloadItemDecode ext (ext.compress bytes) = .ok bytes := by
  simp [payloadItemDecode, ext.decompress_compress bytes maxPayloadSize h]

/-! ### Stored payloads -/

/-- The end of a payload, by its location row. -/
def payloadLocation (t : Tables) (family : Family) (id : ℕ) : Option ℕ :=
  match t (.payloadLocation family id) with
  | some (.ok offset) => some offset
  | _ => none

/-- The byte range of a payload in its blob: from the end of the one before it, or from
the start of the blob for the first id of the partition or of the family. -/
def payloadRange (t : Tables) (first : ℕ) (family : Family) (id : ℕ) : Option (ℕ × ℕ) := do
  let endOffset ← payloadLocation t family id
  let startOffset ←
    if id = partitionStart id ∨ id = first then some 0 else payloadLocation t family (id - 1)
  some (startOffset, endOffset)

/-- The payload of an id: the bytes between its bounds in the blob of its partition,
decompressed. -/
def storedPayload (ext : Externals) (t : Tables) (family : Family) (id : ℕ) : Option Bytes :=
  match payloadRange t 0 family id, t (.payload (PayloadKey.fromId family id)) with
  | some (startOffset, endOffset), some (.ok blob) =>
    if startOffset ≤ endOffset ∧ endOffset ≤ blob.length then
      ext.decompress ((blob.drop startOffset).take (endOffset - startOffset)) maxPayloadSize
    else none
  | _, _ => none

theorem payloadLocation_eq_some {t : Tables} {family : Family} {id offset : ℕ} :
    payloadLocation t family id = some offset ↔
      t (.payloadLocation family id) = some (.ok offset) := by
  unfold payloadLocation
  rcases t (.payloadLocation family id) with _ | (e | offset') <;> simp

theorem payloadRange_eq_some {t : Tables} {family : Family} {id : ℕ} {b : ℕ × ℕ} :
    payloadRange t 0 family id = some b ↔ payloadLocation t family id = some b.2 ∧
      (if id = partitionStart id then some 0 else payloadLocation t family (id - 1)) =
        some b.1 := by
  have hfirst : (id = partitionStart id ∨ id = 0) ↔ id = partitionStart id := by
    refine or_iff_left_of_imp ?_
    rintro rfl
    rfl
  obtain ⟨s, e⟩ := b
  unfold payloadRange
  simp only [hfirst]
  rcases payloadLocation t family id with _ | endOffset
  · simp
  · split_ifs with h
    · simp [and_comm]
    · rcases payloadLocation t family (id - 1) with _ | startOffset <;> simp [and_comm]

theorem storedPayload_eq_some {ext : Externals} {t : Tables} {family : Family} {id : ℕ}
    {item : Bytes} : storedPayload ext t family id = some item ↔
      ∃ startOffset endOffset blob, payloadRange t 0 family id = some (startOffset, endOffset) ∧
        t (.payload (PayloadKey.fromId family id)) = some (.ok blob) ∧
        startOffset ≤ endOffset ∧ endOffset ≤ blob.length ∧
        ext.decompress ((blob.drop startOffset).take (endOffset - startOffset)) maxPayloadSize =
          some item := by
  unfold storedPayload
  rcases payloadRange t 0 family id with _ | ⟨startOffset, endOffset⟩
  · simp
  · rcases t (.payload (PayloadKey.fromId family id)) with _ | (e | blob)
    · simp
    · simp
    · by_cases h : startOffset ≤ endOffset ∧ endOffset ≤ blob.length
      · simp [h]
      · simp only [if_neg h, reduceCtorEq, Option.some.injEq, Prod.mk.injEq, Except.ok.injEq,
          false_iff, not_exists, not_and]
        rintro s e b ⟨rfl, rfl⟩ rfl h1 h2
        exact absurd ⟨h1, h2⟩ h

end Query

end MonadServices
