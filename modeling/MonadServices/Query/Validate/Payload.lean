import MonadServices.Query.Validate.Basic

/-!
# The payloads the validator reads

The validator reads the payloads of a range of ids partition by partition, from the
locations of the ids and of the ones before them. What it gets is the stored payload
of each id, in the order of the ids (`MonadServices.Query.payloadsOf_ok`). It gets it
whenever the payloads are there, not empty and in order
(`MonadServices.Query.payloadsOf_eq`).
-/

namespace MonadServices

namespace Query

/-- The ids of a range. -/
def FamilyMetadata.ids (m : FamilyMetadata) : List ℕ := List.range' m.firstPrimaryId m.count

theorem FamilyMetadata.mem_ids {m : FamilyMetadata} {id : ℕ} :
    id ∈ m.ids ↔ m.firstPrimaryId ≤ id ∧ id < m.firstPrimaryId + m.count := by
  simp [FamilyMetadata.ids, List.mem_range'_1]

section Payload

variable {ext : Externals} {t : Tables} {family : Family}

theorem readRow_eq_ok {k : TableKey} {row : Option k.Value} :
    readRow t k = .ok row ↔ rowValue (t k) = .ok row := by
  rw [readRow, mapError_eq_ok]

theorem readRow_eq_some {k : TableKey} {value : k.Value} :
    readRow t k = .ok (some value) ↔ t k = some (.ok value) := by
  rw [readRow_eq_ok]
  rcases t k with _ | (e | value') <;> simp [rowValue]

theorem payloadIds_eq {m : FamilyMetadata} (h : m.firstPrimaryId + m.count < 2 ^ 64) :
    payloadIds m = .ok m.ids := by
  unfold payloadIds FamilyMetadata.ids
  rw [List.range'_eq_map_range]
  refine mapM_eq_ok_map fun offset hoffset => ?_
  have hlt := List.mem_range.mp hoffset
  rw [checkedAdd_eq_some.mpr ⟨rfl, by omega⟩]

/-! ### Locations -/

/-- The location rows of ids are readable. -/
def Readable (t : Tables) (family : Family) (id : ℕ) : Prop :=
  readRow t (.payloadLocation family id) = .ok (payloadLocation t family id)

theorem readRow_payloadLocation {id : ℕ} {row : Option ℕ}
    (h : readRow t (.payloadLocation family id) = .ok row) :
    row = payloadLocation t family id := by
  rw [readRow_eq_ok] at h
  unfold payloadLocation
  rcases hrow : t (.payloadLocation family id) with _ | (e | offset)
  · simpa [hrow, rowValue] using h.symm
  · simp [hrow, rowValue] at h
  · simpa [hrow, rowValue] using h.symm

theorem readable_of_some {id offset : ℕ} (h : payloadLocation t family id = some offset) :
    Readable t family id := by
  rw [Readable, h]
  exact readRow_eq_some.mpr (payloadLocation_eq_some.mp h)

theorem readLocations_eq {keys : List ℕ} (h : ∀ id ∈ keys, Readable t family id) :
    readLocations t family keys = .ok (keys.filterMap fun id =>
      (payloadLocation t family id).map fun offset => (id, offset)) := by
  unfold readLocations
  rw [mapM_eq_ok_map h]
  simp only [bind, Except.bind]
  rw [← List.map_prod_left_eq_zip, List.filterMap_map]
  rfl

theorem readLocations_ok {keys : List ℕ} {locations : List (ℕ × ℕ)}
    (h : readLocations t family keys = .ok locations) : ∀ id ∈ keys, Readable t family id := by
  obtain ⟨values, hvalues, -⟩ := bind_eq_ok.mp h
  rw [mapM_eq_ok] at hvalues
  clear h
  induction hvalues with
  | nil => simp
  | @cons id row ids rows hid _ ih =>
    intro id' hid'
    rcases List.mem_cons.mp hid' with rfl | hid'
    · rwa [readRow_payloadLocation hid] at hid
    · exact ih id' hid'

theorem lookupKey_locations {f : ℕ → Option ℕ} {keys : List ℕ} {id : ℕ} (h : id ∈ keys) :
    lookupKey id (keys.filterMap fun id => (f id).map fun offset => (id, offset)) = f id := by
  induction keys with
  | nil => simp at h
  | cons k keys ih =>
    rcases hf : f k with _ | offset
    · rw [List.filterMap_cons_none (by simp [hf])]
      by_cases hk : id ∈ keys
      · exact ih hk
      · obtain rfl : id = k := by simpa [hk] using h
        rw [hf]
        -- No later entry has this key.
        clear h ih
        induction keys with
        | nil => rfl
        | cons k' keys ih =>
          rw [List.mem_cons, not_or] at hk
          rcases hf' : f k' with _ | offset
          · rw [List.filterMap_cons_none (by simp [hf'])]
            exact ih hk.2
          · rw [List.filterMap_cons_some (b := (k', offset)) (by simp [hf']), lookupKey,
              if_neg (Ne.symm hk.1)]
            exact ih hk.2
    · rw [List.filterMap_cons_some (b := (k, offset)) (by simp [hf]), lookupKey]
      split_ifs with hk
      · rw [← hk, hf]
      · exact ih ((List.mem_cons.mp h).resolve_left (Ne.symm hk))

theorem mem_locationKeys {ids : List ℕ} {id : ℕ} (h : id ∈ ids) :
    id ∈ locationKeys ids ∧ (id ≠ partitionStart id → id - 1 ∈ locationKeys ids) := by
  unfold locationKeys
  simp only [List.mem_flatMap]
  refine ⟨⟨id, h, ?_⟩, fun hne => ⟨id, h, ?_⟩⟩
  · split_ifs <;> simp
  · have : partitionStart id ≤ id := Nat.div_mul_le_self id itemsPerBlob
    rw [if_pos (by omega)]
    simp

/-! ### Bounds -/

theorem payloadBounds_eq_ok {locations : List (ℕ × ℕ)} {id : ℕ} {b : ℕ × ℕ}
    (hid : lookupKey id locations = payloadLocation t family id)
    (hprev : id ≠ partitionStart id →
      lookupKey (id - 1) locations = payloadLocation t family (id - 1)) :
    payloadBounds family locations id = .ok b ↔
      payloadRange t 0 family id = some b ∧ b.1 ≤ b.2 := by
  have hstart : (if id = partitionStart id then some 0 else lookupKey (id - 1) locations) =
      if id = partitionStart id then some 0 else payloadLocation t family (id - 1) := by
    split_ifs with h
    · rfl
    · exact hprev h
  unfold payloadBounds
  rw [payloadRange_eq_some, hid, hstart]
  rcases payloadLocation t family id with _ | endOffset
  · simp
  · rcases (if id = partitionStart id then some 0 else payloadLocation t family (id - 1)) with
      _ | startOffset
    · simp
    · obtain ⟨s, e⟩ := b
      by_cases hlt : endOffset < startOffset
      · simp only [if_pos hlt, reduceCtorEq, Option.some.injEq, false_iff, not_and, not_le]
        rintro ⟨rfl, rfl⟩
        exact hlt
      · simp only [if_neg hlt, Except.ok.injEq, Prod.mk.injEq, Option.some.injEq]
        constructor
        · rintro ⟨rfl, rfl⟩
          exact ⟨⟨rfl, rfl⟩, not_lt.mp hlt⟩
        · rintro ⟨⟨rfl, rfl⟩, -⟩
          exact ⟨rfl, rfl⟩

/-- The bounds of the payload of an id. -/
def boundsOf (t : Tables) (family : Family) (id : ℕ) : ℕ × ℕ :=
  (payloadRange t 0 family id).getD (0, 0)

/-- The bounds of ids, partition by partition. -/
def partitionsOf (t : Tables) (family : Family) (ids : List ℕ) : List (ℕ × List (ℕ × ℕ)) :=
  collect Prod.fst (fun group p => group ++ [p.2]) []
    ((ids.map partitionStart).zip (ids.map (boundsOf t family)))

theorem mem_partitionsOf {ids : List ℕ} {k : ℕ} {group : List (ℕ × ℕ)} :
    (k, group) ∈ partitionsOf t family ids ↔ (∃ id ∈ ids, partitionStart id = k) ∧
      group = (ids.filter fun id => partitionStart id = k).map (boundsOf t family) := by
  have hfold : ∀ (l : List (ℕ × ℕ × ℕ)) (acc : List (ℕ × ℕ)),
      l.foldl (fun group p => group ++ [p.2]) acc = acc ++ l.map Prod.snd := by
    intro l
    induction l with
    | nil => simp
    | cons p l ih =>
      intro acc
      rw [List.foldl_cons, ih, List.map_cons, List.append_assoc, List.singleton_append]
  rw [partitionsOf, mem_collect, hfold, List.zip_map']
  simp only [List.mem_map, exists_exists_and_eq_and, List.nil_append, List.filter_map,
    List.map_map]
  rfl

/-- The location rows that the bounds of ids are made from. -/
theorem readable_locationKeys {ids : List ℕ}
    (h : ∀ id ∈ ids, ∃ b, payloadRange t 0 family id = some b) :
    ∀ id ∈ locationKeys ids, Readable t family id := by
  intro id hid
  unfold locationKeys at hid
  obtain ⟨id', hmem, hid⟩ := List.mem_flatMap.mp hid
  obtain ⟨b, hb⟩ := h id' hmem
  obtain ⟨hend, hstart⟩ := payloadRange_eq_some.mp hb
  split_ifs at hid with hlt
  · rcases List.mem_cons.mp hid with rfl | hid
    · rw [if_neg (by omega)] at hstart
      exact readable_of_some hstart
    · obtain rfl := List.mem_singleton.mp hid
      exact readable_of_some hend
  · obtain rfl := List.mem_singleton.mp hid
    exact readable_of_some hend

/-! ### Partitions -/

theorem fromId_partitionStart (family : Family) (id : ℕ) :
    PayloadKey.fromId family (partitionStart id) = PayloadKey.fromId family id := by
  unfold PayloadKey.fromId partitionStart
  rw [Nat.mul_div_cancel _ (by unfold itemsPerBlob; omega)]

theorem payload_partition_iff {id k : ℕ} {blob : Bytes} (hk : partitionStart id = k) :
    t (.payload (PayloadKey.fromId family k)) = some (.ok blob) ↔
      t (.payload (PayloadKey.fromId family id)) = some (.ok blob) := by
  rw [← hk, fromId_partitionStart]

/-- The bounds of an id are known, and not turned around. -/
def Bounded (t : Tables) (family : Family) (id : ℕ) : Prop :=
  payloadRange t 0 family id = some (boundsOf t family id) ∧
    (boundsOf t family id).1 ≤ (boundsOf t family id).2

theorem bounded_of_some {id : ℕ} {b : ℕ × ℕ} (h : payloadRange t 0 family id = some b)
    (hle : b.1 ≤ b.2) : Bounded t family id := by
  unfold Bounded boundsOf
  rw [h]
  exact ⟨rfl, hle⟩

/-- The payload of an id, with the id. -/
def itemOf (ext : Externals) (t : Tables) (family : Family) (id : ℕ) : ℕ × Bytes :=
  (id, (storedPayload ext t family id).getD [])

theorem payloadPartitions_eq {ids : List ℕ} {locations : List (ℕ × ℕ)}
    (hlookup : ∀ id ∈ locationKeys ids, lookupKey id locations = payloadLocation t family id) :
    (∀ partitions, payloadPartitions family locations ids = .ok partitions →
      ∀ id ∈ ids, Bounded t family id) ∧
    ((∀ id ∈ ids, Bounded t family id) → payloadPartitions family locations ids =
      .ok (partitionsOf t family ids)) := by
  have hbounds : ∀ id ∈ ids, ∀ b, payloadBounds family locations id = .ok b ↔
      payloadRange t 0 family id = some b ∧ b.1 ≤ b.2 := fun id hid b =>
    payloadBounds_eq_ok (hlookup id (mem_locationKeys hid).1)
      fun hne => hlookup _ ((mem_locationKeys hid).2 hne)
  constructor
  · intro partitions h
    obtain ⟨bounds, hb, -⟩ := bind_eq_ok.mp h
    rw [mapM_eq_ok, forall₂_congr_of_mem hbounds] at hb
    intro id hid
    obtain ⟨i, hi, rfl⟩ := List.mem_iff_getElem.mp hid
    obtain ⟨hrange, hle⟩ := (List.forall₂_iff_get.mp hb).2 i hi (hb.length_eq ▸ hi)
    exact bounded_of_some hrange hle
  · intro h
    unfold payloadPartitions
    rw [mapM_eq_ok_map fun id hid => (hbounds id hid _).mpr (h id hid)]
    rfl

/-- A piece of the blob of a partition is the stored payload of its id. -/
theorem storedPayload_eq_piece {id k : ℕ} {blob value : Bytes} (hbounded : Bounded t family id)
    (hk : partitionStart id = k)
    (hblob : t (.payload (PayloadKey.fromId family k)) = some (.ok blob))
    (hend : (boundsOf t family id).2 ≤ blob.length) :
    storedPayload ext t family id = some value ↔
      ext.decompress ((blob.drop (boundsOf t family id).1).take
        ((boundsOf t family id).2 - (boundsOf t family id).1)) maxPayloadSize = some value := by
  obtain ⟨hr, hle⟩ := hbounded
  rw [payload_partition_iff hk] at hblob
  rw [storedPayload_eq_some]
  constructor
  · rintro ⟨s, e, blob', hr', hblob', -, -, hvalue⟩
    obtain rfl : blob = blob' := by simpa [hblob] using hblob'
    rw [Option.some.inj (hr.symm.trans hr')]
    exact hvalue
  · intro hvalue
    exact ⟨_, _, blob, hr, hblob, hle, hend, hvalue⟩

theorem end_le_of_storedPayload {id k : ℕ} {blob : Bytes} (hbounded : Bounded t family id)
    (hk : partitionStart id = k)
    (hblob : t (.payload (PayloadKey.fromId family k)) = some (.ok blob))
    (h : ∃ item, storedPayload ext t family id = some item) :
    (boundsOf t family id).2 ≤ blob.length := by
  obtain ⟨item, hitem⟩ := h
  obtain ⟨s, e, blob', hr, hblob', -, hle, -⟩ := storedPayload_eq_some.mp hitem
  rw [payload_partition_iff hk] at hblob
  obtain rfl : blob = blob' := Except.ok.inj (Option.some.inj (hblob.symm.trans hblob'))
  rwa [Option.some.inj (hbounded.1.symm.trans hr)]

theorem readPartition_ok {ids : List ℕ} {k : ℕ} {items : List (ℕ × Bytes)}
    (hbounded : ∀ id ∈ ids, Bounded t family id)
    (h : readPartition ext t family ids
      (k, (ids.filter fun id => partitionStart id = k).map (boundsOf t family)) = .ok items) :
    (∀ id ∈ ids, partitionStart id = k → ∃ item, storedPayload ext t family id = some item) ∧
      items = (ids.filter fun id => partitionStart id = k).map (itemOf ext t family) := by
  unfold readPartition at h
  obtain ⟨b, hb, h⟩ := bind_eq_ok.mp h
  have hranges : b.ranges =
      (ids.filter fun id => partitionStart id = k).map (boundsOf t family) := by
    rw [mapError_eq_ok, PartitionItemBoundaries.new] at hb
    split_ifs at hb with hvalid
    rw [← Except.ok.inj hb]
  obtain ⟨values?, hvalues, h⟩ := bind_eq_ok.mp h
  obtain _ | values := values?
  · cases h
  dsimp only at h
  split_ifs at h with hlen
  obtain ⟨blob, hblob, -, hrange, hpieces⟩ := getMany_eq_some.mp (mapError_eq_ok.mp hvalues)
  rw [hranges, List.forall₂_map_left_iff] at hpieces
  have hstored : List.Forall₂ (fun id value => storedPayload ext t family id = some value)
      (ids.filter fun id => partitionStart id = k) values := by
    refine (forall₂_congr_of_mem fun id hid value => ?_).mp hpieces
    obtain ⟨hmem, hk⟩ := List.mem_filter.mp hid
    exact (storedPayload_eq_piece (hbounded id hmem) (of_decide_eq_true hk) hblob
      ((b.within (hranges ▸ List.mem_map_of_mem hid)).2.2.trans hrange)).symm
  obtain ⟨hsome, rfl⟩ := (forall₂_eq_some []).mp hstored
  refine ⟨fun id hid hk => hsome id (List.mem_filter.mpr ⟨hid, decide_eq_true hk⟩), ?_⟩
  rw [← Except.ok.inj h, ← List.map_prod_left_eq_zip]
  rfl

theorem readPartition_eq {ids : List ℕ} {k : ℕ} (hne : ∃ id ∈ ids, partitionStart id = k)
    (hbounded : ∀ id ∈ ids, Bounded t family id)
    (hpos : ∀ id ∈ ids, (boundsOf t family id).1 < (boundsOf t family id).2)
    (hsorted : ids.Pairwise fun id id' => partitionStart id = partitionStart id' →
      (boundsOf t family id).2 ≤ (boundsOf t family id').1)
    (hstored : ∀ id ∈ ids, ∃ item, storedPayload ext t family id = some item) :
    readPartition ext t family ids
      (k, (ids.filter fun id => partitionStart id = k).map (boundsOf t family)) =
        .ok ((ids.filter fun id => partitionStart id = k).map (itemOf ext t family)) := by
  obtain ⟨id₀, hid₀, hk₀⟩ := hne
  have hmem₀ : id₀ ∈ ids.filter fun id => partitionStart id = k :=
    List.mem_filter.mpr ⟨hid₀, decide_eq_true hk₀⟩
  have hvalid : boundariesValid
      ((ids.filter fun id => partitionStart id = k).map (boundsOf t family)) = true := by
    refine boundariesValid_iff.mpr ⟨?_, ?_, ?_⟩
    · simpa using ⟨id₀, hid₀, hk₀⟩
    · intro r hr
      obtain ⟨id, hid, rfl⟩ := List.mem_map.mp hr
      exact (hbounded id (List.mem_of_mem_filter hid)).2
    · rw [List.pairwise_map]
      refine (hsorted.filter _).imp_of_mem fun {id id'} hid hid' h => h ?_
      rw [of_decide_eq_true (List.mem_filter.mp hid).2,
        of_decide_eq_true (List.mem_filter.mp hid').2]
  have hnew : PartitionItemBoundaries.new
      ((ids.filter fun id => partitionStart id = k).map (boundsOf t family)) = .ok ⟨_, hvalid⟩ := by
    unfold PartitionItemBoundaries.new
    rw [dif_pos hvalid]
  have hmany : getMany ext t (PayloadKey.fromId family k) ⟨_, hvalid⟩ =
      .ok (some ((ids.filter fun id => partitionStart id = k).map
        fun id => (storedPayload ext t family id).getD [])) := by
    obtain ⟨item₀, hitem₀⟩ := hstored id₀ hid₀
    obtain ⟨s₀, e₀, blob, -, hblob₀, -⟩ := storedPayload_eq_some.mp hitem₀
    have hblob := (payload_partition_iff hk₀).mpr hblob₀
    have hwithin := PartitionItemBoundaries.within ⟨_, hvalid⟩ (List.mem_map_of_mem hmem₀)
    refine getMany_eq_some.mpr ⟨blob, hblob, ?_, ?_, ?_⟩
    · have := hpos id₀ hid₀
      omega
    · obtain ⟨r, hr, hlast⟩ := PartitionItemBoundaries.exists_range_end ⟨_, hvalid⟩
      obtain ⟨id, hid, rfl⟩ := List.mem_map.mp hr
      obtain ⟨hmem, hk⟩ := List.mem_filter.mp hid
      rw [hlast]
      exact end_le_of_storedPayload (hbounded id hmem) (of_decide_eq_true hk) hblob
        (hstored id hmem)
    · rw [List.forall₂_map_left_iff]
      refine (forall₂_congr_of_mem fun id hid value => ?_).mp
        ((forall₂_eq_some []).mpr ⟨fun id hid => hstored id (List.mem_of_mem_filter hid), rfl⟩)
      obtain ⟨hmem, hk⟩ := List.mem_filter.mp hid
      have hk := of_decide_eq_true hk
      exact storedPayload_eq_piece (hbounded id hmem) hk hblob
        (end_le_of_storedPayload (hbounded id hmem) hk hblob (hstored id hmem))
  unfold readPartition
  rw [hnew]
  simp only [bind, Except.bind, Except.mapError, hmany]
  rw [if_neg (by simp), ← List.map_prod_left_eq_zip]
  rfl

/-! ### All the payloads of a range -/

/-- The partitions of ids in order, one after the other, are the ids. -/
theorem flatMap_partitionsOf (m : FamilyMetadata) :
    ((partitionsOf t family m.ids).flatMap fun p =>
      (m.ids.filter fun id => partitionStart id = p.1).map (itemOf ext t family)) =
        m.ids.map (itemOf ext t family) := by
  have hids : m.ids.Pairwise fun id id' => partitionStart id ≤ partitionStart id' := by
    have hlt : m.ids.Pairwise (· < ·) := List.pairwise_lt_range'
    exact hlt.imp fun h => Nat.mul_le_mul_right _ (Nat.div_le_div_right h.le)
  have hkeys : (((m.ids.map partitionStart).zip (m.ids.map (boundsOf t family)))).Pairwise
      fun p p' => p.1 ≤ p'.1 := by
    rw [List.zip_map', List.pairwise_map]
    exact hids
  rw [← List.flatMap_map Prod.fst fun k =>
    (m.ids.filter fun id => partitionStart id = k).map (itemOf ext t family), ← List.map_flatMap,
    partitionsOf, flatMap_filter_eq (keys_collect_sorted hkeys) hids]
  intro id hid
  exact List.mem_map.mpr ⟨(partitionStart id, _), mem_partitionsOf.mpr ⟨⟨id, hid, rfl⟩, rfl⟩, rfl⟩

variable {m : FamilyMetadata} (hm : m.firstPrimaryId + m.count < 2 ^ 64)

include hm

/-- **What the validator reads** are the stored payloads. -/
theorem payloadsOf_ok {items : List (ℕ × Bytes)} (h : payloadsOf ext t family m = .ok items) :
    (∀ id ∈ m.ids, ∃ item, storedPayload ext t family id = some item) ∧
      items = m.ids.map (itemOf ext t family) := by
  unfold payloadsOf at h
  obtain ⟨ids, hids, h⟩ := bind_eq_ok.mp h
  rw [payloadIds_eq hm] at hids
  obtain rfl := Except.ok.inj hids
  obtain ⟨locations, hlocations, h⟩ := bind_eq_ok.mp h
  obtain ⟨partitions, hpartitions, h⟩ := bind_eq_ok.mp h
  obtain ⟨groups, hgroups, h⟩ := bind_eq_ok.mp h
  have hlookup : ∀ id ∈ locationKeys m.ids,
      lookupKey id locations = payloadLocation t family id := by
    intro id hid
    rw [readLocations_eq (readLocations_ok hlocations)] at hlocations
    rw [← Except.ok.inj hlocations]
    exact lookupKey_locations hid
  obtain ⟨hsound, hcomplete⟩ := payloadPartitions_eq hlookup
  have hbounded := hsound partitions hpartitions
  rw [hcomplete hbounded] at hpartitions
  obtain rfl := Except.ok.inj hpartitions
  have hgroup : ∀ p ∈ partitionsOf t family m.ids, ∀ items,
      readPartition ext t family m.ids p = .ok items →
        (∀ id ∈ m.ids, partitionStart id = p.1 →
          ∃ item, storedPayload ext t family id = some item) ∧
          items = (m.ids.filter fun id => partitionStart id = p.1).map (itemOf ext t family) := by
    rintro ⟨k, group⟩ hp items hitems
    obtain ⟨-, rfl⟩ := mem_partitionsOf.mp hp
    exact readPartition_ok hbounded hitems
  obtain ⟨rfl, hread⟩ :=
    eq_map_of_mapM hgroups fun p hp items hitems => (hgroup p hp items hitems).2
  constructor
  · intro id hid
    have hp : (partitionStart id, _) ∈ partitionsOf t family m.ids :=
      mem_partitionsOf.mpr ⟨⟨id, hid, rfl⟩, rfl⟩
    exact (hgroup _ hp _ (hread _ hp)).1 id hid rfl
  · rw [← Except.ok.inj h, ← List.flatMap_def, flatMap_partitionsOf]

/-- **The validator reads the payloads** that are there, not empty and in order. -/
theorem payloadsOf_eq (hbounded : ∀ id ∈ m.ids, Bounded t family id)
    (hpos : ∀ id ∈ m.ids, (boundsOf t family id).1 < (boundsOf t family id).2)
    (hsorted : m.ids.Pairwise fun id id' => partitionStart id = partitionStart id' →
      (boundsOf t family id).2 ≤ (boundsOf t family id').1)
    (hstored : ∀ id ∈ m.ids, ∃ item, storedPayload ext t family id = some item) :
    payloadsOf ext t family m = .ok (m.ids.map (itemOf ext t family)) := by
  have hread := readable_locationKeys fun id hid => ⟨_, (hbounded id hid).1⟩
  have hpartitions := (payloadPartitions_eq fun id hid => lookupKey_locations hid).2 hbounded
  have hgroups : (partitionsOf t family m.ids).mapM (readPartition ext t family m.ids) =
      .ok ((partitionsOf t family m.ids).map fun p =>
        (m.ids.filter fun id => partitionStart id = p.1).map (itemOf ext t family)) := by
    refine mapM_eq_ok_map ?_
    rintro ⟨k, group⟩ hp
    obtain ⟨hne, rfl⟩ := mem_partitionsOf.mp hp
    exact readPartition_eq hne hbounded hpos hsorted hstored
  unfold payloadsOf
  rw [payloadIds_eq hm]
  simp only [bind, Except.bind]
  rw [readLocations_eq hread]
  simp only [hpartitions, hgroups]
  rw [← List.flatMap_def, flatMap_partitionsOf]

end Payload

end Query

end MonadServices
