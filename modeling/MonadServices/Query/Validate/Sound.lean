import MonadServices.Query.Validate.Walk
import MonadServices.Query.Writer.Chain

/-!
# What an accepted index is good for

An index is **sound** (`MonadServices.Query.Sound`) when a reader can rely on it: the ids
of every family run through the blocks without gaps up to the frontier of the state, every
id has a payload that decodes, headers belong to their blocks, and every page that a stored
record maps to lists exactly the records that carry its filter. Nothing is asked about how
the tables were written.

The validator checks all of this but one thing: it does not compare the ids of the block
headers with the state. An index that it accepts is sound if and only if the ids of the
headers end at the next block (`MonadServices.Query.accepted_sound_iff`).
-/

namespace MonadServices

namespace Query

/-- A record is stored under an id of a block. -/
def StoredIn (ext : Externals) (t : Tables) (family : Family) (block : ℕ) (r : Record) (id : ℕ) :
    Prop :=
  ∃ m es, t (.family family block) = some (.ok m) ∧ storedRecords ext t family m = some es ∧
    (r, id) ∈ es

/-- An id between two blocks has a record that carries a filter. -/
def Carries (ext : Externals) (t : Tables) (start last : ℕ) (family : Family)
    (filter : BitmapFilterValue) (id : ℕ) : Prop :=
  ∃ block r values, start ≤ block ∧ block ≤ last ∧ StoredIn ext t family block r id ∧
    r.bitmapFilters ext = .ok values ∧ filter ∈ values

/-- **An index that can be relied on**, from the block `start` to the block `last`. -/
structure Sound (ext : Externals) (t : Tables) (state : StateIndex) (start last : ℕ) : Prop where
  ranges : ∀ family block, start ≤ block → block ≤ last →
    ∃ m, t (.family family block) = some (.ok m)
  contiguous : ∀ family block m m', start ≤ block → block < last →
    t (.family family block) = some (.ok m) → t (.family family (block + 1)) = some (.ok m') →
      m'.firstPrimaryId = m.firstPrimaryId + m.count
  frontier : ∀ family m, t (.family family last) = some (.ok m) →
    m.firstPrimaryId + m.count = state.frontier family
  payload : ∀ family block m, start ≤ block → block ≤ last →
    t (.family family block) = some (.ok m) → ∀ id ∈ m.ids,
      ∃ startOffset endOffset blob item rs,
        payloadRange t 0 family id = some (startOffset, endOffset) ∧
        t (.payload (PayloadKey.fromId family id)) = some (.ok blob) ∧
        startOffset ≤ endOffset ∧ endOffset ≤ blob.length ∧
        ext.decompress ((blob.drop startOffset).take (endOffset - startOffset)) maxPayloadSize =
          some item ∧
        decodeRecords ext family [item] = some rs
  header : ∀ block m, start ≤ block → block ≤ last →
    t (.family .blockHeader block) = some (.ok m) → ∀ id ∈ m.ids,
      ∃ item stored hash, storedPayload ext t .blockHeader id = some item ∧
        (StoredBlockQueryItem.codec ext).decode item = some stored ∧
        t (.blockHash block) = some (.ok hash) ∧
        stored.header.number.toNat = block ∧ ext.hashSlow stored.header = hash
  index : ∀ family block m, start ≤ block → block ≤ last →
    t (.family family block) = some (.ok m) → 0 < m.count →
      t (.familyBlockIndex family m.firstPrimaryId) = some (.ok block)
  bitmap : ∀ key : BitmapIndexKey,
    (∃ id, pageOf id = key.page ∧ Carries ext t start last key.family key.filter id) →
      ∃ value, t (.bitmapIndex key) = some (.ok value) ∧ ∀ x, x ∈ value.bitmap ↔
        pageOf (key.page + x) = key.page ∧
          Carries ext t start last key.family key.filter (key.page + x)

section Sound

variable {ext : Externals} {t : Tables} {start last : ℕ}

theorem mem_familyAdds {family : Family} {block : ℕ} {add : BitmapAdd} :
    add ∈ familyAdds ext t block family ↔
      ∃ r id filter, StoredIn ext t family block r id ∧ filter ∈ r.filters ext ∧
        add = (family, filter, id) := by
  constructor
  · intro hadd
    unfold familyAdds at hadd
    rcases hm : rangeOf t family block with _ | m
    · simp [hm] at hadd
    · simp only [hm, rangeAdds] at hadd
      obtain ⟨p, hp, rfl⟩ := List.mem_map.mp hadd
      obtain ⟨⟨r, id⟩, he, hp⟩ := List.mem_flatMap.mp hp
      obtain ⟨filter, hfilter, rfl⟩ := List.mem_map.mp hp
      rcases hes : storedRecords ext t family m with _ | es
      · simp [hes] at he
      · rw [hes, Option.getD_some] at he
        exact ⟨r, id, filter, ⟨m, es, rangeOf_eq_some.mp hm, hes, he⟩, hfilter, rfl⟩
  · rintro ⟨r, id, filter, ⟨m, es, hm, hes, he⟩, hfilter, rfl⟩
    rw [familyAdds_eq hm, rangeAdds, hes, Option.getD_some]
    exact List.mem_map.mpr ⟨(id, filter),
      List.mem_flatMap.mpr ⟨(r, id), he, List.mem_map.mpr ⟨filter, hfilter, rfl⟩⟩, rfl⟩

/-- **The positions that the validator expects** are those of the stored records. -/
theorem mem_allAdds {family : Family} {filter : BitmapFilterValue} {id : ℕ} :
    (family, filter, id) ∈ allAdds ext t start last ↔
      Carries ext t start last family filter id := by
  unfold allAdds blockAdds
  simp only [List.mem_flatMap, List.mem_range'_1]
  constructor
  · rintro ⟨block, ⟨hstart, hlast⟩, family', -, hadd⟩
    obtain ⟨r, id', filter', hstored, hfilter, heq⟩ := mem_familyAdds.mp hadd
    obtain ⟨rfl, rfl, rfl⟩ : family = family' ∧ filter = filter' ∧ id = id' := by simpa using heq
    obtain ⟨values, hvalues, hfilter⟩ := Record.mem_filters.mp hfilter
    exact ⟨block, r, values, hstart, by omega, hstored, hvalues, hfilter⟩
  · rintro ⟨block, r, values, hstart, hlast, hstored, hvalues, hfilter⟩
    exact ⟨block, ⟨hstart, by omega⟩, family, Family.mem_all family,
      mem_familyAdds.mpr ⟨r, id, filter, hstored, Record.mem_filters.mpr ⟨values, hvalues, hfilter⟩,
        rfl⟩⟩

/-- If payloads code records together, each of them codes a record. -/
theorem decodeRecords_singleton {family : Family} {payloads : List Bytes} {rs : List Record}
    (h : decodeRecords ext family payloads = some rs) {item : Bytes} (hitem : item ∈ payloads) :
    ∃ rs, decodeRecords ext family [item] = some rs := by
  cases family with
  | blockHeader =>
    obtain ⟨r, -, hr⟩ := exists_of_mapM_eq_some h hitem
    exact ⟨[r], mapM_eq_some.mpr (.cons hr .nil)⟩
  | transaction =>
    obtain ⟨r, -, hr⟩ := exists_of_mapM_eq_some h hitem
    exact ⟨[r], mapM_eq_some.mpr (.cons hr .nil)⟩
  | log =>
    obtain ⟨r, -, hr⟩ := exists_of_mapM_eq_some h hitem
    exact ⟨[r], mapM_eq_some.mpr (.cons hr .nil)⟩
  | trace =>
    obtain ⟨traces, htraces, -⟩ := Option.map_eq_some_iff.mp h
    obtain ⟨trace, -, htrace⟩ := exists_of_mapM_eq_some htraces hitem
    exact ⟨_, Option.map_eq_some_iff.mpr ⟨[trace], mapM_eq_some.mpr (.cons htrace .nil), rfl⟩⟩

/-- The payload of an id of a range in order, among those that code its records. -/
theorem RangeOk.decoded {block : ℕ} {family : Family} {m : FamilyMetadata}
    (h : RangeOk ext t block family m) {id : ℕ} (hid : id ∈ m.ids) :
    ∃ item rs, storedPayload ext t family id = some item ∧
      item ∈ (m.ids.map (itemOf ext t family)).map Prod.snd ∧
      decodeRecords ext family ((m.ids.map (itemOf ext t family)).map Prod.snd) = some rs ∧
      (family = .blockHeader → ∀ r ∈ rs, HeaderOk ext t block r) := by
  obtain ⟨items, hitems⟩ := h.payloads
  obtain ⟨hstored, -⟩ := payloadsOf_ok h.fits hitems
  obtain ⟨item, hitem⟩ := hstored id hid
  obtain ⟨es, hes⟩ := h.records
  obtain ⟨rs, hrs, rfl⟩ :=
    Option.map_eq_some_iff.mp ((storedRecords_eq hstored).symm.trans hes.stored)
  refine ⟨item, rs, hitem, ?_, hrs, fun hf => forall_mem_zipIdx.mp (hes.headers hf).2⟩
  rw [List.map_map]
  exact List.mem_map.mpr ⟨id, hid, by simp [itemOf, hitem]⟩

/-- The pages of a valid index. -/
theorem PagesExact.bitmap (h : PagesExact t (allAdds ext t start last)) {key : BitmapIndexKey}
    (hkey : ∃ id, pageOf id = key.page ∧ Carries ext t start last key.family key.filter id) :
    ∃ value, t (.bitmapIndex key) = some (.ok value) ∧ ∀ x, x ∈ value.bitmap ↔
      pageOf (key.page + x) = key.page ∧
        Carries ext t start last key.family key.filter (key.page + x) := by
  obtain ⟨id, hpage, hcarries⟩ := hkey
  have hadd := mem_allAdds.mpr hcarries
  have hkeyOf : keyOf (key.family, key.filter, id) = key := by rw [keyOf, hpage]
  -- The expected page is in the map, whatever its positions.
  obtain ⟨bits, hbits⟩ : ∃ bits, (key, bits) ∈ bitmapPages (allAdds ext t start last) :=
    ⟨_, mem_collect.mpr ⟨⟨_, hadd, hkeyOf⟩, rfl⟩⟩
  obtain ⟨value, hvalue, heq⟩ := h _ hbits
  refine ⟨value, hvalue, fun x => ?_⟩
  rw [heq, (mem_bitmapPages.mp hbits).2 x]
  constructor
  · rintro ⟨⟨family, filter, id'⟩, hadd', rfl, rfl⟩
    have hid : pageOf id' + (id' - pageOf id') = id' :=
      Nat.add_sub_cancel' (Nat.div_mul_le_self id' pageSpan)
    dsimp only [keyOf]
    rw [hid]
    exact ⟨rfl, mem_allAdds.mp hadd'⟩
  · rintro ⟨hpage', hcarries'⟩
    exact ⟨_, mem_allAdds.mpr hcarries', by rw [keyOf, hpage'], by dsimp only; omega⟩

/-- **A valid index is sound**, if the ids of the headers end where they should. -/
theorem Valid.sound {state : StateIndex} (h : Valid ext t state start last)
    (hheader : ∃ m, t (.family .blockHeader last) = some (.ok m) ∧
      m.firstPrimaryId + m.count = state.nextBlockId) : Sound ext t state start last := by
  have hrange : ∀ family block m, start ≤ block → block ≤ last →
      t (.family family block) = some (.ok m) →
        (idsBefore t family block).all (· = m.firstPrimaryId) = true ∧
          RangeOk ext t block family m := by
    intro family block m hstart hlast hm
    obtain ⟨m', hm', hall, hr⟩ := (h.blocks block hstart hlast).families family
    obtain rfl : m = m' := Except.ok.inj (Option.some.inj (hm.symm.trans hm'))
    exact ⟨hall, hr⟩
  constructor
  case ranges =>
    intro family block hstart hlast
    obtain ⟨m, hm, -⟩ := (h.blocks block hstart hlast).families family
    exact ⟨m, hm⟩
  case contiguous =>
    intro family block m m' hstart hlast hm hm'
    have hall := (hrange family (block + 1) m' (by omega) (by omega) hm').1
    rw [idsBefore_succ hm] at hall
    simpa [eq_comm] using hall
  case frontier =>
    intro family m hm
    by_cases hf : family = .blockHeader
    · subst hf
      obtain ⟨m', hm', hend⟩ := hheader
      obtain rfl : m = m' := Except.ok.inj (Option.some.inj (hm.symm.trans hm'))
      exact hend
    · have := h.frontiers family hf
      rw [idsBefore_succ hm] at this
      exact Option.some.inj this
  case payload =>
    intro family block m hstart hlast hm id hid
    obtain ⟨item, rs, hitem, hmem, hrs, -⟩ := (hrange family block m hstart hlast hm).2.decoded hid
    obtain ⟨startOffset, endOffset, blob, hbounds, hblob, hle, hend, hdec⟩ :=
      storedPayload_eq_some.mp hitem
    obtain ⟨rs', hrs'⟩ := decodeRecords_singleton hrs hmem
    exact ⟨startOffset, endOffset, blob, item, rs', hbounds, hblob, hle, hend, hdec, hrs'⟩
  case header =>
    intro block m hstart hlast hm id hid
    obtain ⟨item, rs, hitem, hmem, hrs, hok⟩ :=
      (hrange .blockHeader block m hstart hlast hm).2.decoded hid
    obtain ⟨r, hr, hdec⟩ := exists_of_mapM_eq_some hrs hmem
    obtain ⟨stored, hash, rfl, hhash, hnumber, heq⟩ := hok rfl r hr
    obtain ⟨stored', hstored', hinj⟩ := Option.map_eq_some_iff.mp hdec
    obtain rfl := Record.blockHeader.inj hinj
    exact ⟨item, stored', hash, hitem, hstored', hhash, hnumber, heq⟩
  case index =>
    intro family block m hstart hlast hm hcount
    exact (hrange family block m hstart hlast hm).2.indexed hcount
  case bitmap =>
    exact fun key hkey => h.pages.bitmap hkey

/-- **When an accepted index is sound**: the validator has checked everything but that the
ids of the headers end at the next block. -/
theorem accepted_sound_iff (ext : Externals) (t : Tables) (row : StateIndexRow) (start last : ℕ)
    (hrow : t .stateIndex = some (.ok row)) (hstart : row.indexedStart = start)
    (hlast : row.nextBlockId = last + 1)
    (hok : ∃ v, runValidation ext t start (some last) = .ok v) :
    Sound ext t row.decode start last ↔
      ∃ m, t (.family .blockHeader last) = some (.ok m) ∧
        m.firstPrimaryId + m.count = row.nextBlockId := by
  have hvalid := (runValidation_iff hrow hstart hlast).mp hok
  constructor
  · intro hsound
    obtain ⟨m, hm⟩ := hsound.ranges .blockHeader last hvalid.le le_rfl
    exact ⟨m, hm, hsound.frontier .blockHeader m hm⟩
  · exact hvalid.sound

end Sound

/-- The tables of a chain of one block. -/
def oneBlock : Tables := (Chain.sample 0 [0] (by decide)).view Externals.sample 1

theorem accepted_sound_iff_sample :
    Sound Externals.sample oneBlock ⟨some 0, 1, 0, 0, 0⟩ 0 0 :=
  (accepted_sound_iff Externals.sample oneBlock ⟨0, 1, 0, 0, 0⟩ 0 0 rfl rfl rfl
    (toBool_eq_true (by decide +kernel))).mpr ⟨⟨0, 1⟩, rfl, rfl⟩

/-- The tables of a block of which nothing is stored, not even its header. -/
def headerless : Tables
  | .stateIndex => some (.ok ⟨0, 1, 0, 0, 0⟩)
  | .blockHash 0 =>
    some (.ok (word 0xd4e56740f876aef8c010b86a40d5f56745a118d0906a34e69aec8c0db1cb8fa3))
  | .family _ 0 => some (.ok ⟨0, 0⟩)
  | _ => none

/-- They are accepted, although the ids of the headers do not reach the next block. -/
theorem headerless_accepted :
    (∃ v, runValidation Externals.sample headerless 0 (some 0) = .ok v) ∧
      ¬Sound Externals.sample headerless ⟨some 0, 1, 0, 0, 0⟩ 0 0 := by
  refine ⟨toBool_eq_true (by decide +kernel), fun h => ?_⟩
  have hend := h.frontier .blockHeader ⟨0, 0⟩ rfl
  exact absurd hend (by decide)

end Query

end MonadServices
