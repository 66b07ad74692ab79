import MonadServices.Query.Read
import MonadServices.Query.Writer.Run

/-!
# What the tables say after a flush

The three promises of the index, each for the tables that **any run** leaves at a
successful flush: a bitmap page lists exactly the committed records that carry its
filter (`MonadServices.Query.bitmap_exact`), a payload is read back from where its
location says (`MonadServices.Query.payload_readback`), and the metadata tables number
the records without gaps and agree with a writer that is opened anew
(`MonadServices.Query.metadata_agreement`).

All three are read off `MonadServices.Query.consistent_flush`: a row comes from the view
at some frontier at or beyond the committed one, and below the committed frontier all
these views agree.
-/

namespace MonadServices

namespace Query

/-! ### What is committed -/

/-- The ids that a state has committed. -/
def StateIndex.Committed (s : StateIndex) : Family → ℕ → Prop
  | .blockHeader, id => ∃ start, s.indexedStart = some start ∧ start ≤ id ∧ id < s.nextBlockId
  | .transaction, id => id < s.nextTxId
  | .log, id => id < s.nextLogId
  | .trace, id => id < s.nextTraceId

/-- The first id of a family that was ever committed. -/
def StateIndex.firstId (s : StateIndex) : Family → ℕ
  | .blockHeader => s.indexedStart.getD 0
  | _ => 0

section Committed

variable {ext : Externals} {chain : Chain} {w : QueryWriter} {n hi : ℕ} {t : Tables}

theorem WriterAt.committed_iff (h : WriterAt chain ext w n n) {family : Family} {id : ℕ} :
    w.state.Committed family id ↔
      chain.base family ≤ id ∧ id < chain.frontier family n := by
  rcases h.state with hs | ⟨rfl, hs, -⟩
  · rw [hs]
    cases family with
    | blockHeader =>
      rw [Chain.frontier_blockHeader h.le_length]
      simp [StateIndex.Committed, Chain.stateAt, Chain.base]
    | transaction => simp [StateIndex.Committed, Chain.stateAt, Chain.base]
    | log => simp [StateIndex.Committed, Chain.stateAt, Chain.base]
    | trace => simp [StateIndex.Committed, Chain.stateAt, Chain.base]
  · rw [hs, Chain.frontier_zero]
    cases family with
    | blockHeader =>
      simp [StateIndex.Committed, StateIndex.default]
    | transaction => simp [StateIndex.Committed, StateIndex.default]
    | log => simp [StateIndex.Committed, StateIndex.default]
    | trace => simp [StateIndex.Committed, StateIndex.default]

/-- Below the committed frontier, the tables are those of the view. -/
theorem Consistent.location_eq {s : System} (hc : Consistent chain ext s n hi) {family : Family}
    {id : ℕ} (hbase : chain.base family ≤ id) (hlt : id < chain.frontier family n) :
    s.tables (.payloadLocation family id) = some (.ok (chain.payloadEnd ext family id n)) := by
  obtain ⟨j, hnj, -, hj⟩ := hc.stored.between (.payloadLocation family id)
  have hmono := chain.frontier_mono family hnj
  rw [hj]
  simp only [Chain.view]
  rw [if_pos ⟨hbase, by omega⟩, Chain.payloadEnd_eq hnj hlt]

end Committed

/-! ### Bitmap pages -/

/-- The positions of a stored page; an absent page is empty. -/
def storedBitmap (t : Tables) (key : BitmapIndexKey) : Except QueryError (Finset ℕ) :=
  (rowValue (t (.bitmapIndex key))).map fun row => (row.map BitmapIndexValue.bitmap).getD ∅

theorem storedBitmap_view {ext : Externals} {chain : Chain} {key : BitmapIndexKey} {t : Tables}
    {j : ℕ} (h : t (.bitmapIndex key) = chain.view ext j (.bitmapIndex key)) :
    storedBitmap t key = .ok (chain.bits ext key j) := by
  unfold storedBitmap
  rw [h]
  simp only [Chain.view]
  split_ifs with hempty
  · rw [hempty]
    rfl
  · rfl

/-- **The positions of a page** are those of the committed ids whose records carry the filter. -/
theorem WriterAt.mem_bits {ext : Externals} {chain : Chain} {w : QueryWriter} {n : ℕ}
    (hat : WriterAt chain ext w n n) {key : BitmapIndexKey} {x : ℕ}
    (hx : w.state.Committed key.family (key.page + x)) : x ∈ chain.bits ext key n ↔
      pageOf (key.page + x) = key.page ∧
        ∃ r values, chain.recordAt key.family (key.page + x) = some r ∧
          r.bitmapFilters ext = .ok values ∧ key.filter ∈ values := by
  obtain ⟨hbase, hlt⟩ := hat.committed_iff.mp hx
  rw [Chain.mem_bits]
  refine and_congr_right fun _ => ⟨?_, ?_⟩
  · rintro ⟨r, hmem, hfilter⟩
    obtain ⟨values, hvalues, hfilter⟩ := Record.mem_filters.mp hfilter
    exact ⟨r, values, Chain.recordAt_eq hmem, hvalues, hfilter⟩
  · rintro ⟨r, values, hrecord, hvalues, hfilter⟩
    obtain ⟨r', hmem⟩ := Chain.exists_mem_entries hbase hlt
    obtain rfl : r = r' := Option.some.inj (hrecord.symm.trans (Chain.recordAt_eq hmem))
    exact ⟨r, hmem, Record.mem_filters.mpr ⟨values, hvalues, hfilter⟩⟩

section Results

variable (ext : Externals) (chain : Chain) (ops : List Op) (faults : List Fault)
  (w w' : QueryWriter) (t' : Tables)

/-- **The bitmap index is exact**: after a successful flush at the end of any run, a
stored page contains a committed id if and only if the id is on the page and its record
carries the filter. -/
theorem bitmap_exact (hw : (run ext chain ops).writer = some w)
    (hflush : w.flush ext faults (run ext chain ops).tables = (.ok (), w', t'))
    (key : BitmapIndexKey) :
    ∃ bitmap, storedBitmap t' key = .ok bitmap ∧
      ∀ x, w'.state.Committed key.family (key.page + x) →
        (x ∈ bitmap ↔ pageOf (key.page + x) = key.page ∧
          ∃ r values, chain.recordAt key.family (key.page + x) = some r ∧
            r.bitmapFilters ext = .ok values ∧ key.filter ∈ values) := by
  obtain ⟨n, hi, hat, hc⟩ := consistent_flush hw hflush
  obtain ⟨j, hnj, -, hj⟩ := hc.stored.between (.bitmapIndex key)
  refine ⟨_, storedBitmap_view hj, fun x hx => ?_⟩
  have hbits : x ∈ chain.bits ext key j ↔ x ∈ chain.bits ext key n := by
    rw [Chain.mem_bits_iff hnj, and_iff_left (hat.committed_iff.mp hx).2]
  rw [hbits, hat.mem_bits hx]

end Results

/-- A chain of three blocks, for examples. -/
def sampleChain : Chain := Chain.sample 0 [0, 0x05a56e2d52c817161883f50c441c3228cfe54d9f, 0]
  (by decide)

/-- A run that has flushed the first block, and holds the second one. -/
def sampleOps : List Op := [.openWriter [], .append 0, .flush [], .append 1]

/-- The writer of this run. -/
def sampleWriter : QueryWriter :=
  ⟨⟨some 0, 1, 0, 0, 0⟩,
    some (word 0xd4e56740f876aef8c010b86a40d5f56745a118d0906a34e69aec8c0db1cb8fa3),
    [QueryWriterBlock.sample 1 0x05a56e2d52c817161883f50c441c3228cfe54d9f]⟩

/-- What its flush leaves. -/
def sampleFlush : Except Stop Unit × QueryWriter × Tables :=
  sampleWriter.flush Externals.sample [] (run Externals.sample sampleChain sampleOps).tables

theorem sampleOps_writer :
    (run Externals.sample sampleChain sampleOps).writer = some sampleWriter := by
  decide +kernel

theorem sampleFlush_ok : sampleFlush.1 = .ok () := by decide +kernel

theorem sampleFlush_eq : sampleFlush = (.ok (), sampleFlush.2.1, sampleFlush.2.2) := by
  rw [← sampleFlush_ok]

/-- The page of the blocks that the second block's miner has mined. -/
def sampleKey : BitmapIndexKey :=
  ⟨.blockHeader, .miner ⟨toBe 20 0x05a56e2d52c817161883f50c441c3228cfe54d9f, length_toBe 20 _⟩, 0⟩

theorem bitmap_exact_sample :
    ∃ bitmap, storedBitmap sampleFlush.2.2 sampleKey = .ok bitmap ∧
      ∀ x, sampleFlush.2.1.state.Committed sampleKey.family (sampleKey.page + x) →
        (x ∈ bitmap ↔ pageOf (sampleKey.page + x) = sampleKey.page ∧
          ∃ r values, sampleChain.recordAt sampleKey.family (sampleKey.page + x) = some r ∧
            r.bitmapFilters Externals.sample = .ok values ∧ sampleKey.filter ∈ values) :=
  bitmap_exact Externals.sample sampleChain sampleOps [] sampleWriter sampleFlush.2.1
    sampleFlush.2.2 sampleOps_writer sampleFlush_eq sampleKey

/-! ### Payloads -/

section Payload

variable {ext : Externals} {chain : Chain} {w : QueryWriter} {s : System} {n hi : ℕ}

theorem WriterAt.firstId_eq (h : WriterAt chain ext w n n) {family : Family} {id : ℕ}
    (hid : w.state.Committed family id) : w.state.firstId family = chain.base family := by
  rcases h.state with hs | ⟨-, hs, -⟩
  · rw [hs]
    cases family <;> rfl
  · cases family with
    | blockHeader =>
      obtain ⟨start, hstart, -⟩ := hid
      simp [hs, StateIndex.default] at hstart
    | transaction => rfl
    | log => rfl
    | trace => rfl

theorem Consistent.ids_lt_frontier (hc : Consistent chain ext s n hi) (family : Family) :
    chain.frontier family n < 2 ^ 64 :=
  (chain.frontier_mono family hc.le).trans_lt (hc.ids_lt family)

/-- The range of a committed payload is that of the view. -/
theorem Consistent.payloadRange_eq (hc : Consistent chain ext s n hi) {family : Family} {id : ℕ}
    (hbase : chain.base family ≤ id) (hlt : id < chain.frontier family n) :
    payloadRange s.tables (chain.base family) family id =
      some (chain.payloadStart ext family id n, chain.payloadEnd ext family id n) := by
  have h64 := hc.ids_lt_frontier family
  unfold payloadRange payloadLocation
  rw [Chain.payloadStart_eq (by omega) (by omega), hc.location_eq hbase hlt]
  split_ifs with hfirst
  · rfl
  · rw [not_or] at hfirst
    rw [hc.location_eq (by omega) (by omega)]
    rfl

/-- **A committed payload is read back.** -/
theorem Consistent.getMany_eq (hc : Consistent chain ext s n hi) {family : Family} {r : Record}
    {id : ℕ} (he : (r, id) ∈ chain.entries family n) :
    ∃ blob, s.tables (.payload (PayloadKey.fromId family id)) = some (.ok blob) ∧
      chain.payloadStart ext family id n < chain.payloadEnd ext family id n ∧
      chain.payloadEnd ext family id n ≤ blob.length ∧
      ∃ b : PartitionItemBoundaries,
        b.ranges = [(chain.payloadStart ext family id n, chain.payloadEnd ext family id n)] ∧
        getMany ext s.tables (PayloadKey.fromId family id) b = .ok (some [r.encode ext]) := by
  obtain ⟨j, hnj, -, hj⟩ := hc.stored.between (.payload (PayloadKey.fromId family id))
  have hej : (r, id) ∈ chain.entries family j := ((Chain.mem_entries_iff hnj).mp he).1
  have hpos : 0 < (ext.compress (r.encode ext)).length :=
    List.length_pos_iff.mpr (ext.compress_ne_nil _)
  -- The place of the payload is the same at both frontiers.
  obtain ⟨hendn, -, -⟩ := Chain.payload_slice ext he
  obtain ⟨hendj, hle, hslice⟩ := Chain.payload_slice ext hej
  have hend : chain.payloadEnd ext family id j = chain.payloadEnd ext family id n :=
    Chain.payloadEnd_eq hnj (Chain.lt_frontier he)
  have hstart : chain.payloadStart ext family id j = chain.payloadStart ext family id n := by
    dsimp only at hendn hendj
    omega
  have hrow : s.tables (.payload (PayloadKey.fromId family id)) =
      some (.ok (blobOf ext (chain.blobEntries (PayloadKey.fromId family id) j))) := by
    rw [hj]
    simp only [Chain.view]
    rw [if_neg (List.ne_nil_of_mem (Chain.mem_blobEntries.mpr ⟨hej, rfl⟩))]
  dsimp only at hendn hendj hle hslice
  rw [hend] at hle
  have hvalid : boundariesValid
      [(chain.payloadStart ext family id n, chain.payloadEnd ext family id n)] = true := by
    simp [boundariesValid]
    omega
  refine ⟨_, hrow, by omega, hle, ⟨_, hvalid⟩, rfl, ?_⟩
  have hrange : getRange s.tables (PayloadKey.fromId family id)
      (chain.payloadStart ext family id n) (chain.payloadEnd ext family id n) =
        .ok (some (ext.compress (r.encode ext))) := by
    unfold getRange
    rw [if_neg (by omega), hrow]
    simp only [rowValue]
    rw [if_neg (by omega), hendn, Nat.add_sub_cancel_left, ← hstart, hslice]
  simp only [getMany, PartitionItemBoundaries.range, List.head?_cons, List.getLast?_singleton,
    Option.map_some, Option.getD_some, hrange]
  simp only [Nat.sub_self, List.drop_zero, hendn, Nat.add_sub_cancel_left, List.take_length,
    List.mapM_cons, List.mapM_nil, payloadItemDecode_compress (hc.admissible.size family _ he)]
  rfl

end Payload

/-- **Payloads are read back**: after a successful flush at the end of any run, the byte
range of a committed id lies in the blob of its partition, after the ranges of the ids
before it, and reading it gives the coded record. -/
theorem payload_readback (ext : Externals) (chain : Chain) (ops : List Op) (faults : List Fault)
    (w w' : QueryWriter) (t' : Tables) (hw : (run ext chain ops).writer = some w)
    (hflush : w.flush ext faults (run ext chain ops).tables = (.ok (), w', t'))
    (family : Family) (id : ℕ) (hid : w'.state.Committed family id) :
    ∃ r startOffset endOffset blob, chain.recordAt family id = some r ∧
      payloadRange t' (w'.state.firstId family) family id = some (startOffset, endOffset) ∧
      t' (.payload (PayloadKey.fromId family id)) = some (.ok blob) ∧
      startOffset < endOffset ∧ endOffset ≤ blob.length ∧
      (∃ b : PartitionItemBoundaries, b.ranges = [(startOffset, endOffset)] ∧
        getMany ext t' (PayloadKey.fromId family id) b = .ok (some [r.encode ext])) ∧
      ∀ id' startOffset' endOffset', id' < id → w'.state.Committed family id' →
        PayloadKey.fromId family id' = PayloadKey.fromId family id →
        payloadRange t' (w'.state.firstId family) family id' = some (startOffset', endOffset') →
          endOffset' ≤ startOffset := by
  obtain ⟨n, hi, hat, hc⟩ := consistent_flush hw hflush
  obtain ⟨hbase, hlt⟩ := hat.committed_iff.mp hid
  obtain ⟨r, hr⟩ := Chain.exists_mem_entries hbase hlt
  obtain ⟨blob, hblob, hse, hle, hread⟩ := hc.getMany_eq hr
  rw [hat.firstId_eq hid]
  refine ⟨r, _, _, blob, Chain.recordAt_eq hr, hc.payloadRange_eq hbase hlt, hblob, hse, hle,
    hread, ?_⟩
  intro id' startOffset' endOffset' hid' hcommitted hkey hrange
  obtain ⟨hbase', hlt'⟩ := hat.committed_iff.mp hcommitted
  have heq := (hc.payloadRange_eq hbase' hlt').symm.trans hrange
  obtain ⟨-, rfl⟩ := Prod.mk.inj (Option.some.inj heq)
  exact Chain.payloadEnd_le_payloadStart hid' hkey

theorem sampleFlush_state : sampleFlush.2.1.state = ⟨some 0, 2, 0, 0, 0⟩ := by decide +kernel

theorem sampleFlush_committed {id : ℕ} (h : id < 2) :
    sampleFlush.2.1.state.Committed .blockHeader id := by
  rw [sampleFlush_state]
  exact ⟨0, rfl, Nat.zero_le _, h⟩

theorem payload_readback_sample :
    ∃ r startOffset endOffset blob, sampleChain.recordAt .blockHeader 1 = some r ∧
      payloadRange sampleFlush.2.2 (sampleFlush.2.1.state.firstId .blockHeader) .blockHeader 1 =
        some (startOffset, endOffset) ∧
      sampleFlush.2.2 (.payload (PayloadKey.fromId .blockHeader 1)) = some (.ok blob) ∧
      startOffset < endOffset ∧ endOffset ≤ blob.length ∧
      (∃ b : PartitionItemBoundaries, b.ranges = [(startOffset, endOffset)] ∧
        getMany Externals.sample sampleFlush.2.2 (PayloadKey.fromId .blockHeader 1) b =
          .ok (some [r.encode Externals.sample])) ∧
      ∀ id' startOffset' endOffset', id' < 1 →
        sampleFlush.2.1.state.Committed .blockHeader id' →
        PayloadKey.fromId .blockHeader id' = PayloadKey.fromId .blockHeader 1 →
        payloadRange sampleFlush.2.2 (sampleFlush.2.1.state.firstId .blockHeader) .blockHeader id' =
          some (startOffset', endOffset') → endOffset' ≤ startOffset :=
  payload_readback Externals.sample sampleChain sampleOps [] sampleWriter sampleFlush.2.1
    sampleFlush.2.2 sampleOps_writer sampleFlush_eq .blockHeader 1
    (sampleFlush_committed (by decide))

/-! ### Metadata -/

section Metadata

variable {ext : Externals} {chain : Chain} {w : QueryWriter} {s : System} {n hi : ℕ}

/-- The ids of a family in a block of the chain. -/
def Chain.idsOf (chain : Chain) (family : Family) (height : ℕ) : FamilyMetadata :=
  ⟨chain.frontier family (height - chain.start),
    chain.frontier family (height - chain.start + 1) - chain.frontier family (height - chain.start)⟩

theorem Chain.idsOf_end (family : Family) (i : ℕ) :
    (chain.idsOf family (chain.start + i)).firstPrimaryId +
      (chain.idsOf family (chain.start + i)).count = chain.frontier family (i + 1) := by
  have := chain.frontier_mono family (Nat.le_add_right i 1)
  simp only [Chain.idsOf, Nat.add_sub_cancel_left]
  omega

theorem Consistent.family_row (hc : Consistent chain ext s n hi) (family : Family) {i : ℕ}
    (hin : i < n) : s.tables (.family family (chain.start + i)) =
      some (.ok (chain.idsOf family (chain.start + i))) := by
  obtain ⟨j, hnj, hjhi, hj⟩ := hc.stored.between (.family family (chain.start + i))
  obtain ⟨block, hb⟩ : ∃ block, chain.blocks[i]? = some block :=
    ⟨_, List.getElem?_eq_getElem (by have := hc.le_length; omega)⟩
  rw [hj, Chain.view_family family (by omega) hb]
  simp [Chain.idsOf, Chain.frontier_succ hb]

/-- **A seek finds the block of a committed id**, over the blocks that have no records
of the family and whatever rows uncommitted blocks have left. -/
theorem Consistent.seekLe_eq (hc : Consistent chain ext s n hi) {family : Family} {id i : ℕ}
    (hin : i < n) (hle : chain.frontier family i ≤ id) (hlt : id < chain.frontier family (i + 1)) :
    seekLe s.tables family id = .ok (some (chain.frontier family i, chain.start + i)) := by
  refine Query.seekLe_eq ?_ hle fun k hk hkid => ?_
  · obtain ⟨j, hnj, -, hj⟩ :=
      hc.stored.between (.familyBlockIndex family (chain.frontier family i))
    rw [hj, Chain.view_familyBlockIndex (by omega) (by omega)]
  · obtain ⟨j, -, -, hj⟩ := hc.stored.between (.familyBlockIndex family k)
    rw [hj]
    simp only [Chain.view, Option.map_eq_none_iff]
    by_contra hcon
    obtain ⟨height, hheight⟩ := Option.ne_none_iff_exists'.mp hcon
    obtain ⟨i', -, -, hi', -⟩ := Chain.blockOfFirst_eq_some.mp hheight
    rcases Nat.lt_or_ge i i' with h | h
    · have := chain.frontier_mono family (Nat.lt_iff_add_one_le.mp h)
      omega
    · have := chain.frontier_mono family h
      omega

theorem openWriter_eq {t : Tables} {row : StateIndexRow} {height : ℕ} {hash : B256}
    (hstate : t .stateIndex = some (.ok row)) (hlast : lastBlockId row.decode = some height)
    (hhash : t (.blockHash height) = some (.ok hash)) :
    openWriter [] t = (.ok ⟨row.decode, some hash, []⟩, t, []) := by
  simp [openWriter, initTables, get, Faulty.read, bind, hstate, rowValue, Except.mapError, hlast,
    hhash, pure]

end Metadata

/-- What the metadata tables say about a family: the ranges of the committed blocks
follow each other and end at the frontier, and a seek finds the only block of an id. -/
structure FamilyAgrees (t : Tables) (state : StateIndex) (family : Family)
    (ranges : ℕ → FamilyMetadata) : Prop where
  row : ∀ height, state.Committed .blockHeader height →
    t (.family family height) = some (.ok (ranges height))
  contiguous : ∀ height, state.Committed .blockHeader height →
    state.Committed .blockHeader (height + 1) →
      (ranges (height + 1)).firstPrimaryId =
        (ranges height).firstPrimaryId + (ranges height).count
  disjoint : ∀ height height', state.Committed .blockHeader height →
    state.Committed .blockHeader height' → height < height' →
      (ranges height).firstPrimaryId + (ranges height).count ≤ (ranges height').firstPrimaryId
  frontier : ∀ height, state.Committed .blockHeader height → height + 1 = state.nextBlockId →
    (ranges height).firstPrimaryId + (ranges height).count = state.frontier family
  seek : ∀ id, state.Committed family id → ∃ first height,
    seekLe t family id = .ok (some (first, height)) ∧ state.Committed .blockHeader height ∧
    ((ranges height).firstPrimaryId ≤ id ∧
      id < (ranges height).firstPrimaryId + (ranges height).count) ∧
    ∀ height', state.Committed .blockHeader height' →
      (ranges height').firstPrimaryId ≤ id →
      id < (ranges height').firstPrimaryId + (ranges height').count → height' = height

section Agreement

variable {ext : Externals} {chain : Chain} {w : QueryWriter} {t : Tables} {n hi : ℕ}

theorem WriterAt.committed_block (h : WriterAt chain ext w n n) {height : ℕ} :
    w.state.Committed .blockHeader height ↔ ∃ i, i < n ∧ height = chain.start + i := by
  rw [h.committed_iff, Chain.frontier_blockHeader h.le_length, Chain.base_blockHeader]
  constructor
  · rintro ⟨hle, hlt⟩
    exact ⟨height - chain.start, by omega, by omega⟩
  · rintro ⟨i, hi, rfl⟩
    omega

theorem WriterAt.frontier_eq (h : WriterAt chain ext w n n) (hpos : 0 < n) (family : Family) :
    w.state.frontier family = chain.frontier family n := by
  have hs : w.state = chain.stateAt n := by
    rcases h.state with hs | ⟨h0, -⟩
    · exact hs
    · omega
  rw [hs]
  cases family with
  | blockHeader => exact (Chain.frontier_blockHeader h.le_length).symm
  | transaction => rfl
  | log => rfl
  | trace => rfl

theorem Consistent.familyAgrees (hc : Consistent chain ext ⟨some w, t⟩ n hi)
    (hat : WriterAt chain ext w n n) (family : Family) :
    FamilyAgrees t w.state family (chain.idsOf family) where
  row height hheight := by
    obtain ⟨i, hi, rfl⟩ := hat.committed_block.mp hheight
    exact hc.family_row family hi
  contiguous height hheight _ := by
    obtain ⟨i, -, rfl⟩ := hat.committed_block.mp hheight
    rw [Chain.idsOf_end]
    simp [Chain.idsOf, Nat.add_assoc]
  disjoint height height' hheight hheight' hlt := by
    obtain ⟨i, -, rfl⟩ := hat.committed_block.mp hheight
    obtain ⟨i', -, rfl⟩ := hat.committed_block.mp hheight'
    rw [Chain.idsOf_end]
    simp only [Chain.idsOf, Nat.add_sub_cancel_left]
    exact chain.frontier_mono family (by omega)
  frontier height hheight hlast := by
    obtain ⟨i, hi, rfl⟩ := hat.committed_block.mp hheight
    have hnext := hat.frontier_eq (by omega) .blockHeader
    rw [Chain.frontier_blockHeader hat.le_length] at hnext
    rw [Chain.idsOf_end, hat.frontier_eq (by omega)]
    congr 1
    simp only [StateIndex.frontier] at hnext
    omega
  seek id hid := by
    obtain ⟨hbase, hlt⟩ := hat.committed_iff.mp hid
    obtain ⟨i, hin, hle, hlt⟩ := Chain.exists_block_of_id hbase hlt
    refine ⟨_, _, hc.seekLe_eq hin hle hlt, hat.committed_block.mpr ⟨i, hin, rfl⟩, ⟨?_, ?_⟩, ?_⟩
    · simpa [Chain.idsOf] using hle
    · rwa [Chain.idsOf_end]
    · intro height' hheight' hle' hlt'
      obtain ⟨i', -, rfl⟩ := hat.committed_block.mp hheight'
      rw [Chain.idsOf_end] at hlt'
      simp only [Chain.idsOf, Nat.add_sub_cancel_left] at hle'
      rw [Chain.block_of_id_unique hle' hlt' hle hlt]

theorem Consistent.blockHash_row {s : System} (hc : Consistent chain ext s n hi) {i : ℕ}
    (hin : i < n) {block : QueryWriterBlock} (hb : chain.blocks[i]? = some block) :
    s.tables (.blockHash (chain.start + i)) = some (.ok (block.blockHash ext)) := by
  obtain ⟨j, hnj, -, hj⟩ := hc.stored.between (.blockHash (chain.start + i))
  rw [hj, Chain.view_blockHash (by omega) hb]

/-- A writer opened on the tables is the one that has flushed, if there is a block. -/
theorem Consistent.openWriter_eq (hc : Consistent chain ext ⟨some w, t⟩ n hi)
    (hat : WriterAt chain ext w n n) (hpos : 0 < n) :
    Query.openWriter [] t = (.ok w, t, []) := by
  have hn := hc.le.trans hc.le_length
  obtain ⟨last, hlast⟩ : ∃ last, chain.blocks[n - 1]? = some last :=
    ⟨_, List.getElem?_eq_getElem (by omega)⟩
  have hstate : t .stateIndex = some (.ok (chain.stateAt n).columns) :=
    hc.stored.state.trans (by simp [Chain.view, show n ≠ 0 by omega])
  have hhash : t (.blockHash (chain.start + n - 1)) = some (.ok (last.blockHash ext)) := by
    rw [Nat.add_sub_assoc (by omega)]
    exact hc.blockHash_row (by omega) hlast
  have hw : w = ⟨chain.stateAt n, some (last.blockHash ext), []⟩ := by
    obtain ⟨state, lastBlockHash, pending⟩ := w
    have h1 := hat.lastBlockHash
    have h2 := hat.pending
    rw [Chain.segment_of_le le_rfl] at h2
    simp only [Chain.hashBefore, show n ≠ 0 by omega, if_false, hlast, Option.map_some] at h1
    rcases hat.state with h3 | ⟨h3, -⟩
    · simp_all
    · omega
  rw [Query.openWriter_eq hstate (lastBlockId_stateAt (by omega)) hhash, columns_decode, hw]

end Agreement

/-- **Ids and metadata agree** after a successful flush at the end of any run: family by
family, the ranges of the committed blocks and the block index; the parent of a block
is the block before it; and, once there is a block, a writer opened on the tables has
the state, the last hash and the next block number of the one that has flushed. -/
theorem metadata_agreement (ext : Externals) (chain : Chain) (ops : List Op)
    (faults : List Fault) (w w' : QueryWriter) (t' : Tables)
    (hw : (run ext chain ops).writer = some w)
    (hflush : w.flush ext faults (run ext chain ops).tables = (.ok (), w', t')) :
    (∀ family, ∃ ranges, FamilyAgrees t' w'.state family ranges) ∧
    (∀ height block, w'.state.Committed .blockHeader height →
      w'.state.Committed .blockHeader (height + 1) →
      chain.blocks[height + 1 - chain.start]? = some block →
        t' (.blockHash height) = some (.ok block.parentHash)) ∧
    ((∃ height, w'.state.Committed .blockHeader height) →
      ∃ w'', openWriter [] t' = (.ok w'', t', []) ∧ w''.state = w'.state ∧
        w''.lastBlockHash = w'.lastBlockHash ∧ w''.nextBlockNumber = w'.nextBlockNumber) := by
  obtain ⟨n, hi, hat, hc⟩ := consistent_flush hw hflush
  refine ⟨fun family => ⟨_, hc.familyAgrees hat family⟩, ?_, ?_⟩
  · intro height block hheight hnext hblock
    obtain ⟨i, hin, rfl⟩ := hat.committed_block.mp hheight
    obtain ⟨i', hin', hi'⟩ := hat.committed_block.mp hnext
    obtain rfl : i' = i + 1 := by omega
    obtain ⟨previous, hprevious⟩ : ∃ previous, chain.blocks[i]? = some previous :=
      ⟨_, List.getElem?_eq_getElem (by have := hat.le_length; omega)⟩
    rw [show chain.start + i + 1 - chain.start = i + 1 by omega] at hblock
    rw [hat.linked i previous block hin' hprevious hblock]
    exact hc.blockHash_row hin hprevious
  · rintro ⟨height, hheight⟩
    obtain ⟨i, hin, -⟩ := hat.committed_block.mp hheight
    exact ⟨w', hc.openWriter_eq hat (by omega), rfl, rfl, rfl⟩

theorem metadata_agreement_sample :
    (∀ family, ∃ ranges, FamilyAgrees sampleFlush.2.2 sampleFlush.2.1.state family ranges) ∧
    (∀ height block, sampleFlush.2.1.state.Committed .blockHeader height →
      sampleFlush.2.1.state.Committed .blockHeader (height + 1) →
      sampleChain.blocks[height + 1 - sampleChain.start]? = some block →
        sampleFlush.2.2 (.blockHash height) = some (.ok block.parentHash)) ∧
    ∃ w'', openWriter [] sampleFlush.2.2 = (.ok w'', sampleFlush.2.2, []) ∧
      w''.state = sampleFlush.2.1.state ∧ w''.lastBlockHash = sampleFlush.2.1.lastBlockHash ∧
      w''.nextBlockNumber = sampleFlush.2.1.nextBlockNumber :=
  have h := metadata_agreement Externals.sample sampleChain sampleOps [] sampleWriter
    sampleFlush.2.1 sampleFlush.2.2 sampleOps_writer sampleFlush_eq
  ⟨h.1, h.2.1, h.2.2 ⟨0, sampleFlush_committed (by decide)⟩⟩

/-- **A start block is not stored before the first block**: a flush with nothing to
write succeeds, and a writer opened after it does not know the start. -/
theorem start_not_stored_before_first_block :
    ∃ w t,
      (run Externals.sample (Chain.sample 5 [] (by decide)) [.openWriter [], .startAt]).writer =
        some w ∧
      w.flush Externals.sample []
        (run Externals.sample (Chain.sample 5 [] (by decide)) [.openWriter [], .startAt]).tables =
          (.ok (), w, t) ∧
      ∃ w'', openWriter [] t = (.ok w'', t, []) ∧ w''.state ≠ w.state ∧
        w''.nextBlockNumber ≠ w.nextBlockNumber :=
  ⟨⟨⟨some 5, 5, 0, 0, 0⟩, none, []⟩, Tables.empty, by decide +kernel, rfl,
    ⟨StateIndex.default, none, []⟩, rfl, by decide, by decide⟩

end Query

end MonadServices
