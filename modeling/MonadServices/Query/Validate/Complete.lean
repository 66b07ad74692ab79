import MonadServices.Query.Validate.Sound
import MonadServices.Query.Writer.Recovery

/-!
# Which written indexes the validator accepts

The tables that a run without failures leaves are those of the view of the chain
(`MonadServices.Query.tables_eq_view`), and the validator accepts them if they are valid
(`MonadServices.Query.runValidation_iff`); both sides are about tables, and no longer about
how they are written or read. What is left is to compare the view with itself: the payloads
of a block code its records, the positions of its records are on their pages.

Two things go wrong. The writer starts the first blob at the first block, and the
validator at the start of the partition, where it looks for the location before the first
one. The end of the last page of all wraps around to zero, and the validator finds the ids of
the page beyond it. Everywhere else the index is accepted
(`MonadServices.Query.written_accepted_iff`).
-/

namespace MonadServices

namespace Query

/-! ### The traces of a block -/

/-- The traces of a block carry the index of their transaction. -/
def QueryWriterBlock.WellFormed (block : QueryWriterBlock) : Prop :=
  ∀ (i : ℕ) (tx : QueryWriterTx), block.txs[i]? = some tx →
    ∀ trace ∈ tx.traces, trace.txIndex.toNat = i

/-- A chain of well-formed blocks. -/
def Chain.WellFormed (chain : Chain) : Prop := ∀ block ∈ chain.blocks, block.WellFormed

theorem fromTracesWith_congr {flags flags' : UInt32 → List Bool}
    {traces : List StoredTraceQueryItem}
    (h : ∀ trace ∈ traces, flags trace.txIndex = flags' trace.txIndex) :
    fromTracesWith flags traces = fromTracesWith flags' traces := by
  induction traces generalizing flags flags' with
  | nil => rfl
  | cons trace traces ih =>
    have hhead := h trace (by simp)
    simp only [fromTracesWith, hhead]
    congr 1
    refine ih fun trace' htrace' => ?_
    by_cases heq : trace'.txIndex = trace.txIndex
    · simp [heq]
    · simp [heq, h trace' (List.mem_cons_of_mem trace htrace')]

/-- The flags of a transaction change with its own traces only. -/
theorem fromTracesWith_append (flags : UInt32 → List Bool)
    (traces traces' : List StoredTraceQueryItem) :
    ∃ flags' : UInt32 → List Bool,
      fromTracesWith flags (traces ++ traces') =
        fromTracesWith flags traces ++ fromTracesWith flags' traces' ∧
      ∀ j, (∀ trace ∈ traces, trace.txIndex ≠ j) → flags' j = flags j := by
  induction traces generalizing flags with
  | nil => exact ⟨flags, rfl, fun _ _ => rfl⟩
  | cons trace traces ih =>
    simp only [List.cons_append, fromTracesWith]
    obtain ⟨flags', happend, hflags'⟩ := ih (Function.update flags trace.txIndex
      (pushFrame (flags trace.txIndex) trace.traceAddress.length
        (parentFailed (flags trace.txIndex) trace.traceAddress.length || trace.status != 0)))
    refine ⟨flags', by rw [happend], fun j hj => ?_⟩
    rw [hflags' j fun trace' htrace' => hj trace' (List.mem_cons_of_mem trace htrace'),
      Function.update_of_ne (hj trace (by simp)).symm]

/-- **The traces of a block** have the ancestors that they have in their transactions. -/
theorem fromTraces_flatMap {txs : List QueryWriterTx} {k : ℕ} {flags : UInt32 → List Bool}
    (hflags : ∀ j : UInt32, k ≤ j.toNat → flags j = [])
    (h : ∀ i tx, txs[i]? = some tx → ∀ trace ∈ tx.traces, trace.txIndex.toNat = k + i) :
    fromTracesWith flags (txs.flatMap QueryWriterTx.traces) =
      txs.flatMap fun tx => fromTraces tx.traces := by
  induction txs generalizing k flags with
  | nil => rfl
  | cons tx txs ih =>
    have htx : ∀ trace ∈ tx.traces, trace.txIndex.toNat = k := by
      intro trace htrace
      simpa using h 0 tx rfl trace htrace
    obtain ⟨flags', happend, hflags'⟩ :=
      fromTracesWith_append flags tx.traces (txs.flatMap QueryWriterTx.traces)
    rw [List.flatMap_cons, happend, List.flatMap_cons]
    congr 1
    · refine fromTracesWith_congr fun trace htrace => ?_
      rw [hflags _ (htx trace htrace).ge]
    · refine ih (k := k + 1) (fun j hj => ?_) fun i tx' htx' trace htrace => ?_
      · rw [hflags' j, hflags j (by omega)]
        rintro trace htrace rfl
        have := htx trace htrace
        omega
      · have := h (i + 1) tx' htx' trace htrace
        omega

/-! ### The records of a block -/

section Records

variable {ext : Externals} {block : QueryWriterBlock} {family : Family}

/-- **The payloads of a block code its records.** -/
theorem decodeRecords_encode (hwf : block.WellFormed)
    (hsize : ∀ r ∈ block.records family, (r.encode ext).length < 2 ^ 64) :
    decodeRecords ext family ((block.records family).map (Record.encode ext)) =
      some (block.records family) := by
  have hcodec : ∀ {α : Type} (codec : RlpCodec α) (items : List α),
      (∀ a ∈ items, (codec.encode a).length < 2 ^ 64) →
        (items.map codec.encode).mapM codec.decode = some items := by
    intro α codec items hlen
    rw [mapM_eq_some, List.forall₂_map_left_iff, List.forall₂_same]
    intro a ha
    simpa using codec.decode_encode a [] (hlen a ha)
  -- For all families but the traces, record by record.
  have hsimple : ∀ {α : Type} (codec : RlpCodec α) (mk : α → Record) (items : List α),
      (∀ a ∈ items, (codec.encode a).length < 2 ^ 64) →
        (items.map codec.encode).mapM (fun b => (codec.decode b).map mk) = some (items.map mk) := by
    intro α codec mk items hlen
    have hitems := mapM_eq_some.mp (hcodec codec items hlen)
    rw [mapM_eq_some, List.forall₂_map_right_iff]
    exact hitems.imp fun b a hba => by rw [hba, Option.map_some]
  cases family with
  | blockHeader =>
    exact hsimple (StoredBlockQueryItem.codec ext) .blockHeader [block.header] fun a ha =>
      hsize (.blockHeader a) (by simpa [QueryWriterBlock.records] using ha)
  | transaction =>
    have := hsimple StoredTxQueryItem.codec .transaction (block.txs.map QueryWriterTx.envelope)
      fun a ha => hsize (.transaction a) (by simpa [QueryWriterBlock.records] using ha)
    rw [List.map_map, List.map_map] at this
    rw [QueryWriterBlock.records, List.map_map]
    exact this
  | log =>
    have := hsimple StoredLogQueryItem.codec .log block.logs
      fun a ha => hsize (.log a) (by simpa [QueryWriterBlock.records] using ha)
    rw [QueryWriterBlock.records, List.map_map]
    exact this
  | trace =>
    have hrecords : block.records .trace = (fromTraces block.traces).map Record.trace := by
      rw [fromTraces, QueryWriterBlock.traces, fromTraces_flatMap (k := 0) (fun _ _ => rfl)
        fun i tx htx trace htrace => by rw [Nat.zero_add]; exact hwf i tx htx trace htrace,
        List.map_flatMap]
      rfl
    have hencode : (block.records .trace).map (Record.encode ext) =
        block.traces.map StoredTraceQueryItem.codec.encode := by
      conv_rhs => rw [← map_trace_fromTraces block.traces]
      rw [hrecords, List.map_map, List.map_map]
      rfl
    rw [hencode, hrecords]
    refine Option.map_eq_some_iff.mpr ⟨block.traces, hcodec _ _ fun trace htrace => ?_, rfl⟩
    have hmem : StoredTraceQueryItem.codec.encode trace ∈
        (block.records .trace).map (Record.encode ext) := by
      rw [hencode]
      exact List.mem_map_of_mem htrace
    obtain ⟨r, hr, heq⟩ := List.mem_map.mp hmem
    rw [← heq]
    exact hsize r hr

end Records

/-! ### The view of a chain -/

section View

variable {ext : Externals} {chain : Chain} {n : ℕ} {family : Family}

/-- The view of the committed blocks, as the tables of a run. -/
theorem Consistent.atView {s : System} (hc : Consistent chain ext s n n) :
    Consistent chain ext ⟨none, chain.view ext n⟩ n n :=
  { hc with
    stored := hc.stored.between.eq_view ▸ hc.stored
    writer := by simp }

variable (hc : Consistent chain ext ⟨none, chain.view ext n⟩ n n)
  (haligned : chain.start % itemsPerBlob = 0)

include haligned in
theorem payloadRange_aligned {t : Tables} {id : ℕ} :
    payloadRange t 0 family id = payloadRange t (chain.base family) family id := by
  have hbase : (id = partitionStart id ∨ id = chain.base family) ↔ id = partitionStart id := by
    refine or_iff_left_of_imp ?_
    rintro rfl
    rw [Chain.partitionStart_eq_self]
    cases family with
    | blockHeader => exact haligned
    | transaction => rfl
    | log => rfl
    | trace => rfl
  have hzero : (id = partitionStart id ∨ id = 0) ↔ id = partitionStart id := by
    refine or_iff_left_of_imp ?_
    rintro rfl
    rfl
  unfold payloadRange
  simp only [hbase, hzero]

include hc haligned in
/-- **The payload of a committed record** is stored. -/
theorem storedPayload_view {r : Record} {id : ℕ} (he : (r, id) ∈ chain.entries family n) :
    storedPayload ext (chain.view ext n) family id = some (r.encode ext) ∧
      payloadRange (chain.view ext n) 0 family id =
        some (chain.payloadStart ext family id n, chain.payloadEnd ext family id n) ∧
      chain.payloadStart ext family id n < chain.payloadEnd ext family id n := by
  have hbase : chain.base family ≤ id := (Chain.mem_entries.mp he).1
  have hrange := hc.payloadRange_eq hbase (Chain.lt_frontier he)
  rw [← payloadRange_aligned haligned] at hrange
  obtain ⟨blob, hblob, hlt, hend, b, hb, hread⟩ := hc.getMany_eq he
  obtain ⟨blob', hblob', -, -, hpieces⟩ := getMany_eq_some.mp hread
  obtain rfl : blob = blob' := Except.ok.inj (Option.some.inj (hblob.symm.trans hblob'))
  rw [hb, List.forall₂_cons] at hpieces
  exact ⟨storedPayload_eq_some.mpr ⟨_, _, blob, hrange, hblob, hlt.le, hend, hpieces.1⟩, hrange,
    hlt⟩

variable {i : ℕ} {block : QueryWriterBlock} (hi : i < n) (hb : chain.blocks[i]? = some block)

/-- The range of a family in a block. -/
def Chain.rangeIn (chain : Chain) (family : Family) (i : ℕ) (block : QueryWriterBlock) :
    FamilyMetadata :=
  ⟨chain.frontier family i, (block.records family).length⟩

/-- The records of a family in a block, with their ids. -/
def Chain.entriesIn (chain : Chain) (family : Family) (i : ℕ) (block : QueryWriterBlock) :
    List (Record × ℕ) :=
  (block.records family).zipIdx (chain.frontier family i)

theorem ids_rangeIn (chain : Chain) (family : Family) (i : ℕ) (block : QueryWriterBlock) :
    (chain.rangeIn family i block).ids = (chain.entriesIn family i block).map Prod.snd := by
  rw [Chain.entriesIn, List.zipIdx_map_snd]
  rfl

include hi hb in
theorem mem_entries_of_entriesIn {e : Record × ℕ} (he : e ∈ chain.entriesIn family i block) :
    e ∈ chain.entries family n := by
  have hseg : chain.segment i (i + 1) = [block] := by
    rw [Chain.segment_cons (Nat.lt_succ_self i) hb, Chain.segment_of_le le_rfl]
  refine ((Chain.mem_entries_iff (Nat.succ_le_of_lt hi)).mp ?_).1
  rw [Chain.entries_eq_append (Nat.le_succ i), hseg, List.flatMap_singleton]
  exact List.mem_append_right _ he

include hb in
theorem end_rangeIn : (chain.rangeIn family i block).firstPrimaryId +
    (chain.rangeIn family i block).count = chain.frontier family (i + 1) :=
  (Chain.frontier_succ hb).symm

include hc hi hb in
theorem rangeIn_lt : (chain.rangeIn family i block).firstPrimaryId +
    (chain.rangeIn family i block).count < 2 ^ 64 := by
  rw [end_rangeIn hb]
  exact (chain.frontier_mono family (Nat.succ_le_of_lt hi)).trans_lt (hc.ids_lt family)

include hc haligned hi hb in
/-- **The records of a block are stored.** -/
theorem storedRecords_view (hwf : block.WellFormed) :
    storedRecords ext (chain.view ext n) family (chain.rangeIn family i block) =
      some (chain.entriesIn family i block) := by
  have hmem : ∀ e ∈ chain.entriesIn family i block, e ∈ chain.entries family n :=
    fun e he => mem_entries_of_entriesIn hi hb he
  have hpayloads : (chain.rangeIn family i block).ids.mapM
      (storedPayload ext (chain.view ext n) family) =
        some ((block.records family).map (Record.encode ext)) := by
    have hrecords : block.records family = (chain.entriesIn family i block).map Prod.fst :=
      (List.zipIdx_map_fst _ _).symm
    rw [ids_rangeIn, hrecords, mapM_eq_some, List.map_map, List.forall₂_map_left_iff,
      List.forall₂_map_right_iff, List.forall₂_same]
    exact fun e he => (storedPayload_view hc haligned (hmem e he)).1
  have hsize : ∀ r ∈ block.records family, (r.encode ext).length < 2 ^ 64 := by
    intro r hr
    rw [← List.zipIdx_map_fst (chain.frontier family i) (block.records family)] at hr
    obtain ⟨e, he, rfl⟩ := List.mem_map.mp hr
    exact (hc.admissible.size family e (hmem e he)).trans_lt (by decide)
  unfold storedRecords
  rw [hpayloads, Option.bind_eq_bind, Option.bind_some, decodeRecords_encode hwf hsize]
  rfl

include hc haligned hi hb in
/-- **The validator reads the payloads of a block.** -/
theorem payloadsOf_view : ∃ items,
    payloadsOf ext (chain.view ext n) family (chain.rangeIn family i block) = .ok items := by
  have hstored : ∀ id ∈ (chain.rangeIn family i block).ids,
      ∃ r, (r, id) ∈ chain.entries family n := by
    intro id hid
    rw [ids_rangeIn] at hid
    obtain ⟨e, he, rfl⟩ := List.mem_map.mp hid
    exact ⟨e.1, mem_entries_of_entriesIn hi hb he⟩
  have hbounds : ∀ id ∈ (chain.rangeIn family i block).ids,
      payloadRange (chain.view ext n) 0 family id =
        some (chain.payloadStart ext family id n, chain.payloadEnd ext family id n) ∧
      chain.payloadStart ext family id n < chain.payloadEnd ext family id n := by
    intro id hid
    obtain ⟨r, hr⟩ := hstored id hid
    exact (storedPayload_view hc haligned hr).2
  have hboundsOf : ∀ id ∈ (chain.rangeIn family i block).ids,
      boundsOf (chain.view ext n) family id =
        (chain.payloadStart ext family id n, chain.payloadEnd ext family id n) := by
    intro id hid
    rw [boundsOf, (hbounds id hid).1, Option.getD_some]
  refine ⟨_, payloadsOf_eq (rangeIn_lt hc hi hb) ?_ ?_ ?_ ?_⟩
  · intro id hid
    exact bounded_of_some (hbounds id hid).1 (hbounds id hid).2.le
  · intro id hid
    rw [hboundsOf id hid]
    exact (hbounds id hid).2
  · have hlt : (chain.rangeIn family i block).ids.Pairwise (· < ·) := List.pairwise_lt_range'
    refine hlt.imp_of_mem fun {id id'} hid hid' hlt hpart => ?_
    rw [hboundsOf id hid, hboundsOf id' hid']
    refine Chain.payloadEnd_le_payloadStart hlt ?_
    rw [← fromId_partitionStart, hpart, fromId_partitionStart]
  · intro id hid
    obtain ⟨r, hr⟩ := hstored id hid
    exact ⟨_, (storedPayload_view hc haligned hr).1⟩

/-- The first id of the last page. -/
def lastPage : ℕ := 2 ^ 64 - pageSpan

include hc in
/-- **A record is on its page**, except on the last one. -/
theorem listed_view_iff {r : Record} {id : ℕ} {filter : BitmapFilterValue}
    (he : (r, id) ∈ chain.entries family n) (hfilter : filter ∈ r.filters ext) :
    Listed (chain.view ext n) (family, filter, id) ↔ id < lastPage := by
  have h64 : id < 2 ^ 64 := (Chain.lt_frontier he).trans (hc.ids_lt family)
  have hpage := Chain.pageOf_le id
  have hid : pageOf id + (id - pageOf id) = id := Nat.add_sub_cancel' hpage
  have hbit : id - pageOf id ∈ chain.bits ext (keyOf (family, filter, id)) n := by
    refine Chain.mem_bits.mpr ⟨?_, r, ?_, hfilter⟩
    · exact congrArg pageOf hid
    · dsimp only [keyOf]
      rw [hid]
      exact he
  have hne : chain.bits ext (keyOf (family, filter, id)) n ≠ ∅ := Finset.ne_empty_of_mem hbit
  have hrow : chain.view ext n (.bitmapIndex (keyOf (family, filter, id))) =
      some (.ok ⟨pageOf id, (pageOf id + pageSpan) % 2 ^ 64,
        chain.bits ext (keyOf (family, filter, id)) n⟩) := by
    rw [Chain.view, if_neg hne]
    rfl
  have hstats : ∃ stats, chain.view ext n (.pageStats (keyOf (family, filter, id))) =
      some (.ok stats) := by
    rw [Chain.view, if_neg hne]
    exact ⟨_, rfl⟩
  -- The end of the page, which wraps around on the last one only.
  have hend : id ≤ (pageOf id + pageSpan) % 2 ^ 64 ↔ id < lastPage := by
    unfold lastPage pageOf pageSpan
    omega
  rw [← hend]
  constructor
  · rintro ⟨bitmap, ⟨hrow', -⟩, hlists⟩
    obtain rfl := Except.ok.inj (Option.some.inj (hrow.symm.trans hrow'))
    simp only [pageLists, Bool.and_eq_true, decide_eq_true_eq] at hlists
    exact hlists.1.1.2
  · intro hle
    refine ⟨_, ⟨hrow, hstats⟩, ?_⟩
    simp only [pageLists, Bool.and_eq_true, decide_eq_true_eq, beq_self_eq_true, and_true]
    exact ⟨⟨hpage, hle⟩, hbit⟩

/-! ### What is valid in a view -/

include hc haligned hi hb in
/-- **The records of a block are as they should be**, if none of them is on the last page. -/
theorem recordsOk_view (hwf : block.WellFormed)
    (hfrontier : chain.frontier family n ≤ lastPage) :
    RecordsOk ext (chain.view ext n) (chain.start + i) family (chain.rangeIn family i block)
      (chain.entriesIn family i block) := by
  have hmem : ∀ e ∈ chain.entriesIn family i block, e ∈ chain.entries family n :=
    fun e he => mem_entries_of_entriesIn hi hb he
  have hhash : chain.view ext n (.blockHash (chain.start + i)) = some (.ok (block.blockHash ext)) :=
    Chain.view_blockHash hi hb
  constructor
  case stored => exact storedRecords_view hc haligned hi hb hwf
  case headers =>
    rintro rfl
    refine ⟨⟨_, hhash⟩, fun e he => ?_⟩
    have hr := List.fst_mem_of_mem_zipIdx he
    rw [QueryWriterBlock.records, List.mem_singleton] at hr
    exact ⟨block.header, _, hr, hhash, chain.number_eq i block hb, rfl⟩
  case filters => exact fun e he => hc.admissible.known family e (hmem e he)
  case listed =>
    intro p hp
    obtain ⟨⟨r, id⟩, he, hp⟩ := List.mem_flatMap.mp hp
    obtain ⟨filter, hfilter, rfl⟩ := List.mem_map.mp hp
    have hlt := Chain.lt_frontier (hmem _ he)
    exact (listed_view_iff hc (hmem _ he) hfilter).mpr (by dsimp only at hlt ⊢; omega)

include hi hb in
theorem idsBefore_view :
    (idsBefore (chain.view ext n) family (chain.start + i)).all
      (· = (chain.rangeIn family i block).firstPrimaryId) = true := by
  unfold idsBefore
  split_ifs with hzero
  · rfl
  · cases i with
    | zero =>
      have hnone : rangeOf (chain.view ext n) family (chain.start - 1) = none := by
        have hat : chain.blockAt (chain.start - 1) n = none := by
          rw [Chain.blockAt, if_neg (by omega)]
        simp [rangeOf, Chain.view, hat]
      rw [Nat.add_zero, hnone]
      rfl
    | succ j =>
      obtain ⟨block', hb'⟩ : ∃ block', chain.blocks[j]? = some block' :=
        ⟨_, List.getElem?_eq_getElem
          ((Nat.lt_succ_self j).trans (List.getElem?_eq_some_iff.mp hb).1)⟩
      have hrow : chain.view ext n (.family family (chain.start + j)) =
          some (.ok (chain.rangeIn family j block')) :=
        Chain.view_family family ((Nat.lt_succ_self j).trans hi) hb'
      rw [show chain.start + (j + 1) - 1 = chain.start + j by omega, rangeOf_eq_some.mpr hrow]
      simp [Chain.rangeIn, Chain.frontier_succ hb']

include hc haligned hi hb in
/-- **A block of a view is in order.** -/
theorem blockOk_view (hwf : block.WellFormed)
    (hfrontier : ∀ family, chain.frontier family n ≤ lastPage) :
    BlockOk ext (chain.view ext n) (chain.start + i) := by
  refine ⟨⟨_, Chain.view_blockHash hi hb⟩, fun family => ?_⟩
  refine ⟨chain.rangeIn family i block, Chain.view_family family hi hb, idsBefore_view hi hb, ?_⟩
  constructor
  case fits => exact rangeIn_lt hc hi hb
  case indexed =>
    intro hcount
    refine Chain.view_familyBlockIndex hi ?_
    rw [← end_rangeIn hb]
    exact Nat.lt_add_of_pos_right hcount
  case payloads => exact payloadsOf_view hc haligned hi hb
  case records => exact ⟨_, recordsOk_view hc haligned hi hb hwf (hfrontier family)⟩

omit hi hb in
include hc haligned in
/-- **The stored records of a view** are the records of the chain. -/
theorem carries_view (hpos : n ≠ 0) (hwf : chain.WellFormed) {filter : BitmapFilterValue} {id : ℕ} :
    Carries ext (chain.view ext n) chain.start (chain.start + n - 1) family filter id ↔
      ∃ r, (r, id) ∈ chain.entries family n ∧ filter ∈ r.filters ext := by
  have hblock : ∀ i, i < n → ∃ block, chain.blocks[i]? = some block ∧ block.WellFormed := by
    intro i hi
    have hlen := hi.trans_le hc.le_length
    exact ⟨_, List.getElem?_eq_getElem hlen, hwf _ (List.getElem_mem hlen)⟩
  constructor
  · rintro ⟨height, r, values, hstart, hlast, ⟨m, es, hm, hes, he⟩, hvalues, hfilter⟩
    obtain ⟨i, rfl⟩ := Nat.exists_eq_add_of_le hstart
    have hi : i < n := by omega
    obtain ⟨block, hb, hwf⟩ := hblock i hi
    obtain rfl : chain.rangeIn family i block = m :=
      Except.ok.inj (Option.some.inj ((Chain.view_family family hi hb).symm.trans hm))
    obtain rfl := Option.some.inj ((storedRecords_view hc haligned hi hb hwf).symm.trans hes)
    exact ⟨r, mem_entries_of_entriesIn hi hb he, Record.mem_filters.mpr ⟨values, hvalues, hfilter⟩⟩
  · rintro ⟨r, he, hfilter⟩
    obtain ⟨i, hi, hle, hlt⟩ := Chain.exists_block_of_id (Chain.mem_entries.mp he).1
      (Chain.lt_frontier he)
    obtain ⟨block, hb, hwf⟩ := hblock i hi
    obtain ⟨values, hvalues, hfilter⟩ := Record.mem_filters.mp hfilter
    refine ⟨chain.start + i, r, values, by omega, by omega, ⟨_, _, Chain.view_family family hi hb,
      storedRecords_view hc haligned hi hb hwf, ?_⟩, hvalues, hfilter⟩
    have hseg : chain.segment i (i + 1) = [block] := by
      rw [Chain.segment_cons (Nat.lt_succ_self i) hb, Chain.segment_of_le le_rfl]
    have hmem := (Chain.mem_entries_iff (Nat.succ_le_of_lt hi)).mpr ⟨he, hlt⟩
    rw [Chain.entries_eq_append (Nat.le_succ i), hseg, List.flatMap_singleton,
      List.mem_append] at hmem
    exact hmem.resolve_left fun hold => absurd (Chain.lt_frontier hold) (by dsimp only; omega)

omit hi hb in
include hc haligned in
/-- **The pages of a view are exact.** -/
theorem pagesExact_view (hpos : n ≠ 0) (hwf : chain.WellFormed) :
    PagesExact (chain.view ext n)
      (allAdds ext (chain.view ext n) chain.start (chain.start + n - 1)) := by
  have hcarries : ∀ {family filter id},
      (family, filter, id) ∈ allAdds ext (chain.view ext n) chain.start (chain.start + n - 1) ↔
        ∃ r, (r, id) ∈ chain.entries family n ∧ filter ∈ r.filters ext :=
    mem_allAdds.trans (carries_view hc haligned hpos hwf)
  rintro ⟨key, bits⟩ hbits
  obtain ⟨⟨⟨family, filter, id⟩, hadd, rfl⟩, hiff⟩ := mem_bitmapPages.mp hbits
  have hid : pageOf id + (id - pageOf id) = id := Nat.add_sub_cancel' (Chain.pageOf_le id)
  have heq : chain.bits ext (keyOf (family, filter, id)) n = bits := by
    ext x
    rw [hiff, Chain.mem_bits]
    constructor
    · rintro ⟨hpage, r, he, hfilter⟩
      refine ⟨(family, filter, pageOf id + x), hcarries.mpr ⟨r, he, hfilter⟩, ?_, ?_⟩
      · rw [keyOf, keyOf]
        exact congrArg _ hpage
      · exact (Nat.add_sub_cancel_left (n := pageOf id) (m := x)).symm
    · rintro ⟨⟨family', filter', id'⟩, hadd', hkey, rfl⟩
      obtain ⟨rfl, rfl, hpage⟩ : family' = family ∧ filter' = filter ∧ pageOf id' = pageOf id := by
        simpa [keyOf] using hkey
      obtain ⟨r, he, hfilter⟩ := hcarries.mp hadd'
      have hid' : pageOf id + (id' - pageOf id) = id' := by
        rw [← hpage]
        exact Nat.add_sub_cancel' (Chain.pageOf_le id')
      refine ⟨?_, r, ?_, hfilter⟩
      · exact (congrArg pageOf hid').trans hpage
      · dsimp only [keyOf]
        rw [hid']
        exact he
  have hne : chain.bits ext (keyOf (family, filter, id)) n ≠ ∅ := by
    rw [heq]
    exact Finset.ne_empty_of_mem ((hiff (id - pageOf id)).mpr ⟨_, hadd, rfl, rfl⟩)
  refine ⟨⟨pageOf id, (pageOf id + pageSpan) % 2 ^ 64, bits⟩, ?_, rfl⟩
  rw [Chain.view, if_neg hne, heq]
  rfl

omit hi hb in
theorem frontier_stateAt (hn : n ≤ chain.blocks.length) (family : Family) :
    (chain.stateAt n).frontier family = chain.frontier family n := by
  cases family with
  | blockHeader => exact (Chain.frontier_blockHeader hn).symm
  | transaction => rfl
  | log => rfl
  | trace => rfl

omit hi hb haligned in
include hc in
/-- A valid view starts at the start of a partition. -/
theorem aligned_of_valid (hpos : n ≠ 0)
    (h : Valid ext (chain.view ext n) (chain.stateAt n) chain.start (chain.start + n - 1)) :
    chain.start % itemsPerBlob = 0 := by
  have hlen : 0 < chain.blocks.length := (Nat.pos_of_ne_zero hpos).trans_le hc.le_length
  have hb : chain.blocks[0]? = some chain.blocks[0] := List.getElem?_eq_getElem hlen
  have hi : 0 < n := Nat.pos_of_ne_zero hpos
  obtain ⟨m, hm, -, hr⟩ := (h.blocks chain.start le_rfl h.le).families .blockHeader
  obtain rfl : chain.rangeIn .blockHeader 0 chain.blocks[0] = m :=
    Except.ok.inj (Option.some.inj ((Chain.view_family .blockHeader hi hb).symm.trans hm))
  obtain ⟨items, hitems⟩ := hr.payloads
  have hid : chain.start ∈ (chain.rangeIn .blockHeader 0 chain.blocks[0]).ids := by
    rw [FamilyMetadata.mem_ids]
    simp [Chain.rangeIn, Chain.base, QueryWriterBlock.records]
  obtain ⟨item, hitem⟩ := (payloadsOf_ok hr.fits hitems).1 _ hid
  obtain ⟨startOffset, endOffset, blob, hrange, -⟩ := storedPayload_eq_some.mp hitem
  obtain ⟨-, hstart⟩ := payloadRange_eq_some.mp hrange
  rw [← Chain.partitionStart_eq_self]
  by_contra hne
  -- The location before the first one is not there.
  have hzero : chain.start ≠ 0 := by
    intro h0
    rw [h0] at hne
    exact hne rfl
  rw [if_neg hne, payloadLocation_eq_some, Chain.view,
    if_neg (by rw [Chain.base_blockHeader]; omega)] at hstart
  cases hstart

omit hi hb in
include hc haligned in
/-- A valid view has no record on the last page. -/
theorem frontier_le_of_valid (hpos : n ≠ 0) (hwf : chain.WellFormed)
    (h : Valid ext (chain.view ext n) (chain.stateAt n) chain.start (chain.start + n - 1))
    (family : Family) : chain.frontier family n ≤ lastPage := by
  by_contra hlt
  have hbase : chain.base family < chain.frontier family n := by
    cases family with
    | blockHeader =>
      rw [Chain.frontier_blockHeader hc.le_length, Chain.base_blockHeader]
      omega
    | transaction => exact Nat.zero_lt_of_lt (not_le.mp hlt)
    | log => exact Nat.zero_lt_of_lt (not_le.mp hlt)
    | trace => exact Nat.zero_lt_of_lt (not_le.mp hlt)
  obtain ⟨r, hr⟩ := Chain.exists_mem_entries (n := n) (Nat.le_sub_one_of_lt hbase)
    (Nat.sub_one_lt_of_lt hbase)
  obtain ⟨values, hvalues⟩ := hc.admissible.known family _ hr
  obtain ⟨filter, hfilter⟩ := List.exists_mem_of_ne_nil _ (Record.ne_nil_of_bitmapFilters hvalues)
  have hmem : filter ∈ r.filters ext := Record.mem_filters.mpr ⟨values, hvalues, hfilter⟩
  obtain ⟨block, r', values', hstart, hlast, ⟨m, es, hm, hes, he⟩, hvalues', hfilter'⟩ :=
    (carries_view hc haligned hpos hwf).mpr ⟨r, hr, hmem⟩
  obtain ⟨m', hm', -, hok⟩ := (h.blocks block hstart hlast).families family
  obtain rfl : m = m' := Except.ok.inj (Option.some.inj (hm.symm.trans hm'))
  obtain ⟨es', hes'⟩ := hok.records
  obtain rfl := Option.some.inj (hes.symm.trans hes'.stored)
  have hlisted := hes'.listed (chain.frontier family n - 1, filter) (List.mem_flatMap.mpr
    ⟨_, he, List.mem_map.mpr ⟨filter, Record.mem_filters.mpr ⟨values', hvalues', hfilter'⟩, rfl⟩⟩)
  have := (listed_view_iff hc hr hmem).mp hlisted
  omega

omit hi hb haligned in
include hc in
/-- **Which views are valid**: those that start with a partition and end before the last
page. -/
theorem valid_view_iff (hpos : n ≠ 0) (hwf : chain.WellFormed) :
    Valid ext (chain.view ext n) (chain.stateAt n) chain.start (chain.start + n - 1) ↔
      chain.start % itemsPerBlob = 0 ∧ ∀ family, chain.frontier family n ≤ lastPage := by
  constructor
  · intro h
    have haligned := aligned_of_valid hc hpos h
    exact ⟨haligned, frontier_le_of_valid hc haligned hpos hwf h⟩
  · rintro ⟨haligned, hfrontier⟩
    have hblock : ∀ i, i < n → ∃ block, chain.blocks[i]? = some block ∧ block.WellFormed := by
      intro i hi
      have hlen := hi.trans_le hc.le_length
      exact ⟨_, List.getElem?_eq_getElem hlen, hwf _ (List.getElem_mem hlen)⟩
    constructor
    case le => omega
    case before =>
      intro hzero family
      have hat : chain.blockAt (chain.start - 1) n = none := by
        rw [Chain.blockAt, if_neg (by omega)]
      exact .inl (by simp [Chain.view, hat])
    case blocks =>
      intro height hstart hlast
      obtain ⟨i, rfl⟩ := Nat.exists_eq_add_of_le hstart
      obtain ⟨block, hb, hblockwf⟩ := hblock i (by omega)
      exact blockOk_view hc haligned (by omega) hb hblockwf hfrontier
    case pages => exact pagesExact_view hc haligned hpos hwf
    case frontiers =>
      intro family _
      obtain ⟨k, rfl⟩ := Nat.exists_eq_succ_of_ne_zero hpos
      obtain ⟨block, hb, -⟩ := hblock k (Nat.lt_succ_self k)
      have hrow : chain.view ext (k + 1) (.family family (chain.start + k)) =
          some (.ok (chain.rangeIn family k block)) :=
        Chain.view_family family (Nat.lt_succ_self k) hb
      rw [show chain.start + k.succ - 1 = chain.start + k by omega, idsBefore_succ hrow,
        frontier_stateAt hc.le_length, end_rangeIn hb]

end View

/-- **Which written indexes are accepted**: a run without failures on a chain of well-formed
blocks leaves tables that the validator accepts from the first to the last block, if and only
if the first block is the first one of a payload partition and no id is on the last bitmap
page. -/
theorem written_accepted_iff (ext : Externals) (chain : Chain) (ops : List Op)
    (hwf : chain.WellFormed) (hops : neverFails ext chain ⟨none, Tables.empty⟩ ops = true)
    (row : StateIndexRow) (hrow : (run ext chain ops).tables .stateIndex = some (.ok row)) :
    (∃ v, runValidation ext (run ext chain ops).tables row.indexedStart
      (some (row.nextBlockId - 1)) = .ok v) ↔
      row.indexedStart % itemsPerBlob = 0 ∧ ∀ family, row.decode.frontier family ≤ lastPage := by
  obtain ⟨n, hrun⟩ := consistent_of_neverFails hops
  have hc := hrun.atView
  have ht : (run ext chain ops).tables = chain.view ext n := hrun.stored.between.eq_view
  rw [ht] at hrow ⊢
  have hpos : n ≠ 0 := by
    rintro rfl
    simp [Chain.view] at hrow
  obtain rfl : (chain.stateAt n).columns = row := by
    simpa [Chain.view, hpos] using hrow
  rw [columns_decode]
  have hstart : (chain.stateAt n).columns.indexedStart = chain.start := rfl
  have hnext : (chain.stateAt n).columns.nextBlockId - 1 = chain.start + n - 1 := rfl
  have hlast : (chain.stateAt n).columns.nextBlockId = chain.start + n - 1 + 1 := by
    show chain.start + n = _
    omega
  rw [hstart, hnext, runValidation_iff hrow hstart hlast, columns_decode,
    valid_view_iff hc hpos hwf]
  refine and_congr_right fun _ => forall_congr' fun family => ?_
  rw [frontier_stateAt hc.le_length]

/-- A run that writes the first block of a chain. -/
def firstBlockOps : List Op := [.openWriter [], .startAt, .append 0, .flush []]

theorem sample_wellFormed (start : ℕ) (miners : List ℕ) (h : start + miners.length < 2 ^ 64) :
    (Chain.sample start miners h).WellFormed := by
  intro block hblock i tx htx
  obtain ⟨p, -, rfl⟩ := List.mem_map.mp hblock
  simp [QueryWriterBlock.sample] at htx

theorem written_accepted_iff_sample :
    ∃ v, runValidation Externals.sample
      (run Externals.sample (Chain.sample 1024 [7] (by decide)) firstBlockOps).tables 1024
      (some 1024) = .ok v := by
  refine (written_accepted_iff Externals.sample (Chain.sample 1024 [7] (by decide)) firstBlockOps
    (sample_wellFormed _ _ _) (by decide +kernel) ⟨1024, 1025, 0, 0, 0⟩ (by decide +kernel)).mpr
    ⟨by decide, fun family => ?_⟩
  cases family <;> decide

/-- **A chain that starts within a partition is refused**, although its first block is written
without a failure. -/
theorem start_within_partition_refused :
    (Chain.sample 5 [7] (by decide)).WellFormed ∧
      neverFails Externals.sample (Chain.sample 5 [7] (by decide)) ⟨none, Tables.empty⟩
        firstBlockOps = true ∧
      (run Externals.sample (Chain.sample 5 [7] (by decide)) firstBlockOps).tables .stateIndex =
        some (.ok ⟨5, 6, 0, 0, 0⟩) ∧
      ¬∃ v, runValidation Externals.sample
        (run Externals.sample (Chain.sample 5 [7] (by decide)) firstBlockOps).tables 5 (some 5) =
          .ok v := by
  refine ⟨sample_wellFormed _ _ _, by decide +kernel, by decide +kernel, ?_⟩
  rintro ⟨v, hv⟩
  have hbool : (runValidation Externals.sample
      (run Externals.sample (Chain.sample 5 [7] (by decide)) firstBlockOps).tables 5
        (some 5)).toBool = false := by decide +kernel
  rw [hv] at hbool
  cases hbool

end Query

end MonadServices
