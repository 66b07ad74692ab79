import MonadServices.Lib.Collect
import MonadServices.Query.Tables

/-!
# The flush of the query writer

A flush writes a batch of blocks in four stages, each of them several batches of
writes: the payload blobs of the four families and their locations, the bitmap
pages and their statistics, the metadata, and last **the state row, which commits
the batch**. The stages before it read back what earlier flushes have left – also
failed ones – and cut it down to what is committed: a payload blob at the location
of the last committed record, a bitmap page at the first id of the batch.

The order in which a hash map hands out its entries is not specified; here it is
the order of insertion. The entries have different keys and go into one batch, of
which any selection may be applied, so the order cannot be observed.
-/

namespace MonadServices

namespace Query

/-! ### Blocks -/

/-- A transaction with its logs and traces. -/
structure QueryWriterTx where
  envelope : StoredTxQueryItem
  logs : List StoredLogQueryItem
  traces : List StoredTraceQueryItem
  deriving DecidableEq

/-- A block as the writer receives it. -/
structure QueryWriterBlock where
  header : StoredBlockQueryItem
  txs : List QueryWriterTx
  deriving DecidableEq

namespace QueryWriterBlock

/-- `QueryWriterBlock::block_number`. -/
def blockNumber (block : QueryWriterBlock) : ℕ := block.header.header.number.toNat

/-- `QueryWriterBlock::block_hash`. -/
def blockHash (ext : Externals) (block : QueryWriterBlock) : B256 :=
  ext.hashSlow block.header.header

/-- `QueryWriterBlock::parent_hash`. -/
def parentHash (block : QueryWriterBlock) : B256 := block.header.header.parentHash

/-- The logs of a block, transaction by transaction. -/
def logs (block : QueryWriterBlock) : List StoredLogQueryItem :=
  block.txs.flatMap QueryWriterTx.logs

/-- The traces of a block, transaction by transaction. -/
def traces (block : QueryWriterBlock) : List StoredTraceQueryItem :=
  block.txs.flatMap QueryWriterTx.traces

end QueryWriterBlock

/-- A block with the ids of its records. -/
structure AssignedBlock where
  block : QueryWriterBlock
  logs : FamilyMetadata
  txs : FamilyMetadata
  traces : FamilyMetadata
  deriving DecidableEq

/-- A batch of blocks and the state that commits it. -/
structure QueryWriterFlushBatch where
  blocks : List AssignedBlock
  state : StateIndex
  deriving DecidableEq

variable (ext : Externals)

/-! ### The payload stage -/

/-- The first id and the coded records of a family in a block. -/
def payloadRows (family : Family) (assigned : AssignedBlock) : ℕ × List Bytes :=
  match family with
  | .blockHeader =>
    (assigned.block.blockNumber, [(StoredBlockQueryItem.codec ext).encode assigned.block.header])
  | .transaction =>
    (assigned.txs.firstPrimaryId,
      assigned.block.txs.map fun tx => StoredTxQueryItem.codec.encode tx.envelope)
  | .log =>
    (assigned.logs.firstPrimaryId, assigned.block.logs.map StoredLogQueryItem.codec.encode)
  | .trace =>
    (assigned.traces.firstPrimaryId, assigned.block.traces.map StoredTraceQueryItem.codec.encode)

/-- The records of a family in a batch, with their blob and their id. -/
def payloadItems (family : Family) (blocks : List AssignedBlock) :
    List (PayloadKey × Bytes × ℕ) :=
  blocks.flatMap fun assigned =>
    (payloadRows ext family assigned).2.zipIdx.map fun p =>
      let id := (payloadRows ext family assigned).1 + p.2
      (PayloadKey.fromId family id, p.1, id)

/-- The records of a batch, blob by blob. -/
def payloadGroups (items : List (PayloadKey × Bytes × ℕ)) :
    List (PayloadKey × List (ℕ × Bytes)) :=
  collect Prod.fst (fun group item => group ++ [(item.2.2, item.2.1)]) [] items

/-- The id of the last block of a state, if it has one. -/
def lastBlockId (state : StateIndex) : Option ℕ :=
  (checkedSub state.nextBlockId 1).filter fun block =>
    state.indexedStart.all fun start => start ≤ block

/-- The last committed id of a family. -/
def committedId (state : StateIndex) : Family → Option ℕ
  | .blockHeader => lastBlockId state
  | .transaction => checkedSub state.nextTxId 1
  | .log => checkedSub state.nextLogId 1
  | .trace => checkedSub state.nextTraceId 1

/-- Where the committed part of the blob of `firstId` ends: at the location of the
last committed record if that is in the same blob, else at its start. -/
def committedEnd (state : StateIndex) (family : Family) (firstId : ℕ) : StoreM ℕ :=
  match committedId state family with
  | none => pure 0
  | some committed =>
    if PayloadKey.fromId family committed = PayloadKey.fromId family firstId then do
      match ← get (.payloadLocation family committed) with
      | none => Faulty.fail (.error (.missingData "missing committed payload location"))
      | some offset => pure offset
    else pure 0

/-- `PayloadItem::encode`: it asserts the size of the payload. -/
def payloadItemEncode (bytes : Bytes) : Except Stop Bytes :=
  if bytes.length ≤ maxPayloadSize then .ok (ext.compress bytes)
  else .error (.panic "payload exceeds 128 MiB limit")

/-- Appends coded records to a blob and notes where each of them ends. -/
def appendItems (bytes : Bytes) (ends : List ℕ) : List Bytes → Except Stop (Bytes × List ℕ)
  | [] => .ok (bytes, ends)
  | item :: items =>
    match payloadItemEncode ext item with
    | .error stop => .error stop
    | .ok coded => appendItems (bytes ++ coded) (ends ++ [(bytes ++ coded).length]) items

/-- `PartitionSchemaBlobTable::prepare_append`. -/
def prepareAppend (key : PayloadKey) (committedEnd : ℕ) (items : List Bytes) :
    StoreM (PayloadKey × Bytes × List ℕ) := do
  let blob ← get (.payload key)
  let bytes := blob.getD []
  if bytes.length < committedEnd then
    Faulty.fail (.error (.decode "committed payload exceeds blob length"))
  else do
    let appended ← Faulty.lift (appendItems ext (bytes.take committedEnd) [] items)
    pure (key, appended.1, appended.2)

/-- `PartitionSchemaBlobTable::append_batch`. -/
def appendBatch (items : List (PayloadKey × ℕ × List Bytes)) :
    StoreM (List (PayloadKey × List ℕ)) := do
  let prepared ← Faulty.traverse (fun i => prepareAppend ext i.1 i.2.1 i.2.2) items
  putBatch (prepared.map fun p => put (.payload p.1) p.2.1)
  pure (prepared.map fun p => (p.1, p.2.2))

/-- A group of records with the committed end of its blob. -/
def prepareGroup (state : StateIndex) (family : Family)
    (group : PayloadKey × List (ℕ × Bytes)) : StoreM (PayloadKey × ℕ × List (ℕ × Bytes)) :=
  match group.2 with
  | [] => Faulty.fail (.panic "payload group is non-empty")
  | (firstId, _) :: _ => do
    let committedEnd ← committedEnd state family firstId
    pure (group.1, committedEnd, group.2)

/-- The location rows of one blob. -/
def groupLocations (family : Family) (ids : List (PayloadKey × List ℕ))
    (ends : PayloadKey × List ℕ) : Except Stop (List TableWrite) :=
  match lookupKey ends.1 ids with
  | none => .error (.panic "payload group has IDs")
  | some ids =>
    if ids.length ≠ ends.2.length then
      .error (.error (.internal "payload append returned mismatched item counts"))
    else .ok ((ids.zip ends.2).map fun p => put (.payloadLocation family p.1) p.2)

/-- The payload stage of one family: writes its blobs and gives its location rows. -/
def flushFamily (state : StateIndex) (batch : QueryWriterFlushBatch) (family : Family) :
    StoreM (List TableWrite) := do
  let groups := payloadGroups (payloadItems ext family batch.blocks)
  let grouped ← Faulty.traverse (prepareGroup state family) groups
  let ids := grouped.map fun g => (g.1, g.2.2.map Prod.fst)
  let ends ← appendBatch ext (grouped.map fun g => (g.1, g.2.1, g.2.2.map Prod.snd))
  let locations ← Faulty.traverse (fun e => Faulty.lift (groupLocations family ids e)) ends
  pure locations.flatten

/-- **The payload stage.** -/
def flushPayload (state : StateIndex) (batch : QueryWriterFlushBatch) : StoreM Unit := do
  let locations ← Faulty.traverse (flushFamily ext state batch) Family.all
  putBatch locations.flatten

/-! ### The bitmap stage -/

/-- A position to set: the family, the filter and the id of a record. -/
abbrev BitmapAdd := Family × BitmapFilterValue × ℕ

/-- The first id of the page of an id. -/
def pageOf (id : ℕ) : ℕ := id / pageSpan * pageSpan

/-- The positions of consecutive records of a family, from the id `id` on. -/
def addsFrom {α : Type} (family : Family)
    (filters : α → Except QueryError (List BitmapFilterValue)) (id : ℕ) :
    List α → Except QueryError (List BitmapAdd)
  | [] => .ok []
  | record :: records => do
    let values ← filters record
    let rest ← addsFrom family filters (id + 1) records
    .ok (values.map (fun filter => (family, filter, id)) ++ rest)

/-- The positions of the transactions of a block, their logs and their traces. -/
def txAdds (txId logId traceId : ℕ) : List QueryWriterTx → Except QueryError (List BitmapAdd)
  | [] => .ok []
  | tx :: txs => do
    let values ← tx.envelope.bitmapFilters ext
    let logs ← addsFrom .log StoredLogQueryItem.bitmapFilters logId tx.logs
    let traces ← addsFrom .trace TraceWithAncestorStatus.bitmapFilters traceId
      (fromTraces tx.traces)
    let rest ← txAdds (txId + 1) (logId + tx.logs.length) (traceId + tx.traces.length) txs
    .ok (values.map (fun filter => (.transaction, filter, txId)) ++ logs ++ traces ++ rest)

/-- The positions of the records of a batch. -/
def batchAdds : List AssignedBlock → Except QueryError (List BitmapAdd)
  | [] => .ok []
  | assigned :: blocks => do
    let values ← assigned.block.header.bitmapFilters
    let txs ← txAdds ext assigned.txs.firstPrimaryId assigned.logs.firstPrimaryId
      assigned.traces.firstPrimaryId assigned.block.txs
    let rest ← batchAdds blocks
    .ok (values.map (fun filter => (.blockHeader, filter, assigned.block.blockNumber)) ++ txs ++
      rest)

/-- The positions of a batch, page by page. -/
def bitmapPages (adds : List BitmapAdd) : List (BitmapIndexKey × Finset ℕ) :=
  collect (fun add => ⟨add.1, add.2.1, pageOf add.2.2⟩)
    (fun bitmap add => insert (add.2.2 - pageOf add.2.2) bitmap) ∅ adds

/-- The page of a position. -/
def keyOf (add : BitmapAdd) : BitmapIndexKey := ⟨add.1, add.2.1, pageOf add.2.2⟩

/-- **The pages of positions**: one for each page that has some, with all of them. -/
theorem mem_bitmapPages {adds : List BitmapAdd} {key : BitmapIndexKey} {bits : Finset ℕ} :
    (key, bits) ∈ bitmapPages adds ↔ (∃ add ∈ adds, keyOf add = key) ∧
      ∀ x, x ∈ bits ↔ ∃ add ∈ adds, keyOf add = key ∧ x = add.2.2 - key.page := by
  have hfold : ∀ (l : List BitmapAdd) (acc : Finset ℕ) (x : ℕ),
      x ∈ l.foldl (fun bitmap add => insert (add.2.2 - pageOf add.2.2) bitmap) acc ↔
        x ∈ acc ∨ ∃ add ∈ l, x = add.2.2 - pageOf add.2.2 := by
    intro l
    induction l with
    | nil => simp
    | cons add l ih =>
      intro acc x
      rw [List.foldl_cons, ih]
      simp only [Finset.mem_insert, List.mem_cons, exists_eq_or_imp]
      tauto
  rw [bitmapPages, mem_collect]
  refine and_congr_right fun _ => ?_
  rw [Finset.ext_iff]
  refine forall_congr' fun x => ?_
  rw [hfold]
  refine iff_congr Iff.rfl ?_
  simp only [Finset.notMem_empty, false_or, List.mem_filter, decide_eq_true_eq, and_assoc]
  refine exists_congr fun add => and_congr_right fun _ => ?_
  constructor
  · rintro ⟨rfl, hx⟩
    exact ⟨rfl, hx⟩
  · rintro ⟨rfl, hx⟩
    exact ⟨rfl, hx⟩

/-- The first id of a family that the batch writes. -/
def bitmapCommitted (batch : QueryWriterFlushBatch) : Family → ℕ
  | .blockHeader => (batch.blocks.head?.map fun assigned => assigned.block.blockNumber).getD 0
  | .transaction =>
    (batch.blocks.head?.map fun assigned => assigned.txs.firstPrimaryId).getD batch.state.nextTxId
  | .log =>
    (batch.blocks.head?.map fun assigned => assigned.logs.firstPrimaryId).getD
      batch.state.nextLogId
  | .trace =>
    (batch.blocks.head?.map fun assigned => assigned.traces.firstPrimaryId).getD
      batch.state.nextTraceId

/-- What of a stored page is committed: nothing if the page starts at or after
`committed`, else the positions before it. -/
def committedBitmap (committed : ℕ) (key : BitmapIndexKey) : StoreM (Finset ℕ) :=
  if committed ≤ key.page then pure ∅
  else do
    let value ← get (.bitmapIndex key)
    let bitmap := (value.map BitmapIndexValue.bitmap).getD ∅
    pure (if committed < saturatingAdd key.page pageSpan
      then bitmap.filter (· < committed - key.page) else bitmap)

/-- The rewritten page, and its statistics if it is not empty. The end of the last
page of all wraps around. -/
def pageUpdate (batch : QueryWriterFlushBatch) (page : BitmapIndexKey × Finset ℕ) :
    StoreM (TableWrite × Option TableWrite) := do
  let committed ← committedBitmap (bitmapCommitted batch page.1.family) page.1
  let bitmap := committed ∪ page.2
  pure (put (.bitmapIndex page.1) ⟨page.1.page, (page.1.page + pageSpan) % 2 ^ 64, bitmap⟩,
    if bitmap = ∅ then none else some (put (.pageStats page.1) (bitmap.card % 2 ^ 32)))

/-- **The bitmap stage.** -/
def flushBitmap (batch : QueryWriterFlushBatch) : StoreM Unit := do
  let adds ← Faulty.lift ((batchAdds ext batch.blocks).mapError Stop.error)
  let updates ← Faulty.traverse (pageUpdate batch) (bitmapPages adds)
  putBatch (updates.map Prod.fst)
  putBatch (updates.filterMap Prod.snd)

/-! ### The metadata stage -/

/-- The ids of a family in a block. -/
def familyRange (assigned : AssignedBlock) : Family → FamilyMetadata
  | .blockHeader => ⟨assigned.block.blockNumber, 1⟩
  | .transaction => assigned.txs
  | .log => assigned.logs
  | .trace => assigned.traces

/-- The rows of the block hash table. -/
def blockHashRows (blocks : List AssignedBlock) : List TableWrite :=
  blocks.map fun assigned =>
    put (.blockHash assigned.block.blockNumber) (assigned.block.blockHash ext)

/-- The rows of the family table. -/
def familyRows (blocks : List AssignedBlock) : List TableWrite :=
  blocks.flatMap fun assigned => Family.all.map fun family =>
    put (.family family assigned.block.blockNumber) (familyRange assigned family)

/-- The rows of the block index; a block without records of a family has none. -/
def familyBlockIndexRows (blocks : List AssignedBlock) : List TableWrite :=
  blocks.flatMap fun assigned => Family.all.flatMap fun family =>
    if 0 < (familyRange assigned family).count then
      [put (.familyBlockIndex family (familyRange assigned family).firstPrimaryId)
        assigned.block.blockNumber]
    else []

/-- **The metadata stage.** -/
def flushMetadata (batch : QueryWriterFlushBatch) : StoreM Unit := do
  putBatch (blockHashRows ext batch.blocks)
  putBatch (familyRows batch.blocks)
  putBatch (familyBlockIndexRows batch.blocks)

/-- **The flush of a batch**: the three stages, and then the state row. -/
def flushBatch (state : StateIndex) (batch : QueryWriterFlushBatch) : StoreM Unit := do
  flushPayload ext state batch
  flushBitmap ext batch
  flushMetadata ext batch
  putBatch [put .stateIndex batch.state.columns]

end Query

end MonadServices
