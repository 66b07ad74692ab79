import MonadServices.Lib.Collect
import MonadServices.Query.Read
import MonadServices.Query.Writer.Flush

/-!
# The validator

`run_validation` walks over a range of blocks and reads everything the tables hold
about them: the ranges of ids, the payloads, and, for every filter of every record,
the bitmap page. It carries the id that each family should continue with, the
positions it expects on each page, and the pages it has read. A fault it finds in a
block is an issue, after which it goes on; when it has walked over all that is
indexed, it compares the pages with the positions it expects.

The tables do not change while it runs and it is not interrupted, so that a read is a
function of the tables.
-/

namespace MonadServices

namespace Query

/-- A page that is not as expected. -/
inductive BitmapError where
  | notLoaded (key : BitmapIndexKey)
  | mismatch (key : BitmapIndexKey) (expected actual : Finset ℕ)
  deriving DecidableEq

/-- The errors of the validator, with the values that their texts show. -/
inductive ValidateError where
  | query (error : QueryError)
  | rlp
  | missingStateIndex
  | noIndexedBlocks
  | startExceedsEnd
  | idRangeOverflows
  | payloadIdRangeOverflows
  | missingPayloadLocation (family : Family) (id : ℕ)
  | missingPrecedingLocation (family : Family) (id : ℕ)
  | invalidPayloadBounds (family : Family) (id : ℕ)
  | missingPayloadBlob (family : Family) (partition : ℕ)
  | itemCountMismatch (family : Family) (partition : ℕ)
  | missingBlockHash
  | headerMismatch (block : ℕ)
  | missingBitmapPage (family : Family) (id : ℕ)
  | missingPageStats (family : Family) (id : ℕ)
  | membershipMismatch (family : Family) (id : ℕ)
  | bitmapErrors (errors : List BitmapError)
  | missingFinalStateIndex
  | foundIssues
  deriving DecidableEq

/-- What the validator reports about a block. -/
inductive Issue where
  | missingBlockHash
  | nonContiguousIds
  | familyBlockIndexMismatch
  | payload (error : ValidateError)
  | missingFamilyMetadata
  | stateChanged
  | frontiersDisagree
  deriving DecidableEq

/-- What the validator carries from block to block. -/
structure Walk where
  expectedFamilyIds : Family → Option ℕ
  expectedBitmap : List (BitmapIndexKey × Finset ℕ)
  bitmapCache : List (BitmapIndexKey × BitmapIndexValue × ℕ)
  issues : List (ℕ × Issue)
  warnings : List (ℕ × BitmapIndexKey)

/-- `Progress::issue`. -/
def Walk.issue (v : Walk) (block : ℕ) (issue : Issue) : Walk :=
  { v with issues := v.issues ++ [(block, issue)] }

/-- A read of the tables. -/
def readRow (t : Tables) (k : TableKey) : Except ValidateError (Option k.Value) :=
  (rowValue (t k)).mapError .query

section Payload

variable (ext : Externals) (t : Tables) (family : Family)

/-! ### Payloads -/

/-- The ids of a range. -/
def payloadIds (metadata : FamilyMetadata) : Except ValidateError (List ℕ) :=
  (List.range metadata.count).mapM fun offset =>
    match checkedAdd metadata.firstPrimaryId offset with
    | none => .error .payloadIdRangeOverflows
    | some id => .ok id

/-- The ids whose locations are read: each id, and the one before it in its partition.
An id may be listed twice, which reads the same row. -/
def locationKeys (ids : List ℕ) : List ℕ :=
  ids.flatMap fun id => if partitionStart id < id then [id - 1, id] else [id]

/-- The locations of ids; a missing one is left out. -/
def readLocations (keys : List ℕ) : Except ValidateError (List (ℕ × ℕ)) := do
  let values : List (Option ℕ) ← keys.mapM fun id => readRow t (.payloadLocation family id)
  .ok ((keys.zip values).filterMap fun p => p.2.map fun offset => (p.1, offset))

/-- The bounds of the payload of an id. -/
def payloadBounds (locations : List (ℕ × ℕ)) (id : ℕ) : Except ValidateError (ℕ × ℕ) :=
  match lookupKey id locations with
  | none => .error (.missingPayloadLocation family id)
  | some endOffset =>
    match if id = partitionStart id then some 0 else lookupKey (id - 1) locations with
    | none => .error (.missingPrecedingLocation family id)
    | some startOffset =>
      if endOffset < startOffset then .error (.invalidPayloadBounds family id)
      else .ok (startOffset, endOffset)

/-- The bounds of the payloads, partition by partition. -/
def payloadPartitions (locations : List (ℕ × ℕ)) (ids : List ℕ) :
    Except ValidateError (List (ℕ × List (ℕ × ℕ))) := do
  let bounds ← ids.mapM (payloadBounds family locations)
  .ok (collect Prod.fst (fun group p => group ++ [p.2]) [] ((ids.map partitionStart).zip bounds))

/-- The payloads of one partition. -/
def readPartition (ids : List ℕ) (p : ℕ × List (ℕ × ℕ)) :
    Except ValidateError (List (ℕ × Bytes)) := do
  let boundaries ← (PartitionItemBoundaries.new p.2).mapError .query
  match ← (getMany ext t (PayloadKey.fromId family p.1) boundaries).mapError .query with
  | none => .error (.missingPayloadBlob family p.1)
  | some values =>
    if values.length ≠ boundaries.ranges.length then .error (.itemCountMismatch family p.1)
    else .ok ((ids.filter fun id => partitionStart id = p.1).zip values)

/-- The payloads of a range. -/
def payloadsOf (metadata : FamilyMetadata) : Except ValidateError (List (ℕ × Bytes)) := do
  let ids ← payloadIds metadata
  let locations ← readLocations t family (locationKeys ids)
  let partitions ← payloadPartitions family locations ids
  let items ← partitions.mapM (readPartition ext t family ids)
  .ok items.flatten

/-- A header has to have the number of its block and the stored hash. -/
def checkHeaders (block : ℕ) (items : List (ℕ × Bytes)) : Except ValidateError Unit := do
  match ← readRow t (.blockHash block) with
  | none => .error .missingBlockHash
  | some expectedHash =>
    items.forM fun item =>
      match (StoredBlockQueryItem.codec ext).decode item.2 with
      | none => .error .rlp
      | some stored =>
        if stored.header.number.toNat ≠ block ∨ ext.hashSlow stored.header ≠ expectedHash then
          .error (.headerMismatch block)
        else .ok ()

/-! ### Bitmap membership -/

/-- The filters of a stored record. -/
def storedFilters {α : Type} (codec : RlpCodec α)
    (filters : α → Except QueryError (List BitmapFilterValue)) (item : ℕ × Bytes) :
    Except ValidateError (ℕ × List BitmapFilterValue) :=
  match codec.decode item.2 with
  | none => .error .rlp
  | some record => ((filters record).map fun values => (item.1, values)).mapError .query

/-- The filters of the stored records of a block. Those of traces are worked out from
all the traces of the block. -/
def expectedFilters (items : List (ℕ × Bytes)) :
    Except ValidateError (List (ℕ × List BitmapFilterValue)) :=
  match family with
  | .blockHeader =>
    items.mapM (storedFilters (StoredBlockQueryItem.codec ext) StoredBlockQueryItem.bitmapFilters)
  | .transaction =>
    items.mapM (storedFilters StoredTxQueryItem.codec (StoredTxQueryItem.bitmapFilters ext))
  | .log => items.mapM (storedFilters StoredLogQueryItem.codec StoredLogQueryItem.bitmapFilters)
  | .trace => do
    let traces ← items.mapM fun item =>
      match StoredTraceQueryItem.codec.decode item.2 with
      | none => .error .rlp
      | some trace => .ok trace
    ((items.map Prod.fst).zip (fromTraces traces)).mapM fun p =>
      ((p.2.bitmapFilters).map fun values => (p.1, values)).mapError .query

/-- The page of a filter, from the pages already read or from the table. -/
def loadPage (block id : ℕ) (key : BitmapIndexKey) (v : Walk) :
    Except ValidateError BitmapIndexValue × Walk :=
  match lookupKey key v.bitmapCache with
  | some cached => (.ok cached.1, v)
  | none =>
    match readRow t (.bitmapIndex key), readRow t (.pageStats key) with
    | .error e, _ => (.error e, v)
    | .ok none, _ => (.error (.missingBitmapPage key.family id), v)
    | .ok (some _), .error e => (.error e, v)
    | .ok (some _), .ok none => (.error (.missingPageStats key.family id), v)
    | .ok (some bitmap), .ok (some stats) =>
      (.ok bitmap, { v with
        bitmapCache := v.bitmapCache ++ [(key, bitmap, stats)]
        warnings := if stats ≠ bitmap.bitmap.card then v.warnings ++ [(block, key)]
          else v.warnings })

/-- Whether a page lists an id. -/
def pageLists (bitmap : BitmapIndexValue) (id : ℕ) : Bool :=
  bitmap.idStart ≤ id && id ≤ bitmap.idEnd && bitmap.idStart / pageSpan == pageOf id / pageSpan &&
    decide (id - pageOf id ∈ bitmap.bitmap)

/-- One filter of one record. -/
def checkFilter (block : ℕ) (p : ℕ × BitmapFilterValue) (v : Walk) :
    Except ValidateError Unit × Walk :=
  let key : BitmapIndexKey := ⟨family, p.2, pageOf p.1⟩
  let v := { v with
    expectedBitmap := entry key (fun bits => insert (p.1 - pageOf p.1) bits) ∅ v.expectedBitmap }
  match loadPage t block p.1 key v with
  | (.error e, v) => (.error e, v)
  | (.ok bitmap, v) =>
    if pageLists bitmap p.1 then (.ok (), v) else (.error (.membershipMismatch family p.1), v)

/-- All the filters of the records of a block, until one of them fails. -/
def checkFilters (block : ℕ) :
    List (ℕ × BitmapFilterValue) → Walk → Except ValidateError Unit × Walk
  | [], v => (.ok (), v)
  | p :: ps, v =>
    match checkFilter t family block p v with
    | (.error e, v) => (.error e, v)
    | (.ok (), v) => checkFilters block ps v

/-- `validate_bitmap_membership`. -/
def validateBitmapMembership (block : ℕ) (items : List (ℕ × Bytes)) (v : Walk) :
    Except ValidateError Unit × Walk :=
  match expectedFilters ext family items with
  | .error e => (.error e, v)
  | .ok expected =>
    checkFilters t family block (expected.flatMap fun e => e.2.map fun filter => (e.1, filter)) v

/-- `validate_payload`. -/
def validatePayload (block : ℕ) (metadata : FamilyMetadata) (v : Walk) :
    Except ValidateError Unit × Walk :=
  match payloadsOf ext t family metadata with
  | .error e => (.error e, v)
  | .ok items =>
    match if family = .blockHeader then checkHeaders ext t block items else .ok () with
    | .error e => (.error e, v)
    | .ok () => validateBitmapMembership ext t family block items v

end Payload

/-! ### Blocks -/

section Blocks

variable (ext : Externals) (t : Tables)

/-- Whether the block index has the row of a range that is not empty. -/
def blockIndexAgrees (family : Family) (block : ℕ) (metadata : FamilyMetadata) :
    Except ValidateError Bool :=
  if 0 < metadata.count then do
    match ← (seekLe t family metadata.firstPrimaryId).mapError .query with
    | some row => .ok (row.1 = metadata.firstPrimaryId ∧ row.2 = block)
    | none => .ok false
  else .ok true

/-- A range of ids of a block. -/
def validateRange (block : ℕ) (family : Family) (metadata : FamilyMetadata) (v : Walk) :
    Except ValidateError Walk := do
  let v := if (v.expectedFamilyIds family).all (· = metadata.firstPrimaryId) then v
    else v.issue block .nonContiguousIds
  match checkedAdd metadata.firstPrimaryId metadata.count with
  | none => .error .idRangeOverflows
  | some next => do
    let v := { v with expectedFamilyIds := Function.update v.expectedFamilyIds family (some next) }
    let agrees ← blockIndexAgrees t family block metadata
    let v := if agrees then v else v.issue block .familyBlockIndexMismatch
    match validatePayload ext t family block metadata v with
    | (.ok (), v) => .ok v
    | (.error e, v) => .ok (v.issue block (.payload e))

/-- The rows of the family table of a batch of blocks. -/
def familyMetadata (blocks : List ℕ) :
    Except ValidateError (List ((ℕ × Family) × Option FamilyMetadata)) :=
  (Family.all.flatMap fun family => blocks.map fun block => (block, family)).mapM fun key =>
    (readRow t (.family key.2 key.1)).map fun row => (key, row)

/-- A family of a block. -/
def validateFamily (rows : List ((ℕ × Family) × Option FamilyMetadata)) (block : ℕ) (v : Walk)
    (family : Family) : Except ValidateError Walk :=
  match (lookupKey (block, family) rows).join with
  | none => .ok (v.issue block .missingFamilyMetadata)
  | some metadata => validateRange ext t block family metadata v

/-- A block. -/
def validateBlock (rows : List ((ℕ × Family) × Option FamilyMetadata)) (v : Walk) (block : ℕ) :
    Except ValidateError Walk := do
  let hash ← readRow t (.blockHash block)
  let v := if hash.isSome then v else v.issue block .missingBlockHash
  Family.all.foldlM (validateFamily ext t rows block) v

/-- A batch of blocks, whose family rows are read first. -/
def validateBatch (v : Walk) (blocks : List ℕ) : Except ValidateError Walk := do
  let rows ← familyMetadata t blocks
  blocks.foldlM (validateBlock ext t rows) v

/-- The number of blocks in a batch. -/
def metadataBatchSize : ℕ := 64

/-- The batches of the blocks from `start` to `last`. -/
def metadataBatches (start last : ℕ) : List (List ℕ) :=
  (List.range ((last - start) / metadataBatchSize + 1)).map fun k =>
    List.range' (start + k * metadataBatchSize)
      (min metadataBatchSize (last + 1 - (start + k * metadataBatchSize)))

/-- `validate_bitmap_exact`. -/
def validateBitmapExact (v : Walk) : Except ValidateError Unit :=
  let errors := v.expectedBitmap.filterMap fun e =>
    match lookupKey e.1 v.bitmapCache with
    | none => some (.notLoaded e.1)
    | some cached =>
      if cached.1.bitmap = e.2 then none else some (.mismatch e.1 e.2 cached.1.bitmap)
  if errors = [] then .ok () else .error (.bitmapErrors errors)

/-- The ids to continue with, from the block before the first one. -/
def startIds (start : ℕ) : Except ValidateError (Family → Option ℕ) :=
  if start = 0 then .ok fun _ => none
  else Family.all.foldlM (fun ids family => do
    match ← readRow t (.family family (start - 1)) with
    | none => .ok ids
    | some metadata =>
      match checkedAdd metadata.firstPrimaryId metadata.count with
      | none => .error .idRangeOverflows
      | some next => .ok (Function.update ids family (some next))) fun _ => none

/-- The state index. -/
def readState (missing : ValidateError) : Except ValidateError StateIndex := do
  match ← readRow t .stateIndex with
  | none => .error missing
  | some row => .ok row.decode

/-- Whether the last ids of the walk are those of the state. The block headers are not
compared. -/
def frontiersAgree (state : StateIndex) (v : Walk) : Bool :=
  v.expectedFamilyIds .transaction = some state.nextTxId &&
    v.expectedFamilyIds .log = some state.nextLogId &&
    v.expectedFamilyIds .trace = some state.nextTraceId

/-- **`run_validation`**: gives what it has carried, which reports no issue, or an error. -/
def runValidation (startBlock : ℕ) (endBlock : Option ℕ) : Except ValidateError Walk := do
  let state ← readState t .missingStateIndex
  match endBlock.or (lastBlockId state) with
  | none => .error .noIndexedBlocks
  | some last =>
    if last < startBlock then .error .startExceedsEnd
    else do
      let ids ← startIds t startBlock
      let v ← (metadataBatches startBlock last).foldlM (validateBatch ext t) ⟨ids, [], [], [], []⟩
      if state.indexedStart = some startBlock ∧ lastBlockId state = some last then
        validateBitmapExact v
      let final ← readState t .missingFinalStateIndex
      let v := if final.nextBlockId ≠ state.nextBlockId ∨ final.nextTxId ≠ state.nextTxId ∨
          final.nextLogId ≠ state.nextLogId ∨ final.nextTraceId ≠ state.nextTraceId then
        v.issue last .stateChanged else v
      let v := if lastBlockId state = some last ∧ frontiersAgree state v = false then
        v.issue last .frontiersDisagree else v
      if v.issues = [] then .ok v else .error .foundIssues

end Blocks

end Query

end MonadServices
