import MonadServices.Rpc.BlockBuffer
import MonadServices.Rpc.GetLogs

/-!
# `eth_getLogs` by block hash

A request for the logs of the block with a hash is answered in two steps. The hash is resolved to
a number, by triedb or by the archive, and then the logs are read by number: from the index if the
number is old, else from the block buffer, from triedb under its block key for the number, or from
the archive. Nothing compares the block that is read with the hash. While a fork is open the
buffer may hold another block of that number than the one triedb resolved, and its logs are
returned.

**The logs that are returned are of the block with the hash if and only if** the block that the
first source has under the number is that block, or has no log that passes the filter
(`MonadServices.Rpc.DataProvider.getLogs_hash_iff`).
-/

namespace MonadServices

namespace Rpc

open Archive Archive.LogsIndex

/-! ### The sources -/

section Sources

/-- How a request fails. -/
inductive JsonRpcError where
  | internalError (message : String)
  | invalidBlockRange
  | rangeTooLarge
  | maxResponseSizeExceeded
  deriving DecidableEq

/-- A version of a block in triedb. -/
inductive BlockKey where
  | finalized (n : UInt64)
  | proposed (n : UInt64) (id : B256)

/-- The block number of a key. -/
def BlockKey.seqNum : BlockKey → UInt64
  | .finalized n | .proposed n _ => n

/-- A block of the historical sources. -/
inductive BlockPointer where
  | finalized (n : UInt64)
  | nonFinalized (n : UInt64) (id : B256)

def BlockPointer.ofKey : BlockKey → BlockPointer
  | .finalized n => .finalized n
  | .proposed n id => .nonFinalized n id

def BlockPointer.key : BlockPointer → BlockKey
  | .finalized n => .finalized n
  | .nonFinalized n id => .proposed n id

variable (alloy : Alloy)

/-- **What triedb answers.** -/
structure Triedb where
  getLatestProposedBlockKey : BlockKey
  getBlockNumberByHash : BlockKey → B256 → Except String (Option UInt64)
  getBlockKey : UInt64 → Option BlockKey
  getBlockHeader : BlockKey → Except String (Option (BlockHeader alloy))
  getTransactions : BlockKey → Except String (List alloy.Tx)
  getReceipts : BlockKey → Except String (List alloy.Receipt)

/-- **What the archive answers.** -/
structure ArchiveReader where
  tryGetBlockNumberByHash : B256 → Except String (Option UInt64)
  tryGetBlockByNumber : UInt64 → Except String (Option alloy.Block)
  getBlockReceipts : UInt64 → Except String (List alloy.Receipt)
  hasLogIndex : Bool
  latestIndexed : Except Archive.Fault (Option UInt64)
  queryLogs : UInt64 → UInt64 → Archive.Filter →
    Except QueryFault (List (Except QueryFault (TxIndexedData alloy)))

/-- A receipt as the event server gives it. Of its logs the index of the first one is read. -/
structure TransactionReceipt where
  transactionHash : B256
  inner : alloy.ReceiptEnvelope
  firstLogIndex : Option UInt64

/-- What the block buffer stores. -/
def bufferKinds : Buffer.Kinds where
  Header := BlockHeader alloy
  Tx := alloy.Tx
  Receipt := TransactionReceipt alloy
  number header := alloy.number header.header
  hash header := header.hash
  txHash tx := alloy.txHash tx.tx
  transactionHash r := r.transactionHash

/-- A block of the historical sources, with its hash if it is known. -/
structure HistoricalBlockData where
  header : alloy.Header
  headerHashPrecomputed : Option B256
  transactions : List alloy.Tx

/-- **All sources together.** -/
structure DataProvider where
  buffer : Option (Buffer.Maps (bufferKinds alloy))
  triedb : Triedb alloy
  archiveReader : Option (ArchiveReader alloy)

end Sources

variable {alloy : Alloy}

/-! ### Reading a block by its number -/

/-- The receipts of a buffered block, from the given log index on: each has to start where the
one before it ends. -/
def Buffer.Maps.receiptsFrom (m : Buffer.Maps (bufferKinds alloy)) :
    UInt64 → List alloy.Tx → Option (List alloy.Receipt)
  | _, [] => some []
  | logIndex, tx :: txs => do
    let (_, r) ← m.txByHash (alloy.txHash tx.tx)
    if alloy.logs r.inner ≠ [] ∧ r.firstLogIndex ≠ some logIndex then none
    else
      let rest ← m.receiptsFrom (logIndex + UInt64.ofNat (alloy.logs r.inner).length) txs
      return ⟨r.inner, logIndex⟩ :: rest

/-- `get_bloom_filtered_header_transactions_receipts` of the buffer. -/
def Buffer.Maps.getBloomFilteredHeaderTransactionsReceipts (m : Buffer.Maps (bufferKinds alloy))
    (height : UInt64) (filterMatch : alloy.Header → Bool) : Option (Fetched alloy) := do
  let b ← m.blockByHeight height
  let header : BlockHeader alloy := b.header
  if filterMatch header.header then
    let receipts ← m.receiptsFrom 0 b.transactions
    return (header, b.transactions, receipts)
  else return (header, [], [])

/-- The first source that has a value; an error ends the search. -/
def executeOnSources {α : Type} : List (Except String (Option α)) → Except String (Option α)
  | [] => .ok none
  | .ok (some a) :: _ => .ok (some a)
  | .ok none :: rest => executeOnSources rest
  | .error e :: _ => .error e

namespace DataProvider

variable (p : DataProvider alloy)

/-- `get_latest_block_number`. -/
def getLatestBlockNumber : UInt64 := p.triedb.getLatestProposedBlockKey.seqNum

/-- `try_resolve_block_hash` of triedb and then of the archive. -/
def tryResolveBlockHash (h : B256) : Except String (Option BlockPointer) :=
  executeOnSources <|
    (do
      let n ← p.triedb.getBlockNumberByHash p.triedb.getLatestProposedBlockKey h
      return (n.bind p.triedb.getBlockKey).map BlockPointer.ofKey) ::
    p.archiveReader.toList.map fun reader => do
      let n ← reader.tryGetBlockNumberByHash h
      return n.map BlockPointer.finalized

/-- **The number of the block with a hash**, `none` if no source knows the hash. -/
def resolve (h : B256) : Except JsonRpcError (Option UInt64) :=
  match p.triedb.getBlockNumberByHash p.triedb.getLatestProposedBlockKey h with
  | .error _ => .error (.internalError "could not get block hash")
  | .ok (some n) => .ok (some n)
  | .ok none =>
    match p.tryResolveBlockHash h with
    | .error e => .error (.internalError e)
    | .ok none => .ok none
    | .ok (some (.finalized n)) => .ok (some n)
    | .ok (some (.nonFinalized _ _)) => .error (.internalError
        "archive produced non-finalized block number after resolving block hash")

/-- `get_block` of triedb and then of the archive. A block of which triedb has only the header is
left to the archive. -/
def getBlock (pointer : BlockPointer) : Except String (Option (HistoricalBlockData alloy)) :=
  executeOnSources <|
    (do
      match ← p.triedb.getBlockHeader pointer.key with
      | none => return none
      | some header =>
        match p.triedb.getTransactions pointer.key with
        | .error _ => return none
        | .ok transactions => return some ⟨header.header, some header.hash, transactions⟩) ::
    p.archiveReader.toList.map fun reader =>
      match pointer with
      | .nonFinalized _ _ => .ok none
      | .finalized n => do
        let block ← reader.tryGetBlockByNumber n
        return block.map fun b => ⟨b.header, none, b.transactions⟩

section Fetch

variable (filterMatch : alloy.Header → Bool)

/-- `fetch_bloom_filtered_header_transactions_receipts_from_archive`. -/
def fetchFromHistorical (reader : ArchiveReader alloy) (n : UInt64) :
    Except JsonRpcError (Fetched alloy) :=
  match p.getBlock (.finalized n) with
  | .error e => .error (.internalError e)
  | .ok none => .error (.internalError "Error getting block by number")
  | .ok (some data) =>
    let header := ⟨data.headerHashPrecomputed.getD (alloy.hashSlow data.header), data.header⟩
    if filterMatch data.header then
      match reader.getBlockReceipts n with
      | .error _ => .error (.internalError "Error getting block receipts")
      | .ok receipts => .ok (header, data.transactions, receipts)
    else .ok (header, [], [])

/-- The last resort for a block. -/
def fetchFallback (n : UInt64) : Except JsonRpcError (Fetched alloy) :=
  match p.archiveReader with
  | none => .error (.internalError "error getting block header from triedb and archive")
  | some reader => p.fetchFromHistorical filterMatch reader n

/-- A block from triedb, under its key for the number. -/
def fetchFromTriedb (n : UInt64) : Except JsonRpcError (Fetched alloy) :=
  match p.triedb.getBlockKey n with
  | none => .error (.internalError "missing block in db in range")
  | some key =>
    match p.triedb.getBlockHeader key with
    | .error e => .error (.internalError e)
    | .ok none => p.fetchFallback filterMatch n
    | .ok (some header) =>
      if filterMatch header.header then
        match p.triedb.getTransactions key with
        | .error _ => p.fetchFallback filterMatch n
        | .ok transactions =>
          match p.triedb.getReceipts key with
          | .error e => .error (.internalError e)
          | .ok receipts => .ok (header, transactions, receipts)
      else .ok (header, [], [])

/-- **The block with a number, from the first source that has it.** -/
def fetchByNumber (n : UInt64) : Except JsonRpcError (Fetched alloy) :=
  match p.buffer.bind (·.getBloomFilteredHeaderTransactionsReceipts n filterMatch) with
  | some fetched => .ok fetched
  | none => p.fetchFromTriedb filterMatch n

end Fetch

end DataProvider

/-! ### Collecting the logs -/

/-- `u64::saturating_mul`. -/
def saturatingMul (a b : ℕ) : ℕ := min (a * b) (2 ^ 64 - 1)

/-- What bounds a response: the length of a log in it, its size, and the number of blocks. -/
structure ResponseLimit where
  jsonSerializedLen : RpcLog → ℕ
  maxResponseSize : ℕ
  numBlocksTotal : ℕ

namespace ResponseLimit

variable (limit : ResponseLimit) {ε : Type}

/-- The size of a response that the blocks so far let expect is too large. -/
def extrapolationExceeds (numBlocksProcessed size : ℕ) : Bool :=
  4 * 1024 * 1024 ≤ size && 100 ≤ numBlocksProcessed &&
    limit.maxResponseSize * 2 -
        saturatingMul limit.maxResponseSize numBlocksProcessed / limit.numBlocksTotal <
      saturatingMul size limit.numBlocksTotal / numBlocksProcessed

/-- The rest of a stream of blocks, after `numBlocksProcessed` blocks whose logs have the size
`size`. -/
def collectFrom : Option UInt64 → ℕ → ℕ → List RpcLog →
    List (Except ε (UInt64 × List RpcLog)) → Except JsonRpcError (Except ε (List RpcLog))
  | _, _, _, response, [] => .ok (.ok response)
  | _, _, _, _, .error e :: _ => .ok (.error e)
  | last, numBlocksProcessed, size, response, .ok (n, logs) :: rest =>
    let newSize := size + (logs.map limit.jsonSerializedLen).sum
    if last.any (n ≤ ·) then .error (.internalError "Logs out of order")
    else if limit.numBlocksTotal < numBlocksProcessed + 1 then
      .error (.internalError "Logs out of range")
    else if limit.maxResponseSize < newSize then .error .maxResponseSizeExceeded
    else if limit.extrapolationExceeds (numBlocksProcessed + 1) newSize then
      .error .maxResponseSizeExceeded
    else collectFrom (some n) (numBlocksProcessed + 1) newSize (response ++ logs) rest

/-- `try_collect_logs_stream_with_heuristic_response_limit`. -/
def tryCollectLogsStream (stream : List (Except ε (UInt64 × List RpcLog))) :
    Except JsonRpcError (Except ε (List RpcLog)) :=
  limit.collectFrom none 0 0 [] stream

/-- **Logs that are collected are all logs of a stream without an error.** -/
theorem collectFrom_ok {last : Option UInt64} {numBlocksProcessed size : ℕ}
    {response logs : List RpcLog} {stream : List (Except ε (UInt64 × List RpcLog))}
    (h : limit.collectFrom last numBlocksProcessed size response stream = .ok (.ok logs)) :
    ∃ blocks : List (UInt64 × List RpcLog),
      stream = blocks.map .ok ∧ logs = response ++ blocks.flatMap (·.2) := by
  induction stream generalizing last numBlocksProcessed size response with
  | nil =>
    obtain rfl : response = logs := by simpa [collectFrom] using h
    exact ⟨[], rfl, by simp⟩
  | cons block stream ih =>
    cases block with
    | error e => simp [collectFrom] at h
    | ok block =>
      obtain ⟨n, blockLogs⟩ := block
      rw [collectFrom] at h
      split_ifs at h
      obtain ⟨blocks, rfl, rfl⟩ := ih h
      exact ⟨(n, blockLogs) :: blocks, rfl, by simp⟩

/-- An error comes from the stream. -/
theorem tryCollectLogsStream_ne_error (blocks : List (UInt64 × List RpcLog)) (e : ε) :
    limit.tryCollectLogsStream (blocks.map .ok) ≠ .ok (.error e) := by
  have hfrom : ∀ (last : Option UInt64) (numBlocksProcessed size : ℕ) (response : List RpcLog),
      limit.collectFrom last numBlocksProcessed size response (blocks.map .ok) ≠
        .ok (.error e) := by
    induction blocks with
    | nil => simp [collectFrom]
    | cons block blocks ih =>
      intro last numBlocksProcessed size response h
      rw [List.map_cons, collectFrom] at h
      split_ifs at h
      exact ih _ _ _ _ h
  exact hfrom none 0 0 []

theorem tryCollectLogsStream_ok {logs : List RpcLog}
    {stream : List (Except ε (UInt64 × List RpcLog))}
    (h : limit.tryCollectLogsStream stream = .ok (.ok logs)) :
    ∃ blocks : List (UInt64 × List RpcLog),
      stream = blocks.map .ok ∧ logs = blocks.flatMap (·.2) := by
  simpa using limit.collectFrom_ok h

end ResponseLimit

/-! ### The request -/

/-- The options of a request. -/
structure GetLogsConfig where
  jsonSerializedLen : RpcLog → ℕ
  maxResponseSize : ℕ
  maxBlockRange : UInt64
  useEthGetLogsIndex : Bool
  maxFinalizedBlockCacheLen : UInt64

/-- The filter constrains the logs. -/
def hasFilters (filter : Archive.Filter) : Bool :=
  !filter.address.isEmpty || filter.topics.any fun t => !t.isEmpty

/-- `try_create_logs_stream_using_index`: the logs of what the index returns, by block. -/
def ArchiveReader.logsStream (reader : ArchiveReader alloy) (fromBlock toBlock : UInt64)
    (filter : Archive.Filter) :
    Except AssertFailed (Except IndexFault (List (Except QueryFault (UInt64 × List RpcLog)))) :=
  match checkIndexed reader.hasLogIndex reader.latestIndexed toBlock with
  | .error e => .ok (.error e)
  | .ok () =>
    match reader.queryLogs fromBlock toBlock filter with
    | .error e => .ok (.error (.query e))
    | .ok items => do
      let stream ← groupReceipts none [] (items.map fun item => item.map parseItem)
      return .ok (stream.map fun group => group.map fun (n, receipts) =>
        (n, receipts.flatMap fun logs => receiptEnvelopeToLogsIter logs filter))

namespace DataProvider

variable (p : DataProvider alloy) (bloomHas : alloy.Header → Bytes → Bool)
  (cfg : GetLogsConfig) (filter : Archive.Filter)

/-- The limit of a response over a range. -/
def limit (cfg : GetLogsConfig) (fromBlock toBlock : UInt64) : ResponseLimit :=
  ⟨cfg.jsonSerializedLen, cfg.maxResponseSize, toBlock.toNat + 1 - fromBlock.toNat⟩

/-- The archive that is asked for its index, if it is to be. -/
def indexReader (toBlock : UInt64) : Option (ArchiveReader alloy) :=
  if cfg.useEthGetLogsIndex &&
      decide (toBlock + cfg.maxFinalizedBlockCacheLen < p.getLatestBlockNumber) &&
      hasFilters filter then p.archiveReader
  else none

/-- The blocks of a range one after the other. -/
def logsStream (fromBlock toBlock : UInt64) :
    List (Except JsonRpcError (UInt64 × List RpcLog)) :=
  (blockRange fromBlock toBlock).map fun n => do
    let fetched ← p.fetchByNumber (filterMatch bloomHas filter) n
    (headerTransactionsReceiptsToBlockNumberLogs filter fetched).mapError fun _ =>
      .internalError "transactions and receipts length does not match"

/-- The logs of a range, without the index. -/
def getLogsUnindexed (fromBlock toBlock : UInt64) : Except JsonRpcError (List RpcLog) :=
  match (limit cfg fromBlock toBlock).tryCollectLogsStream
      (p.logsStream bloomHas filter fromBlock toBlock) with
  | .error e => .error e
  | .ok logs => logs

/-- The logs of a range. If the index fails they are looked for without it. -/
def getLogsInRange (fromBlock toBlock : UInt64) :
    Except AssertFailed (Except JsonRpcError (List RpcLog)) :=
  if toBlock < fromBlock then .ok (.error .invalidBlockRange)
  else if cfg.maxBlockRange < toBlock - fromBlock then .ok (.error .rangeTooLarge)
  else
    match p.indexReader cfg filter toBlock with
    | none => .ok (p.getLogsUnindexed bloomHas cfg filter fromBlock toBlock)
    | some reader => do
      match ← reader.logsStream fromBlock toBlock filter with
      | .error _ => return p.getLogsUnindexed bloomHas cfg filter fromBlock toBlock
      | .ok stream =>
        match (limit cfg fromBlock toBlock).tryCollectLogsStream stream with
        | .error e => return .error e
        | .ok (.ok logs) => return .ok logs
        | .ok (.error _) => return p.getLogsUnindexed bloomHas cfg filter fromBlock toBlock

/-- **`get_logs` for `FilterBlockOption::AtBlockHash`.** -/
def getLogsAtBlockHash (h : B256) : Except AssertFailed (Except JsonRpcError (List RpcLog)) :=
  match p.resolve h with
  | .error e => .ok (.error e)
  | .ok none => .ok (.ok [])
  | .ok (some n) => p.getLogsInRange bloomHas cfg filter n n

end DataProvider

/-! ### Whose logs are returned -/

/-- No log of a receipt passes the filter. -/
def NonePasses (filter : Archive.Filter) (receipt : alloy.Receipt) : Prop :=
  ∀ log ∈ alloy.logs receipt.receipt, filter.passes log = false

/-- The receipts that the buffer has for transactions, with their logs from the given log index on:
the logs of each start where those of the one before it end. -/
inductive Buffer.Maps.Receipts (m : Buffer.Maps (bufferKinds alloy)) :
    UInt64 → List alloy.Tx → List alloy.Receipt → Prop
  | nil (logIndex : UInt64) : m.Receipts logIndex [] []
  | cons {logIndex : UInt64} {tx : alloy.Tx} {txs : List alloy.Tx} {loc : Buffer.TxLoc}
      {r : TransactionReceipt alloy} {receipts : List alloy.Receipt}
      (htx : m.txByHash (alloy.txHash tx.tx) = some (loc, r))
      (hplace : alloy.logs r.inner = [] ∨ r.firstLogIndex = some logIndex)
      (hrest : m.Receipts (logIndex + UInt64.ofNat (alloy.logs r.inner).length) txs receipts) :
      m.Receipts logIndex (tx :: txs) (⟨r.inner, logIndex⟩ :: receipts)

/-- The index has come to the number `n`, and gives these records for it, each without an error. -/
structure ArchiveReader.Records (reader : ArchiveReader alloy) (n : UInt64)
    (filter : Archive.Filter) (items : List (TxIndexedData alloy)) : Prop where
  hasLogIndex : reader.hasLogIndex = true
  latestIndexed : ∃ last, reader.latestIndexed = .ok (some last) ∧ n ≤ last
  queryLogs : reader.queryLogs n n filter = .ok (items.map .ok)

namespace DataProvider

variable (p : DataProvider alloy)

/-- The number that triedb has for a hash, or the archive if triedb has none. -/
def NumberOf (h : B256) (n : UInt64) : Prop :=
  p.triedb.getBlockNumberByHash p.triedb.getLatestProposedBlockKey h = .ok (some n) ∨
    p.triedb.getBlockNumberByHash p.triedb.getLatestProposedBlockKey h = .ok none ∧
      ∃ reader, p.archiveReader = some reader ∧ reader.tryGetBlockNumberByHash h = .ok (some n)

/-- **The records that the index gives for the number `n`**. It is asked for an old number, if the
filter is on addresses or topics. -/
def IndexRecords (cfg : GetLogsConfig) (filter : Archive.Filter) (n : UInt64)
    (items : List (TxIndexedData alloy)) : Prop :=
  cfg.useEthGetLogsIndex = true ∧
    n + cfg.maxFinalizedBlockCacheLen < p.triedb.getLatestProposedBlockKey.seqNum ∧
    hasFilters filter = true ∧
    ∃ reader, p.archiveReader = some reader ∧ reader.Records n filter items

section Stored

variable (keep : alloy.Header → Bool) (n : UInt64)

/-- The buffer has a block at the number, with all its receipts if its bloom filter matches. -/
def Buffered : Prop :=
  ∃ (m : Buffer.Maps (bufferKinds alloy)) (header : BlockHeader alloy) (txs : List alloy.Tx),
    p.buffer = some m ∧ m.blockByHeight n = some ⟨header, txs⟩ ∧
      (keep header.header = true → ∃ receipts, m.Receipts 0 txs receipts)

/-- Triedb has no block under a key, or has only its header. -/
def Triedb.Lacks (triedb : Triedb alloy) (key : BlockKey) : Prop :=
  triedb.getBlockHeader key = .ok none ∨
    ∃ header e, triedb.getBlockHeader key = .ok (some header) ∧
      triedb.getTransactions key = .error e

/-- The number is left to the archive: the buffer does not have it, and of the block under its key
triedb has no header, or one whose bloom filter matches but no transactions. -/
structure LeftToArchive : Prop where
  buffer : ¬ p.Buffered keep n
  triedb : ∃ key, p.triedb.getBlockKey n = some key ∧ Triedb.Lacks p.triedb key ∧
    ∀ header, p.triedb.getBlockHeader key = .ok (some header) → keep header.header = true

/-- **What is stored under a number in the first source that has it**, if its bloom filter
matches: the hash of the block and its receipts. -/
inductive Stored : B256 → List alloy.Receipt → Prop
  | buffer {m : Buffer.Maps (bufferKinds alloy)} {header : BlockHeader alloy}
      {txs : List alloy.Tx} {receipts : List alloy.Receipt} (hbuffer : p.buffer = some m)
      (hblock : m.blockByHeight n = some ⟨header, txs⟩) (hkeep : keep header.header = true)
      (hreceipts : m.Receipts 0 txs receipts) : Stored header.hash receipts
  | triedb {key : BlockKey} {header : BlockHeader alloy} {txs : List alloy.Tx}
      {receipts : List alloy.Receipt} (hbuffer : ¬ p.Buffered keep n)
      (hkey : p.triedb.getBlockKey n = some key)
      (hheader : p.triedb.getBlockHeader key = .ok (some header))
      (hkeep : keep header.header = true) (htxs : p.triedb.getTransactions key = .ok txs)
      (hreceipts : p.triedb.getReceipts key = .ok receipts) : Stored header.hash receipts
  | finalized {reader : ArchiveReader alloy} {header : BlockHeader alloy} {txs : List alloy.Tx}
      {receipts : List alloy.Receipt} (hleft : p.LeftToArchive keep n)
      (hreader : p.archiveReader = some reader)
      (hheader : p.triedb.getBlockHeader (.finalized n) = .ok (some header))
      (htxs : p.triedb.getTransactions (.finalized n) = .ok txs)
      (hkeep : keep header.header = true)
      (hreceipts : reader.getBlockReceipts n = .ok receipts) : Stored header.hash receipts
  | archive {reader : ArchiveReader alloy} {block : alloy.Block} {receipts : List alloy.Receipt}
      (hleft : p.LeftToArchive keep n) (hreader : p.archiveReader = some reader)
      (hlacks : Triedb.Lacks p.triedb (.finalized n))
      (hblock : reader.tryGetBlockByNumber n = .ok (some block))
      (hkeep : keep block.header = true)
      (hreceipts : reader.getBlockReceipts n = .ok receipts) :
      Stored (alloy.hashSlow block.header) receipts

end Stored

/-- **What is stored under the number `n` is of the block with the hash `h`**, or has no log that
passes the filter: the records that the index gives, or the block in the first source that has
it if the index gives none. -/
structure Faithful (bloomHas : alloy.Header → Bytes → Bool) (cfg : GetLogsConfig)
    (filter : Archive.Filter) (n : UInt64) (h : B256) : Prop where
  index : ∀ items, p.IndexRecords cfg filter n items →
    ∀ data ∈ items, data.headerSubset.blockHash = h ∨ NonePasses filter data.receipt
  stored : (¬ ∃ items, p.IndexRecords cfg filter n items) →
    ∀ hash receipts, p.Stored (filterMatch bloomHas filter) n hash receipts →
      hash = h ∨ ∀ r ∈ receipts, NonePasses filter r

end DataProvider

/-- The logs of a receipt are of the block with the given hash. -/
theorem forall_blockHash_iff (blockHash h : B256) (blockNumber blockTimestamp txIndex : UInt64)
    (txHash : B256) (receipt : alloy.Receipt) (filter : Archive.Filter) :
    (∀ log ∈ receiptEnvelopeToLogsIter (parseReceiptEnvelope blockHash blockNumber blockTimestamp
      txIndex txHash receipt) filter, log.blockHash = h) ↔
      blockHash = h ∨ NonePasses filter receipt := by
  simp only [receiptEnvelopeToLogsIter, parseReceiptEnvelope, List.mem_filter, List.mem_map,
    Prod.exists, List.mem_zipIdx_iff_getElem?]
  constructor
  · intro hall
    by_cases hnone : NonePasses filter receipt
    · exact .inr hnone
    · simp only [NonePasses, not_forall, Bool.not_eq_false] at hnone
      obtain ⟨log, hlog, hpass⟩ := hnone
      obtain ⟨i, hi⟩ := List.mem_iff_getElem?.mp hlog
      exact .inl (hall _ ⟨⟨log, i, hi, rfl⟩, hpass⟩)
  · rintro (rfl | hnone) log ⟨⟨inner, i, hi, rfl⟩, hpass⟩
    · rfl
    · exact absurd hpass (by simp [hnone inner (List.mem_of_getElem? hi)])

/-- The logs of a transaction of the index are of the block with the given hash. -/
theorem forall_blockHash_item_iff (data : TxIndexedData alloy) (filter : Archive.Filter)
    (h : B256) :
    (∀ log ∈ receiptEnvelopeToLogsIter (parseItem data).2.2 filter, log.blockHash = h) ↔
      data.headerSubset.blockHash = h ∨ NonePasses filter data.receipt :=
  forall_blockHash_iff ..

theorem blockRange_self (n : UInt64) : blockRange n n = [n] := by
  simp [blockRange]

/-- An element of the longer list is at a place of the shorter one. -/
theorem mem_iff_getElem?_zip {α β : Type} {as : List α} {bs : List β} (hlen : as.length = bs.length)
    (b : β) : b ∈ bs ↔ ∃ (a : α) (i : ℕ), (as.zip bs)[i]? = some (a, b) := by
  simp only [List.getElem?_zip_eq_some]
  constructor
  · intro hb
    obtain ⟨i, hi⟩ := List.mem_iff_getElem?.mp hb
    have hlt : i < as.length := by
      have hbs := (List.getElem?_eq_some_iff.mp hi).1
      omega
    exact ⟨as[i], i, List.getElem?_eq_getElem hlt, hi⟩
  · rintro ⟨a, i, -, hi⟩
    exact List.mem_of_getElem? hi

/-- The logs of a fetched block are of the block with the given hash. -/
theorem forall_blockHash_fetched_iff {filter : Archive.Filter} {header : BlockHeader alloy}
    {transactions : List alloy.Tx} {receipts : List alloy.Receipt} {n : UInt64}
    {logs : List RpcLog}
    (hlogs : headerTransactionsReceiptsToBlockNumberLogs filter (header, transactions, receipts) =
      .ok (n, logs)) (h : B256) :
    (∀ log ∈ logs, log.blockHash = h) ↔ header.hash = h ∨ ∀ r ∈ receipts, NonePasses filter r := by
  simp only [headerTransactionsReceiptsToBlockNumberLogs] at hlogs
  split_ifs at hlogs with hlen
  obtain ⟨-, rfl⟩ := Prod.mk.inj (Except.ok.inj hlogs)
  have hzip := mem_iff_getElem?_zip (not_not.mp hlen)
  simp only [List.mem_flatMap, Prod.exists, List.mem_zipIdx_iff_getElem?]
  constructor
  · intro hall
    by_cases heq : header.hash = h
    · exact .inl heq
    · refine .inr fun r hr => ?_
      obtain ⟨tx, i, hi⟩ := (hzip r).mp hr
      exact ((forall_blockHash_iff _ _ _ _ (UInt64.ofNat i) (alloy.txHash tx.tx) r filter).mp
        fun log hlog => hall log ⟨tx, r, i, hi, hlog⟩).resolve_left heq
  · rintro hfaithful log ⟨tx, r, i, hi, hlog⟩
    refine (forall_blockHash_iff ..).mpr ?_ log hlog
    exact hfaithful.imp_right fun hnone => hnone r ((hzip r).mpr ⟨tx, i, hi⟩)

/-! ### What the index way returns -/

section Results

variable {ε α β : Type}

theorem exists_map_ok_of_map {f : α → β} {l : List (Except ε α)} {bs : List β}
    (h : l.map (Except.map f) = bs.map .ok) :
    ∃ as : List α, l = as.map .ok ∧ bs = as.map f := by
  induction l generalizing bs with
  | nil =>
    obtain rfl : bs = [] := by simpa using h.symm
    exact ⟨[], rfl, rfl⟩
  | cons a l ih =>
    cases bs with
    | nil => simp at h
    | cons b bs =>
      obtain ⟨hhead, htail⟩ := List.cons.inj h
      obtain ⟨as, rfl, rfl⟩ := ih htail
      cases a with
      | error e => simp [Except.map] at hhead
      | ok a =>
        obtain rfl : f a = b := by simpa [Except.map] using hhead
        exact ⟨a :: as, rfl, rfl⟩

theorem error_mem_map_iff {f : α → β} {l : List (Except ε α)} {e : ε} :
    .error e ∈ l.map (Except.map f) ↔ .error e ∈ l := by
  rw [List.mem_map]
  constructor
  · rintro ⟨a, ha, heq⟩
    cases a with
    | error e' =>
      obtain rfl : e' = e := by simpa [Except.map] using heq
      exact ha
    | ok a => simp [Except.map] at heq
  · exact fun he => ⟨_, he, rfl⟩

end Results

/-- The logs of the groups of a block stream. -/
theorem flatMap_groups (groups : List (UInt64 × List (List RpcLog))) (filter : Archive.Filter) :
    (groups.map fun g =>
      (g.1, g.2.flatMap fun logs => receiptEnvelopeToLogsIter logs filter)).flatMap (·.2) =
      (groups.flatMap (·.2)).flatMap fun logs => receiptEnvelopeToLogsIter logs filter := by
  rw [List.flatMap_map, List.flatMap_assoc]

/-- The checks before the query. -/
theorem checkIndexed_eq_ok {hasLogIndex : Bool}
    {latestIndexed : Except Archive.Fault (Option UInt64)} {n : UInt64} {u : Unit} :
    checkIndexed hasLogIndex latestIndexed n = .ok u ↔
      hasLogIndex = true ∧ ∃ last, latestIndexed = .ok (some last) ∧ n ≤ last := by
  cases hasLogIndex with
  | false => simp [checkIndexed]
  | true =>
    rcases latestIndexed with e | _ | last
    · simp [checkIndexed]
    · simp [checkIndexed]
    · simp [checkIndexed, UInt64.not_lt]

/-- **The stream of the index way** has the logs of the records that the index gives, or an error
if it gives none. -/
theorem ArchiveReader.logsStream_cases {reader : ArchiveReader alloy} {n : UInt64}
    {filter : Archive.Filter}
    {r : Except IndexFault (List (Except QueryFault (UInt64 × List RpcLog)))}
    (hr : reader.logsStream n n filter = .ok r) :
    (∃ (items : List (TxIndexedData alloy)) (blocks : List (UInt64 × List RpcLog)),
      reader.Records n filter items ∧ r = .ok (blocks.map .ok) ∧
        ∀ log, log ∈ blocks.flatMap (·.2) ↔
          ∃ data ∈ items, log ∈ receiptEnvelopeToLogsIter (parseItem data).2.2 filter) ∨
      (¬ ∃ items, reader.Records n filter items) ∧
        ∀ stream, r = .ok stream → ∃ e, .error e ∈ stream := by
  unfold ArchiveReader.logsStream at hr
  cases hcheck : checkIndexed reader.hasLogIndex reader.latestIndexed n with
  | error e =>
    rw [hcheck] at hr
    obtain rfl := Except.ok.inj hr
    -- The index has not come to the block.
    refine .inr ⟨?_, fun stream hstream => by simp at hstream⟩
    rintro ⟨items, hindex, hlatest, -⟩
    rw [checkIndexed_eq_ok (u := ()) |>.mpr ⟨hindex, hlatest⟩] at hcheck
    cases hcheck
  | ok u =>
    rw [hcheck] at hr
    obtain ⟨hindex, hlatest⟩ := checkIndexed_eq_ok.mp hcheck
    cases hquery : reader.queryLogs n n filter with
    | error e =>
      rw [hquery] at hr
      obtain rfl := Except.ok.inj hr
      refine .inr ⟨?_, fun stream hstream => by simp at hstream⟩
      rintro ⟨items, hitems⟩
      rw [hitems.queryLogs] at hquery
      cases hquery
    | ok found =>
      rw [hquery] at hr
      obtain ⟨grouped, hgrouped, hr⟩ := bind_eq_ok.mp hr
      obtain rfl := Except.ok.inj hr
      -- The records are grouped by their blocks, unless one of them could not be read.
      rcases groupReceipts_perm (fun _ => rfl) hgrouped with
        ⟨oks, groups, hitems, rfl, hperm⟩ | ⟨e, he, he'⟩
      · obtain ⟨datas, rfl, rfl⟩ := exists_map_ok_of_map hitems
        refine .inl ⟨datas, groups.map fun g =>
          (g.1, g.2.flatMap fun logs => receiptEnvelopeToLogsIter logs filter),
          ⟨hindex, hlatest, hquery⟩, ?_, ?_⟩
        · rw [List.map_map, List.map_map]
          rfl
        · intro log
          rw [flatMap_groups, (hperm.flatMap_right _).mem_iff, List.map_nil, List.nil_append,
            List.mem_flatMap]
          simp only [List.map_map, List.mem_map, Function.comp_apply, exists_exists_and_eq_and]
      · refine .inr ⟨?_, fun stream hstream => ?_⟩
        · rintro ⟨items, hitems⟩
          obtain rfl := Except.ok.inj (hquery.symm.trans hitems.queryLogs)
          simpa using error_mem_map_iff.mp he
        · obtain rfl := Except.ok.inj hstream
          exact ⟨e, error_mem_map_iff.mpr he'⟩

/-! ### What the sources have -/

/-- The receipts of a block are found exactly if the buffer has them. -/
theorem Buffer.Maps.receiptsFrom_eq_some {m : Buffer.Maps (bufferKinds alloy)} {logIndex : UInt64}
    {txs : List alloy.Tx} {receipts : List alloy.Receipt} :
    m.receiptsFrom logIndex txs = some receipts ↔ m.Receipts logIndex txs receipts := by
  induction txs generalizing logIndex receipts with
  | nil =>
    constructor
    · rintro h
      obtain rfl := Option.some.inj h
      exact .nil logIndex
    · rintro ⟨⟩
      rfl
  | cons tx txs ih =>
    rw [receiptsFrom]
    refine Option.bind_eq_some_iff.trans ?_
    constructor
    · rintro ⟨⟨loc, r⟩, htx, h⟩
      dsimp only at h
      split_ifs at h with hgap
      obtain ⟨rest, hrest, h⟩ := Option.bind_eq_some_iff.mp h
      obtain rfl := Option.some.inj h
      rw [not_and_or, not_not, not_not] at hgap
      exact .cons htx hgap (ih.mp hrest)
    · rintro (_ | ⟨htx, hplace, hrest⟩)
      refine ⟨_, htx, ?_⟩
      dsimp only
      rw [if_neg fun h => hplace.elim h.1 h.2, ih.mpr hrest]
      rfl

/-- A buffered block is given with its receipts, or without them if its bloom filter does not
match. -/
theorem Buffer.Maps.getBloomFiltered_of_block {m : Buffer.Maps (bufferKinds alloy)} {n : UInt64}
    {header : BlockHeader alloy} {txs : List alloy.Tx} (keep : alloy.Header → Bool)
    (hblock : m.blockByHeight n = some ⟨header, txs⟩) :
    m.getBloomFilteredHeaderTransactionsReceipts n keep =
      if keep header.header = true then (m.receiptsFrom 0 txs).map fun rs => (header, txs, rs)
      else some (header, [], []) := by
  rw [getBloomFilteredHeaderTransactionsReceipts, hblock]
  show (if keep header.header = true then (m.receiptsFrom 0 txs).bind fun rs =>
    some (header, txs, rs) else some (header, [], [])) = _
  simp only [Option.map_eq_bind, Function.comp_def]

namespace DataProvider

variable {p : DataProvider alloy}

/-- The resolution of a hash asks triedb, then the archive. -/
theorem resolve_eq_some {h : B256} {n : UInt64} :
    p.resolve h = .ok (some n) ↔ p.NumberOf h n := by
  unfold resolve NumberOf
  rcases hnumber : p.triedb.getBlockNumberByHash p.triedb.getLatestProposedBlockKey h with
    e | _ | m
  · simp
  · cases hreader : p.archiveReader with
    | none => simp [tryResolveBlockHash, hnumber, hreader, executeOnSources, bind, Except.bind,
        pure, Except.pure]
    | some reader =>
      rcases harchive : reader.tryGetBlockNumberByHash h with e | _ | m <;>
        simp [tryResolveBlockHash, hnumber, hreader, harchive, executeOnSources, bind,
          Except.bind, pure, Except.pure]
  · simp

/-- The index that is asked, and what it gives. -/
theorem indexRecords_iff {cfg : GetLogsConfig} {filter : Archive.Filter} {n : UInt64}
    {items : List (TxIndexedData alloy)} :
    p.IndexRecords cfg filter n items ↔
      ∃ reader, p.indexReader cfg filter n = some reader ∧ reader.Records n filter items := by
  unfold IndexRecords indexReader getLatestBlockNumber
  split_ifs with h
  · rw [Bool.and_eq_true, Bool.and_eq_true, decide_eq_true_eq] at h
    simp [h]
  · rw [Bool.and_eq_true, Bool.and_eq_true, decide_eq_true_eq] at h
    constructor
    · rintro ⟨huse, hold, hfilters, -⟩
      exact absurd ⟨⟨huse, hold⟩, hfilters⟩ h
    · simp

/-- The index gives its records once. -/
theorem IndexRecords.unique {cfg : GetLogsConfig} {filter : Archive.Filter} {n : UInt64}
    {items items' : List (TxIndexedData alloy)} (h : p.IndexRecords cfg filter n items)
    (h' : p.IndexRecords cfg filter n items') : items = items' := by
  obtain ⟨-, -, -, reader, hreader, hrecords⟩ := h
  obtain ⟨-, -, -, reader', hreader', hrecords'⟩ := h'
  obtain rfl := Option.some.inj (hreader.symm.trans hreader')
  have hmap := Except.ok.inj (hrecords.queryLogs.symm.trans hrecords'.queryLogs)
  exact List.map_injective_iff.mpr (fun _ _ => Except.ok.inj) hmap

section Stored

variable {keep : alloy.Header → Bool} {n : UInt64}

/-- A block that the buffer has is taken from it. -/
theorem fetchByNumber_of_block {m : Buffer.Maps (bufferKinds alloy)} {header : BlockHeader alloy}
    {txs : List alloy.Tx} {receipts : List alloy.Receipt} (hbuffer : p.buffer = some m)
    (hblock : m.blockByHeight n = some ⟨header, txs⟩) (hkeep : keep header.header = true)
    (hreceipts : m.Receipts 0 txs receipts) :
    p.fetchByNumber keep n = .ok (header, txs, receipts) := by
  rw [fetchByNumber, hbuffer, Option.bind_some, m.getBloomFiltered_of_block keep hblock,
    if_pos hkeep, Buffer.Maps.receiptsFrom_eq_some.mpr hreceipts]
  rfl

/-- Of a block that the buffer has nothing is looked for elsewhere. -/
theorem stored_of_buffered (hbuffered : p.Buffered keep n) {fetched : Fetched alloy}
    (h : p.fetchByNumber keep n = .ok fetched) :
    fetched.2.2 = [] ∨ p.Stored keep n fetched.1.hash fetched.2.2 := by
  obtain ⟨m, header, txs, hbuffer, hblock, hreceipts⟩ := hbuffered
  by_cases hkeep : keep header.header = true
  · obtain ⟨receipts, hreceipts⟩ := hreceipts hkeep
    rw [fetchByNumber_of_block hbuffer hblock hkeep hreceipts] at h
    obtain rfl := Except.ok.inj h
    exact .inr (.buffer hbuffer hblock hkeep hreceipts)
  · rw [fetchByNumber, hbuffer, Option.bind_some, m.getBloomFiltered_of_block keep hblock,
      if_neg hkeep] at h
    obtain rfl := Except.ok.inj h
    exact .inl rfl

/-- What the buffer does not have is looked for in triedb. -/
theorem fetchByNumber_of_not_buffered (hbuffered : ¬ p.Buffered keep n) :
    p.fetchByNumber keep n = p.fetchFromTriedb keep n := by
  rw [fetchByNumber]
  split
  · next fetched hfetched =>
    obtain ⟨m, hbuffer, hget⟩ := Option.bind_eq_some_iff.mp hfetched
    exfalso
    cases hblock : m.blockByHeight n with
    | none =>
      rw [Buffer.Maps.getBloomFilteredHeaderTransactionsReceipts, hblock] at hget
      cases hget
    | some block =>
      obtain ⟨header, txs⟩ := block
      refine hbuffered ⟨m, header, txs, hbuffer, hblock, fun hkeep => ?_⟩
      rw [m.getBloomFiltered_of_block keep hblock, if_pos hkeep, Option.map_eq_some_iff] at hget
      obtain ⟨receipts, hreceipts, -⟩ := hget
      exact ⟨receipts, Buffer.Maps.receiptsFrom_eq_some.mp hreceipts⟩
  · rfl

/-- A block that triedb has is given by the historical sources. -/
theorem getBlock_of_triedb {key : BlockPointer} {header : BlockHeader alloy} {txs : List alloy.Tx}
    (hheader : p.triedb.getBlockHeader key.key = .ok (some header))
    (htxs : p.triedb.getTransactions key.key = .ok txs) :
    p.getBlock key = .ok (some ⟨header.header, some header.hash, txs⟩) := by
  simp [getBlock, hheader, htxs, executeOnSources, bind, Except.bind, pure, Except.pure]

/-- A block that triedb lacks is given by the archive. -/
theorem getBlock_of_lacks {reader : ArchiveReader alloy} (hreader : p.archiveReader = some reader)
    (hlacks : Triedb.Lacks p.triedb (.finalized n)) :
    p.getBlock (.finalized n) = (reader.tryGetBlockByNumber n).map fun block =>
      block.map fun b => ⟨b.header, none, b.transactions⟩ := by
  rcases hblock : reader.tryGetBlockByNumber n with e | _ | block <;>
    rcases hlacks with hnone | ⟨header, e', hheader, htxs⟩ <;>
    simp_all [getBlock, BlockPointer.key, executeOnSources, bind, Except.bind, pure, Except.pure,
      Except.map]

/-- A block of the historical sources is of triedb, or of the archive if triedb lacks it. -/
theorem getBlock_cases {reader : ArchiveReader alloy} {data : HistoricalBlockData alloy}
    (hreader : p.archiveReader = some reader) (h : p.getBlock (.finalized n) = .ok (some data)) :
    (∃ header txs, p.triedb.getBlockHeader (.finalized n) = .ok (some header) ∧
      p.triedb.getTransactions (.finalized n) = .ok txs ∧
      data = ⟨header.header, some header.hash, txs⟩) ∨
    Triedb.Lacks p.triedb (.finalized n) ∧ ∃ block : alloy.Block,
      reader.tryGetBlockByNumber n = .ok (some block) ∧
      data = ⟨block.header, none, block.transactions⟩ := by
  have harchive (hlacks : Triedb.Lacks p.triedb (.finalized n)) : ∃ block : alloy.Block,
      reader.tryGetBlockByNumber n = .ok (some block) ∧
      data = ⟨block.header, none, block.transactions⟩ := by
    rw [getBlock_of_lacks hreader hlacks] at h
    rcases hblock : reader.tryGetBlockByNumber n with e | _ | block
    · simp [hblock, Except.map] at h
    · simp [hblock, Except.map] at h
    · rw [hblock] at h
      exact ⟨block, rfl, (Option.some.inj (Except.ok.inj h)).symm⟩
  rcases hheader : p.triedb.getBlockHeader (.finalized n) with e | _ | header
  · simp [getBlock, BlockPointer.key, hheader, executeOnSources, bind, Except.bind] at h
  · exact .inr ⟨.inl hheader, harchive (.inl hheader)⟩
  · rcases htxs : p.triedb.getTransactions (.finalized n) with e | txs
    · exact .inr ⟨.inr ⟨header, e, hheader, htxs⟩, harchive (.inr ⟨header, e, hheader, htxs⟩)⟩
    · rw [getBlock_of_triedb hheader htxs] at h
      exact .inl ⟨header, txs, rfl, rfl, (Option.some.inj (Except.ok.inj h)).symm⟩

/-- A block that is taken from the historical sources, with the archive's receipts. -/
theorem fetchFromHistorical_of_getBlock {reader : ArchiveReader alloy}
    {data : HistoricalBlockData alloy} (h : p.getBlock (.finalized n) = .ok (some data)) :
    p.fetchFromHistorical keep reader n =
      if keep data.header = true then
        (reader.getBlockReceipts n).mapError (fun _ => .internalError
          "Error getting block receipts") |>.map fun receipts =>
          (⟨data.headerHashPrecomputed.getD (alloy.hashSlow data.header), data.header⟩,
            data.transactions, receipts)
      else .ok (⟨data.headerHashPrecomputed.getD (alloy.hashSlow data.header), data.header⟩,
        [], []) := by
  rw [fetchFromHistorical, h]
  cases reader.getBlockReceipts n <;> rfl

/-- **What the archive is left with is stored.** -/
theorem stored_of_left {fetched : Fetched alloy} (hleft : p.LeftToArchive keep n)
    (h : p.fetchFallback keep n = .ok fetched) :
    fetched.2.2 = [] ∨ p.Stored keep n fetched.1.hash fetched.2.2 := by
  rw [fetchFallback] at h
  split at h
  · cases h
  · next reader hreader =>
    rcases hblock : p.getBlock (.finalized n) with e | _ | data
    · simp [fetchFromHistorical, hblock] at h
    · simp [fetchFromHistorical, hblock] at h
    · rw [fetchFromHistorical_of_getBlock hblock] at h
      split_ifs at h with hkeep
      · obtain ⟨receipts, hreceipts, rfl⟩ : ∃ receipts, reader.getBlockReceipts n = .ok receipts ∧
            (⟨data.headerHashPrecomputed.getD (alloy.hashSlow data.header), data.header⟩,
              data.transactions, receipts) = fetched := by
          cases hreceipts : reader.getBlockReceipts n with
          | error e => simp [hreceipts, Except.mapError, Except.map] at h
          | ok receipts =>
            rw [hreceipts] at h
            exact ⟨receipts, rfl, Except.ok.inj h⟩
        right
        rcases getBlock_cases hreader hblock with
          ⟨header, txs, hheader, htxs, rfl⟩ | ⟨hlacks, block, harchived, rfl⟩
        · exact .finalized hleft hreader hheader htxs hkeep hreceipts
        · exact .archive hleft hreader hlacks harchived hkeep hreceipts
      · obtain rfl := Except.ok.inj h
        exact .inl rfl

/-- **A block that is fetched is stored**, or it is given without its receipts. -/
theorem stored_of_fetchByNumber {fetched : Fetched alloy}
    (h : p.fetchByNumber keep n = .ok fetched) :
    fetched.2.2 = [] ∨ p.Stored keep n fetched.1.hash fetched.2.2 := by
  by_cases hbuffered : p.Buffered keep n
  · exact stored_of_buffered hbuffered h
  · rw [fetchByNumber_of_not_buffered hbuffered, fetchFromTriedb] at h
    split at h
    · cases h
    · next key hkey =>
      split at h
      · cases h
      · next hheader =>
        exact stored_of_left ⟨hbuffered, key, hkey, .inl hheader, by simp [hheader]⟩ h
      · next header hheader =>
        split_ifs at h with hkeep
        · split at h
          · next e htxs =>
            refine stored_of_left ⟨hbuffered, key, hkey, .inr ⟨header, e, hheader, htxs⟩, ?_⟩ h
            intro header' hheader'
            rw [hheader, Except.ok.injEq, Option.some.injEq] at hheader'
            rw [← hheader']
            exact hkeep
          · next txs htxs =>
            split at h
            · cases h
            · next receipts hreceipts =>
              obtain rfl := Except.ok.inj h
              exact .inr (.triedb hbuffered hkey hheader hkeep htxs hreceipts)
        · obtain rfl := Except.ok.inj h
          exact .inl rfl

/-- A number that is left to the archive is read from it. -/
theorem LeftToArchive.fetchByNumber {reader : ArchiveReader alloy}
    (hleft : p.LeftToArchive keep n) (hreader : p.archiveReader = some reader) :
    p.fetchByNumber keep n = p.fetchFromHistorical keep reader n := by
  obtain ⟨hbuffered, key, hkey, hlacks, hkeep⟩ := hleft
  rw [fetchByNumber_of_not_buffered hbuffered, fetchFromTriedb, hkey]
  rcases hlacks with hheader | ⟨header, e, hheader, htxs⟩
  · simp [hheader, fetchFallback, hreader]
  · simp [hheader, htxs, hkeep header hheader, fetchFallback, hreader]

/-- **A block that is stored is fetched.** -/
theorem Stored.fetchByNumber {hash : B256} {receipts : List alloy.Receipt}
    (h : p.Stored keep n hash receipts) :
    ∃ header txs, p.fetchByNumber keep n = .ok (header, txs, receipts) ∧ header.hash = hash := by
  cases h with
  | buffer hbuffer hblock hkeep hreceipts =>
    exact ⟨_, _, fetchByNumber_of_block hbuffer hblock hkeep hreceipts, rfl⟩
  | @triedb key header txs _ hbuffered hkey hheader hkeep htxs hreceipts =>
    refine ⟨header, txs, ?_, rfl⟩
    rw [fetchByNumber_of_not_buffered hbuffered, fetchFromTriedb, hkey]
    simp [hheader, hkeep, htxs, hreceipts]
  | @finalized reader header txs _ hleft hreader hheader htxs hkeep hreceipts =>
    refine ⟨header, txs, ?_, rfl⟩
    rw [hleft.fetchByNumber hreader,
      fetchFromHistorical_of_getBlock (getBlock_of_triedb hheader htxs), if_pos hkeep, hreceipts]
    rfl
  | @archive reader block _ hleft hreader hlacks hblock hkeep hreceipts =>
    refine ⟨⟨alloy.hashSlow block.header, block.header⟩, block.transactions, ?_, rfl⟩
    have hget := getBlock_of_lacks hreader hlacks
    rw [hblock] at hget
    rw [hleft.fetchByNumber hreader, fetchFromHistorical_of_getBlock hget, if_pos hkeep,
      hreceipts]
    rfl

end Stored

end DataProvider

/-! ### The request for one block -/

namespace DataProvider

variable {p : DataProvider alloy} {bloomHas : alloy.Header → Bytes → Bool}
  {cfg : GetLogsConfig} {filter : Archive.Filter} {n : UInt64} {logs : List RpcLog}

/-- The logs that are found without the index are those of the fetched block. -/
theorem getLogsUnindexed_ok (h : p.getLogsUnindexed bloomHas cfg filter n n = .ok logs) :
    ∃ fetched number, p.fetchByNumber (filterMatch bloomHas filter) n = .ok fetched ∧
      headerTransactionsReceiptsToBlockNumberLogs filter fetched = .ok (number, logs) := by
  unfold getLogsUnindexed at h
  split at h
  · simp at h
  · next result hcollect =>
    subst h
    obtain ⟨blocks, hblocks, rfl⟩ := ResponseLimit.tryCollectLogsStream_ok _ hcollect
    rw [logsStream, blockRange_self, List.map_singleton] at hblocks
    obtain ⟨⟨number, blockLogs⟩, rfl⟩ : ∃ block, blocks = [block] := by
      have hlen := congrArg List.length hblocks
      rw [List.length_singleton, List.length_map] at hlen
      exact List.length_eq_one_iff.mp hlen.symm
    obtain ⟨fetched, hfetched, hmapped⟩ := bind_eq_ok.mp (List.singleton_inj.mp hblocks)
    refine ⟨fetched, number, hfetched, ?_⟩
    rw [List.flatMap_singleton]
    exact mapError_eq_ok.mp hmapped

/-- **Where the logs come from**: from the records of the index if it gives them, else from the
block that was fetched. -/
theorem getLogsInRange_cases (h : p.getLogsInRange bloomHas cfg filter n n = .ok (.ok logs)) :
    (∃ items, p.IndexRecords cfg filter n items ∧
      ∀ log, log ∈ logs ↔
        ∃ data ∈ items, log ∈ receiptEnvelopeToLogsIter (parseItem data).2.2 filter) ∨
      (¬ ∃ items, p.IndexRecords cfg filter n items) ∧
        p.getLogsUnindexed bloomHas cfg filter n n = .ok logs := by
  unfold getLogsInRange at h
  split_ifs at h
  · simp at h
  · simp at h
  · cases hreader : p.indexReader cfg filter n with
    | none =>
      rw [hreader] at h
      refine .inr ⟨?_, Except.ok.inj h⟩
      rintro ⟨items, hitems⟩
      -- The index is not asked.
      obtain ⟨reader, hreader', -⟩ := indexRecords_iff.mp hitems
      rw [hreader] at hreader'
      cases hreader'
    | some reader =>
      rw [hreader] at h
      obtain ⟨r, hr, h⟩ := bind_eq_ok.mp h
      rcases ArchiveReader.logsStream_cases hr with
        ⟨items, blocks, hitems, rfl, hmem⟩ | ⟨hnone, herror⟩
      · -- the index has returned: nothing is left to fail but the limit of the response
        refine .inl ⟨items, indexRecords_iff.mpr ⟨reader, hreader, hitems⟩, fun log => ?_⟩
        cases hcollect : (limit cfg n n).tryCollectLogsStream
            (blocks.map (Except.ok (ε := QueryFault))) with
        | error e => simp [hcollect, pure, Except.pure] at h
        | ok result =>
          cases result with
          | error e => exact absurd hcollect (ResponseLimit.tryCollectLogsStream_ne_error _ _ _)
          | ok found =>
            obtain rfl : found = logs := by simpa [hcollect, pure, Except.pure] using h
            obtain ⟨blocks', hblocks, rfl⟩ := ResponseLimit.tryCollectLogsStream_ok _ hcollect
            obtain rfl := List.map_injective_iff.mpr (fun _ _ => Except.ok.inj) hblocks
            exact hmem log
      · refine .inr ⟨?_, ?_⟩
        · rintro ⟨items, hitems⟩
          obtain ⟨reader', hreader', hrecords⟩ := indexRecords_iff.mp hitems
          obtain rfl := Option.some.inj (hreader.symm.trans hreader')
          exact hnone ⟨items, hrecords⟩
        -- An error of the index, also one in the stream, makes the request fall back.
        cases r with
        | error e => exact Except.ok.inj h
        | ok stream =>
          obtain ⟨e, he⟩ := herror stream rfl
          cases hcollect : (limit cfg n n).tryCollectLogsStream stream with
          | error e => simp [hcollect, pure, Except.pure] at h
          | ok result =>
            cases result with
            | error e => simpa [hcollect, pure, Except.pure] using h
            | ok found =>
              obtain ⟨blocks, rfl, -⟩ := ResponseLimit.tryCollectLogsStream_ok _ hcollect
              simp at he

/-- **The logs that are returned for a block hash are of the block with that hash if and only if**
what the sources have under the number of the hash is of that block, or has no log that passes. -/
theorem getLogs_hash_iff (p : DataProvider alloy) (bloomHas : alloy.Header → Bytes → Bool)
    (cfg : GetLogsConfig) (filter : Archive.Filter) (h : B256) (logs : List RpcLog)
    (hret : p.getLogsAtBlockHash bloomHas cfg filter h = .ok (.ok logs)) :
    (∀ log ∈ logs, log.blockHash = h) ↔
      ∀ n, p.NumberOf h n → p.Faithful bloomHas cfg filter n h := by
  simp only [← resolve_eq_some]
  unfold getLogsAtBlockHash at hret
  split at hret
  · simp at hret
  · next hresolve =>
    obtain rfl : [] = logs := by simpa using hret
    simp [hresolve]
  · next n hresolve =>
    have hn : (∀ m, p.resolve h = .ok (some m) → p.Faithful bloomHas cfg filter m h) ↔
        p.Faithful bloomHas cfg filter n h := by
      simp [hresolve]
    rw [hn]
    -- The index gives its records, or the block is fetched by its number.
    rcases getLogsInRange_cases hret with ⟨items, hitems, hmem⟩ | ⟨hnone, hunindexed⟩
    · constructor
      · intro hall
        refine ⟨fun items' hitems' data hdata => ?_, fun hnone => absurd ⟨items, hitems⟩ hnone⟩
        obtain rfl := hitems'.unique hitems
        refine (forall_blockHash_item_iff data filter h).mp fun log hlog => ?_
        exact hall log ((hmem log).mpr ⟨data, hdata, hlog⟩)
      · intro hfaithful log hlog
        obtain ⟨data, hdata, hlog⟩ := (hmem log).mp hlog
        exact (forall_blockHash_item_iff data filter h).mpr
          (hfaithful.index items hitems data hdata) log hlog
    · obtain ⟨⟨header, transactions, receipts⟩, number, hfetched, hlogs⟩ :=
        getLogsUnindexed_ok hunindexed
      rw [forall_blockHash_fetched_iff hlogs]
      constructor
      · intro hblock
        refine ⟨fun items hitems => absurd ⟨items, hitems⟩ hnone, ?_⟩
        intro _ hash receipts' hstored
        obtain ⟨header', transactions', hfetched', rfl⟩ := hstored.fetchByNumber
        rw [hfetched, Except.ok.injEq, Prod.mk.injEq, Prod.mk.injEq] at hfetched'
        obtain ⟨rfl, -, rfl⟩ := hfetched'
        exact hblock
      · intro hfaithful
        rcases stored_of_fetchByNumber hfetched with hempty | hstored
        · right
          intro r hr
          rw [show receipts = [] from hempty] at hr
          cases hr
        · exact hfaithful.stored hnone _ _ hstored

/-! ### A fork -/

/-- A block at height 1 with one transaction, as it is buffered. -/
def heightOne (hash : B256) : Buffer.ExecutedBlock (bufferKinds edgeAlloy) where
  header := ⟨hash, (1 : UInt64)⟩
  transactions :=
    [⟨⟨edgeSender, (300 : UInt64)⟩,
      ⟨edgeAlloy.txHash (300 : UInt64), (21000 : UInt64), some 0⟩, rfl⟩]

/-- Triedb has the block with the hash `word 1` at height 1. -/
def heightOneTriedb : Triedb edgeAlloy where
  getLatestProposedBlockKey := .proposed 1 (word 1)
  getBlockNumberByHash _ h := .ok (if h = word 1 then some 1 else none)
  getBlockKey n := if n = 1 then some (.proposed 1 (word 1)) else none
  getBlockHeader _ := .ok (some ⟨word 1, (1 : UInt64)⟩)
  getTransactions _ := .ok [⟨edgeSender, (300 : UInt64)⟩]
  getReceipts _ := .ok [⟨(21000 : UInt64), 0⟩]

/-- The buffer was given the block with the hash `hash` at height 1, and there is no archive. -/
def heightOneProvider (hash : B256) : DataProvider edgeAlloy where
  buffer := some (Buffer.run 5 [.block .proposed (heightOne hash)]).maps
  triedb := heightOneTriedb
  archiveReader := none

/-- Small responses, without the index. -/
def plainConfig : GetLogsConfig := ⟨fun _ => 100, 10000, 10, false, 200⟩

/-- The buffer has the block that triedb resolves. -/
theorem getLogs_hash_iff_one :
    ∃ logs, (heightOneProvider (word 1)).getLogsAtBlockHash (fun _ _ => true) plainConfig ⟨[], []⟩
        (word 1) = .ok (.ok logs) ∧ logs.length = 1 ∧ ∀ log ∈ logs, log.blockHash = word 1 := by
  obtain ⟨logs, hret, hlen⟩ : ∃ logs, (heightOneProvider (word 1)).getLogsAtBlockHash
      (fun _ _ => true) plainConfig ⟨[], []⟩ (word 1) = .ok (.ok logs) ∧ logs.length = 1 :=
    ⟨_, rfl, rfl⟩
  refine ⟨logs, hret, hlen, (getLogs_hash_iff _ _ _ _ _ _ hret).mpr fun n hn => ?_⟩
  obtain rfl : 1 = n := by
    have hone : (heightOneProvider (word 1)).resolve (word 1) = .ok (some 1) := rfl
    rw [← resolve_eq_some, hone] at hn
    exact Option.some.inj (Except.ok.inj hn)
  refine ⟨fun items hitems => absurd hitems.1 (by decide), fun _ hash receipts hstored => ?_⟩
  obtain ⟨header, txs, hfetched, rfl⟩ := hstored.fetchByNumber
  have hheader : (heightOneProvider (word 1)).fetchByNumber
      (filterMatch (fun _ _ => true) ⟨[], []⟩) 1 =
      .ok (⟨word 1, (1 : UInt64)⟩, (heightOne (word 1)).toBlock.transactions,
        [⟨(21000 : UInt64), 0⟩]) := rfl
  rw [hheader, Except.ok.injEq, Prod.mk.injEq] at hfetched
  rw [← hfetched.1]
  exact .inl rfl

/-- **The buffer has the other block of a fork**, and its log is returned. -/
theorem getLogs_of_other_block :
    ∃ logs, (heightOneProvider (word 2)).getLogsAtBlockHash (fun _ _ => true) plainConfig ⟨[], []⟩
        (word 1) = .ok (.ok logs) ∧ ∃ log ∈ logs, log.blockHash ≠ word 1 := by
  obtain ⟨log, hret, hhash⟩ : ∃ log, (heightOneProvider (word 2)).getLogsAtBlockHash
      (fun _ _ => true) plainConfig ⟨[], []⟩ (word 1) = .ok (.ok [log]) ∧
      log.blockHash = word 2 := ⟨_, rfl, rfl⟩
  refine ⟨[log], hret, log, List.mem_singleton_self log, ?_⟩
  rw [hhash]
  decide

end DataProvider

end Rpc

end MonadServices
