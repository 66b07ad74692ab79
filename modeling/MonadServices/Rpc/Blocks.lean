import MonadServices.Rpc.Receipts
import MonadServices.Rpc.RpcHandler

/-!
# Blocks and their transactions

A block may be known to three sources: to the buffer of the last blocks, to triedb, and to the
archive. The requests for a block, for its header and for a transaction at a place of it each go
through the sources in their own way. Two of them go through a stack of sources, which keeps the
first source that can resolve the reference and asks it, and the ones after it, for what it resolved
to. The third resolves the reference in triedb and again in the archive. What is returned is put
together in two ways as well, from a block and from single transactions.

**The answers do not depend on the source** (`MonadServices.Rpc.Blocks.blocks_agree`): whichever of
the sources have the block, wholly or, as triedb while it synchronizes, by its header only, all
requests answer what the block alone says. The size in the answer is the length of the raw block,
and the raw block is the one that was asked for (`MonadServices.Rpc.Blocks.rawBlock`).
-/

namespace MonadServices

namespace Rpc

namespace Blocks

open Archive
open Receipts (getBlockKeyFromTag tryGetBlockNumberByHash tryGetBlockByNumber tryGetBlockByHash)

/-! ### Blocks -/

/-- What is read of headers and transactions, besides what receipts need. -/
structure BlockAlloy extends Receipts.ReceiptAlloy where
  difficulty : Header → BitVec 256
  /-- `encode_2718`. -/
  encode2718 : TxEnvelope → Bytes

/-- A transaction as it is returned. -/
structure Transaction (alloy : BlockAlloy) where
  inner : alloy.Tx
  blockHash : Option B256
  blockNumber : Option UInt64
  blockTimestamp : Option UInt64
  effectiveGasPrice : Option (BitVec 128)
  transactionIndex : Option UInt64

/-- `alloy_rpc_types::Header`. -/
structure RpcHeader (alloy : BlockAlloy) where
  hash : B256
  inner : alloy.Header
  totalDifficulty : Option (BitVec 256)
  size : Option (BitVec 256)

inductive BlockTransactions (alloy : BlockAlloy) where
  | full (txs : List (Transaction alloy))
  | hashes (txHashes : List B256)

/-- **A block as it is returned.** -/
structure RpcBlock (alloy : BlockAlloy) where
  header : RpcHeader alloy
  transactions : BlockTransactions alloy
  uncles : List B256
  withdrawals : Option (List alloy.Withdrawal)

variable {alloy : BlockAlloy}

namespace BlockTransactions

def intoHashes : BlockTransactions alloy → BlockTransactions alloy
  | .full txs => .hashes (txs.map fun tx => alloy.txHash tx.inner.tx)
  | .hashes txHashes => .hashes txHashes

/-- There are none where there are only hashes. -/
def intoTransactions : BlockTransactions alloy → List (Transaction alloy)
  | .full txs => txs
  | .hashes _ => []

end BlockTransactions

/-! ### What is returned of a block -/

section Parse

/-- The lengths of the transactions in a block. -/
def txsPayloadLen (transactions : List alloy.Tx) : ℕ :=
  (transactions.map fun tx => (alloy.txEnvelope.encode tx.tx).length).sum

def ommersListLen : ℕ := 1

def blockPayloadLen (header : alloy.Header) (transactions : List alloy.Tx) : ℕ :=
  (alloy.header.encode header).length +
    (Rlp.lengthOfLength (txsPayloadLen transactions) + txsPayloadLen transactions) + ommersListLen

def calculateBlockSize (header : alloy.Header) (transactions : List alloy.Tx) : ℕ :=
  Rlp.lengthOfLength (blockPayloadLen header transactions) + blockPayloadLen header transactions

def parseTxContent (blockHash : B256) (blockNumber blockTimestamp : UInt64)
    (baseFee : Option UInt64) (tx : alloy.Tx) (txIndex : UInt64) : Transaction alloy where
  inner := tx
  blockHash := some blockHash
  blockNumber := some blockNumber
  blockTimestamp := some blockTimestamp
  effectiveGasPrice := some (alloy.effectiveGasPrice tx.tx baseFee)
  transactionIndex := some txIndex

/-- The hash of a block of the historical sources. -/
def blockHashOf (data : HistoricalBlockData alloy.toAlloy) : B256 :=
  data.headerHashPrecomputed.getD (alloy.hashSlow data.header)

def parseTransactions (data : HistoricalBlockData alloy.toAlloy) (returnFullTxns : Bool) :
    BlockTransactions alloy :=
  if returnFullTxns then
    .full (data.transactions.zipIdx.map fun x => parseTxContent (blockHashOf data)
      (alloy.number data.header) (alloy.timestamp data.header) (alloy.baseFeePerGas data.header)
      x.1 (UInt64.ofNat x.2))
  else .hashes (data.transactions.map fun tx => alloy.txHash tx.tx)

def parseBlockContent (data : HistoricalBlockData alloy.toAlloy) (returnFullTxns : Bool) :
    RpcBlock alloy where
  header := {
    hash := blockHashOf data
    inner := data.header
    totalDifficulty := some (alloy.difficulty data.header)
    size := some (BitVec.ofNat 256 (calculateBlockSize data.header data.transactions)) }
  transactions := parseTransactions data returnFullTxns
  uncles := []
  withdrawals := none

end Parse

/-! ### The sources -/

section Sources

inductive DataSourceError where
  | internal (message : String)
  deriving DecidableEq

abbrev DataSourceResult (α : Type) := Except (Halt DataSourceError) α

/-- Why a read fails. -/
inductive ChainStateError where
  | triedb (message : String)
  | archive (message : String)
  | dataSource (e : DataSourceError)
  | resourceNotFound
  deriving DecidableEq

abbrev Result (α : Type) := Except (Halt ChainStateError) α

/-- An error as a message, under the name that it gets. -/
def orMessage {α ε : Type} (name : String → ε) : Except String α → Except (Halt ε) α
  | .ok a => .ok a
  | .error message => .error (.error (name message))

/-- An error of the archive; where it panics, so does the request. -/
def orFault {α ε : Type} (name : String → ε) : Except Archive.Fault α → Except (Halt ε) α
  | .ok a => .ok a
  | .error (.error message) => .error (.error (name message))
  | .error .outOfBounds => .error (.panic "index out of bounds")
  | .error .overflow => .error (.panic "attempt to subtract with overflow")
  | .error .outOfFuel => .error (.panic "no result")

/-- `map_err(ChainStateError::DataSource)`. -/
def orDataSource {α : Type} : DataSourceResult α → Result α
  | .ok a => .ok a
  | .error (.error e) => .error (.error (.dataSource e))
  | .error (.panic message) => .error (.panic message)

/-- `BlockCommitState` of the sources. -/
inductive BlockCommitState where
  | proposed
  | voted
  | finalized
  deriving DecidableEq

/-- **A source of blocks.** -/
structure HistoricalDataSource (alloy : BlockAlloy) where
  tryResolveBlockCommitState : BlockCommitState → DataSourceResult (Option BlockPointer)
  tryResolveBlockNumber : UInt64 → DataSourceResult (Option BlockPointer)
  tryResolveBlockHash : B256 → DataSourceResult (Option BlockPointer)
  getBlock : BlockPointer → DataSourceResult (Option (HistoricalBlockData alloy.toAlloy))
  getBlockHeader : BlockPointer → DataSourceResult (Option alloy.Header)

def HistoricalDataSource.tryResolve (source : HistoricalDataSource alloy) :
    BlockTagOrHash → DataSourceResult (Option BlockPointer)
  | .blockTags (.number n) => source.tryResolveBlockNumber n.value
  | .blockTags .latest => source.tryResolveBlockCommitState .proposed
  | .blockTags .safe => source.tryResolveBlockCommitState .voted
  | .blockTags .finalized => source.tryResolveBlockCommitState .finalized
  | .hash hash => source.tryResolveBlockHash hash.data

/-! ### The stack of sources -/

section Stack

variable {α : Type} (f : HistoricalDataSource alloy → BlockPointer → DataSourceResult (Option α))

/-- The first source that has what a pointer points to. Every error ends the search. -/
def fetch (pointer : BlockPointer) :
    List (HistoricalDataSource alloy) → DataSourceResult (Option α)
  | [] => .ok none
  | source :: sources => do
    match ← f source pointer with
    | some a => return some a
    | none => fetch pointer sources

/-- `try_resolve_and_then`: the source that resolves is the first one that is asked. -/
def tryResolveAndThen (r : BlockTagOrHash) :
    List (HistoricalDataSource alloy) → DataSourceResult (Option α)
  | [] => .ok none
  | source :: sources => do
    match ← source.tryResolve r with
    | some pointer => fetch f pointer (source :: sources)
    | none => tryResolveAndThen r sources

end Stack

/-- `TriedbDataSource`. -/
def triedbDataSource (triedb : Receipts.Triedb alloy.toReceiptAlloy) :
    HistoricalDataSource alloy where
  tryResolveBlockCommitState
    | .proposed => .ok (some (.ofKey triedb.getLatestProposedBlockKey))
    | .voted => .ok (some (.ofKey triedb.getLatestVotedBlockKey))
    | .finalized => .ok (some (.ofKey (.finalized triedb.getLatestFinalizedBlockKey)))
  tryResolveBlockNumber n := .ok ((triedb.getBlockKey n).map .ofKey)
  tryResolveBlockHash hash := do
    match ← orMessage .internal
        (triedb.getBlockNumberByHash triedb.getLatestProposedBlockKey hash) with
    | none => return none
    | some n => return (triedb.getBlockKey n).map .ofKey
  getBlock pointer := do
    match ← orMessage .internal (triedb.getBlockHeader pointer.key) with
    | none => return none
    | some header =>
      match triedb.getTransactions pointer.key with
      -- While triedb synchronizes it may have the header only.
      | .error _ => return none
      | .ok transactions => return some ⟨header.header, some header.hash, transactions⟩
  getBlockHeader pointer := do
    let header ← orMessage .internal (triedb.getBlockHeader pointer.key)
    return header.map (·.header)

/-- The archive, with the number of the last block that was uploaded. -/
structure ArchiveReader extends Receipts.ArchiveReader where
  latestUploaded : Except Archive.Fault (Option UInt64)

/-- `get_block_from_archive`. -/
def getBlockFromArchive (alloy : BlockAlloy) (archiveReader : ArchiveReader) :
    BlockPointer → DataSourceResult (Option alloy.Block)
  | .nonFinalized _ _ => .ok none
  | .finalized n => orFault .internal (tryGetBlockByNumber archiveReader.archive n)

/-- `ArchiveDataSource`. It takes every number for that of a finalized block. -/
def archiveDataSource (archiveReader : ArchiveReader) : HistoricalDataSource alloy where
  tryResolveBlockCommitState
    | .proposed | .voted => .ok none
    | .finalized => do
      let latest ← orFault .internal archiveReader.latestUploaded
      return latest.map .finalized
  tryResolveBlockNumber n := .ok (some (.finalized n))
  tryResolveBlockHash hash := do
    let n ← orFault .internal (tryGetBlockNumberByHash archiveReader.archive hash)
    return n.map .finalized
  getBlock pointer := do
    let b ← getBlockFromArchive alloy archiveReader pointer
    return b.map fun b => ⟨b.header, none, b.transactions⟩
  getBlockHeader pointer := do
    let b ← getBlockFromArchive alloy archiveReader pointer
    return b.map (·.header)

/-- What the block buffer stores. -/
def bufferKinds (alloy : BlockAlloy) : Buffer.Kinds where
  Header := RpcHeader alloy
  Tx := Transaction alloy
  Receipt := Receipts.TransactionReceipt
  number header := alloy.number header.inner
  hash header := header.hash
  txHash tx := alloy.txHash tx.inner.tx
  transactionHash r := r.transactionHash

/-- `BlockBufferView`. -/
structure BlockBufferView (alloy : BlockAlloy) where
  maps : Buffer.Maps (bufferKinds alloy)
  getLatestProposedBlockNum : UInt64
  getLatestVotedBlockNum : UInt64
  getLatestFinalizedBlockNum : UInt64

namespace BlockBufferView

variable (view : BlockBufferView alloy)

def resolveBlockHeightFromTag : BlockTags → UInt64
  | .number n => n.value
  | .latest => view.getLatestProposedBlockNum
  | .safe => view.getLatestVotedBlockNum
  | .finalized => view.getLatestFinalizedBlockNum

/-- `resolve_block_height_from_buffer`. -/
def resolveBlockHeight : BlockTagOrHash → Option UInt64
  | .blockTags tag => some (view.resolveBlockHeightFromTag tag)
  | .hash hash =>
    (view.maps.getBlockByHash hash.data).map fun b => (bufferKinds alloy).number b.header

end BlockBufferView

/-- A buffered block as it is returned. -/
def ofBuffered (b : Buffer.Block (bufferKinds alloy)) : RpcBlock alloy :=
  ⟨b.header, .full b.transactions, [], none⟩

/-- **All sources together.** -/
structure DataProvider (alloy : BlockAlloy) where
  buffer : Option (BlockBufferView alloy)
  triedbEnv : Receipts.Triedb alloy.toReceiptAlloy
  archiveReader : Option ArchiveReader

/-- The stack: triedb, and then the archive. -/
def DataProvider.historical (p : DataProvider alloy) : List (HistoricalDataSource alloy) :=
  triedbDataSource p.triedbEnv :: p.archiveReader.toList.map archiveDataSource

end Sources

/-! ### The requests -/

section Requests

variable (p : DataProvider alloy) (r : BlockTagOrHash)

/-- `get_block_header`. -/
def getBlockHeader : Result alloy.Header :=
  match p.buffer.bind fun view =>
      (view.resolveBlockHeight r).bind view.maps.getBlockByHeight with
  | some b => .ok (ofBuffered b).header.inner
  | none => do
    match ← orDataSource (tryResolveAndThen (·.getBlockHeader ·) r p.historical) with
    | some header => return header
    | none => .error (.error .resourceNotFound)

/-- **`get_block`.** -/
def getBlock (returnFullTxns : Bool) : Result (RpcBlock alloy) :=
  match p.buffer.bind fun view =>
      (view.resolveBlockHeight r).bind view.maps.getBlockByHeight with
  | some b =>
    if returnFullTxns then .ok (ofBuffered b)
    else .ok { ofBuffered b with transactions := (ofBuffered b).transactions.intoHashes }
  | none => do
    match ← orDataSource (tryResolveAndThen (·.getBlock ·) r p.historical) with
    | some data => return parseBlockContent data returnFullTxns
    | none => .error (.error .resourceNotFound)

/-- `get_transaction_from_triedb`. -/
def getTransactionFromTriedb (triedbEnv : Receipts.Triedb alloy.toReceiptAlloy)
    (blockKey : BlockKey) (txIndex : UInt64) : Result (Option (Transaction alloy)) := do
  match ← orMessage .triedb (triedbEnv.getBlockHeader blockKey) with
  | none => return none
  | some header =>
    match ← orMessage .triedb (triedbEnv.getTransaction blockKey txIndex) with
    | none => return none
    | some tx => return some (parseTxContent header.hash (alloy.number header.header)
        (alloy.timestamp header.header) (alloy.baseFeePerGas header.header) tx txIndex)

/-- The transaction from triedb, if it has a key. -/
def getTransactionOfKey (triedbEnv : Receipts.Triedb alloy.toReceiptAlloy) (txIndex : UInt64) :
    Option BlockKey → Result (Option (Transaction alloy))
  | none => .ok none
  | some blockKey => getTransactionFromTriedb triedbEnv blockKey txIndex

/-- A transaction of a block of the archive. -/
def transactionOfBlock (blockHash : B256) (index : UInt64) (block : alloy.Block) :
    Option (Transaction alloy) :=
  block.transactions[index.toNat]?.map fun tx =>
    parseTxContent blockHash (alloy.number block.header) (alloy.timestamp block.header)
      (alloy.baseFeePerGas block.header) tx index

/-- The key of a block in triedb, for a transaction of it. -/
def transactionKey (triedbEnv : Receipts.Triedb alloy.toReceiptAlloy) :
    BlockTagOrHash → Result (Option BlockKey)
  | .blockTags tag =>
    match getBlockKeyFromTag triedbEnv tag with
    | none => .error (.error .resourceNotFound)
    | some blockKey => .ok (some blockKey)
  | .hash hash => do
    match ← orMessage .triedb
        (triedbEnv.getBlockNumberByHash triedbEnv.getLatestProposedBlockKey hash.data) with
    | none => return none
    | some blockNum =>
      match triedbEnv.getBlockKey blockNum with
      | none => .error (.error .resourceNotFound)
      | some blockKey => return some blockKey

/-- The transaction from the archive. The block with a tag is looked for under the number that
triedb has for the tag, and only if it is finalized. -/
def getTransactionFromArchive (archiveReader : ArchiveReader) (blockKey : Option BlockKey)
    (index : UInt64) : BlockTagOrHash → Result (Option (Transaction alloy))
  | .blockTags _ =>
    match blockKey with
    | some (.finalized blockNum) => do
      let block : Option alloy.Block ← orFault .archive
        (tryGetBlockByNumber archiveReader.archive blockNum)
      return block.bind fun block =>
        transactionOfBlock (alloy.hashSlow block.header) index block
    | _ => .ok none
  | .hash hash => do
    let block : Option alloy.Block ← orFault .archive
      (tryGetBlockByHash archiveReader.archive hash.data)
    return block.bind (transactionOfBlock hash.data index)

/-- The transaction from triedb or from the archive. -/
def getTransactionByKey (index : UInt64) : Result (Transaction alloy) := do
  let blockKey ← transactionKey p.triedbEnv r
  match ← getTransactionOfKey p.triedbEnv index blockKey with
  | some tx => return tx
  | none =>
    match p.archiveReader with
    | none => .error (.error .resourceNotFound)
    | some archiveReader =>
      match ← getTransactionFromArchive archiveReader blockKey index r with
      | some tx => return tx
      | none => .error (.error .resourceNotFound)

/-- **`get_transaction_with_block_and_index`.** -/
def getTransactionWithBlockAndIndex (index : UInt64) : Result (Transaction alloy) :=
  match p.buffer.bind fun view => (view.resolveBlockHeight r).bind fun height =>
      view.maps.getTransactionByLocation height index.toNat with
  | some tx => .ok tx
  | none => getTransactionByKey p r index

/-- The transaction from triedb, if it knows where the transaction is. -/
def getTransactionByLocation (txHash : B256) : Result (Option (Transaction alloy)) := do
  match ← orMessage .triedb (p.triedbEnv.getTransactionLocationByHash
      p.triedbEnv.getLatestProposedBlockKey txHash) with
  | none => return none
  | some location =>
    match p.triedbEnv.getBlockKey location.blockNum with
    | none => .error (.error .resourceNotFound)
    | some blockKey => getTransactionFromTriedb p.triedbEnv blockKey location.txIndex

/-- The transaction from the index of the archive. -/
def getTransactionFromIndex (archiveReader : ArchiveReader) (txHash : B256) :
    Result (Option (Transaction alloy)) := do
  let data : Option (alloy.Tx × HeaderSubset) ← orFault .archive
    (getTx archiveReader.index archiveReader.archive txHash)
  return data.map fun (tx, header) => parseTxContent header.blockHash header.blockNumber
    header.blockTimestamp header.baseFeePerGas tx header.txIndex

/-- **`get_transaction`.** -/
def getTransaction (txHash : B256) : Result (Transaction alloy) :=
  match p.buffer.bind (·.maps.getTransactionByHash txHash) with
  | some tx => .ok tx
  | none => do
    match ← getTransactionByLocation p txHash with
    | some tx => return tx
    | none =>
      match p.archiveReader with
      | none => .error (.error .resourceNotFound)
      | some archiveReader =>
        match ← getTransactionFromIndex archiveReader txHash with
        | some tx => return tx
        | none => .error (.error .resourceNotFound)

end Requests

/-! ### The raw block -/

section Raw

/-- The loop over the transactions, which counts two bytes of the response for one that is coded. -/
def checkTxsSize (maxResponseSize : ℕ) :
    ℕ → List alloy.Tx → Except Jsonrpc.JsonRpcError Unit
  | _, [] => .ok ()
  | size, tx :: txs =>
    let size' := size + 2 * (alloy.txEnvelope.encode tx.tx).length
    if maxResponseSize < size' then .error .maxResponseSizeExceeded
    else checkTxsSize maxResponseSize size' txs

/-- An error that is not told; a panic goes through. -/
def orNoData {α : Type} : Result α → Except (Halt Jsonrpc.JsonRpcError) α
  | .ok a => .ok a
  | .error (.error _) => .error (.error (.internalError "block data not found"))
  | .error (.panic message) => .error (.panic message)

def orError {α : Type} : Except Jsonrpc.JsonRpcError α → Except (Halt Jsonrpc.JsonRpcError) α
  | .ok a => .ok a
  | .error e => .error (.error e)

variable (p : DataProvider alloy) (tag : BlockTags)

/-- **`debug_getRawBlock`.** -/
def getRawBlock (maxResponseSize : ℕ) : Except (Halt Jsonrpc.JsonRpcError) String := do
  let block ← orNoData (getBlock p (.blockTags tag) true)
  let transactions := block.transactions.intoTransactions.map fun tx => tx.inner
  orError (checkTxsSize maxResponseSize 0 transactions)
  return encodeBytes (alloy.blockV0.encode
    ⟨block.header.inner, transactions.map fun tx => tx.tx, [], none⟩)

/-- `debug_getRawHeader`. -/
def getRawHeader : Except (Halt Jsonrpc.JsonRpcError) String := do
  let header ← orNoData (getBlockHeader p (.blockTags tag))
  return encodeBytes (alloy.header.encode header)

/-- `debug_getRawTransaction`. -/
def getRawTransaction (txHash : B256) : Except (Halt Jsonrpc.JsonRpcError) String := do
  let tx ← orNoData (getTransaction p txHash)
  return encodeBytes (alloy.encode2718 tx.inner.tx)

end Raw

/-! ### What the sources have -/

section Have

/-- The key of a block in triedb. -/
def resolveKey (triedbEnv : Receipts.Triedb alloy.toReceiptAlloy) :
    BlockTagOrHash → Except String (Option BlockKey)
  | .blockTags tag => .ok (getBlockKeyFromTag triedbEnv tag)
  | .hash hash => do
    let n ← triedbEnv.getBlockNumberByHash triedbEnv.getLatestProposedBlockKey hash.data
    return n.bind triedbEnv.getBlockKey

/-- Triedb has a block under a key. -/
structure StoredInTriedb (triedbEnv : Receipts.Triedb alloy.toReceiptAlloy) (blockKey : BlockKey)
    (block : alloy.Block) : Prop where
  getBlockHeader : triedbEnv.getBlockHeader blockKey =
    .ok (some ⟨alloy.hashSlow block.header, block.header⟩)
  getTransactions : triedbEnv.getTransactions blockKey = .ok block.transactions
  getTransaction : ∀ txIndex, triedbEnv.getTransaction blockKey txIndex =
    .ok block.transactions[txIndex.toNat]?

/-- Triedb has the header of a block only. -/
structure HeaderInTriedb (triedbEnv : Receipts.Triedb alloy.toReceiptAlloy) (blockKey : BlockKey)
    (block : alloy.Block) : Prop where
  getBlockHeader : triedbEnv.getBlockHeader blockKey =
    .ok (some ⟨alloy.hashSlow block.header, block.header⟩)
  getTransactions : ∃ e, triedbEnv.getTransactions blockKey = .error e
  getTransaction : ∀ txIndex, triedbEnv.getTransaction blockKey txIndex = .ok none

/-- What triedb has under a key is the block, its header, or nothing. -/
def InTriedb (triedbEnv : Receipts.Triedb alloy.toReceiptAlloy) (blockKey : BlockKey)
    (block : alloy.Block) : Prop :=
  StoredInTriedb triedbEnv blockKey block ∨ HeaderInTriedb triedbEnv blockKey block ∨
    triedbEnv.getBlockHeader blockKey = .ok none

/-- The archive has a block, in one of the versions it is stored in. -/
def InArchive (archive : ArchiveKey → Option Bytes) (n : UInt64) (block : alloy.Block) : Prop :=
  ∃ (stored : StoredBlock alloy.toAlloy) (decoded : alloy.Block),
    archive (.block n) = some stored.bytes ∧ stored.repr.payload.length < 2 ^ 64 ∧
      stored.repr.convert = .ok decoded ∧ decoded.header = block.header ∧
      decoded.transactions = block.transactions

/-- **How a block of the execution events is filled in**: with its total difficulty, its size, and
the times and prices of its transactions, as `parse_block_content` does it. The builder of these
blocks is not part of the repository. -/
structure FilledIn (b : Buffer.Block (bufferKinds alloy)) (block : alloy.Block) : Prop where
  hash : b.header.hash = alloy.hashSlow block.header
  inner : b.header.inner = block.header
  totalDifficulty : b.header.totalDifficulty = some (alloy.difficulty block.header)
  size : b.header.size =
    some (BitVec.ofNat 256 (calculateBlockSize block.header block.transactions))
  transactions : b.transactions = block.transactions.zipIdx.map fun x =>
    parseTxContent (alloy.hashSlow block.header) (alloy.number block.header)
      (alloy.timestamp block.header) (alloy.baseFeePerGas block.header) x.1 (UInt64.ofNat x.2)

/-- The numbers under which the archive may be asked for a block. -/
inductive Asked (triedbEnv : Receipts.Triedb alloy.toReceiptAlloy)
    (archive : ArchiveKey → Option Bytes) : BlockTagOrHash → UInt64 → Prop
  | key {r : BlockTagOrHash} {n : UInt64} (h : resolveKey triedbEnv r = .ok (some (.finalized n))) :
    Asked triedbEnv archive r n
  | number {n : UInt64} (h : triedbEnv.getBlockKey n = none) :
    Asked triedbEnv archive (.blockTags (.number ⟨n⟩)) n
  | hash {hash : EthHash} {n : UInt64} (h : archive (.blockHash hash.data) = some (digits n)) :
    Asked triedbEnv archive (.hash hash) n

/-- **The sources that have a block for a reference have this one**, and none of them fails. -/
structure Sources (p : DataProvider alloy) (r : BlockTagOrHash) (block : alloy.Block) : Prop where
  hash : ∀ hash, r = .hash hash → hash.data = alloy.hashSlow block.header
  buffer : ∀ view ∈ p.buffer, ∀ height b, view.resolveBlockHeight r = some height →
    view.maps.getBlockByHeight height = some b → FilledIn b block
  resolves : ∃ blockKey, resolveKey p.triedbEnv r = .ok blockKey
  triedb : ∀ blockKey, resolveKey p.triedbEnv r = .ok (some blockKey) →
    InTriedb p.triedbEnv blockKey block
  numbers : ∀ archiveReader ∈ p.archiveReader, ∀ hash, r = .hash hash →
    archiveReader.archive (.blockHash hash.data) = none ∨
      ∃ n, archiveReader.archive (.blockHash hash.data) = some (digits n)
  archive : ∀ archiveReader ∈ p.archiveReader, ∀ n, Asked p.triedbEnv archiveReader.archive r n →
    archiveReader.archive (.block n) = none ∨ InArchive archiveReader.archive n block

/-- The archive is asked for a block under a number, whatever the request. -/
def Serves (triedbEnv : Receipts.Triedb alloy.toReceiptAlloy) (archive : ArchiveKey → Option Bytes)
    (n : UInt64) : BlockTagOrHash → Prop
  | .blockTags tag => getBlockKeyFromTag triedbEnv tag = some (.finalized n) ∨
    getBlockKeyFromTag triedbEnv tag = none ∧ tag = .number ⟨n⟩
  | .hash hash => archive (.blockHash hash.data) = some (digits n) ∧
    ∀ blockKey, resolveKey triedbEnv (.hash hash) = .ok (some blockKey) → blockKey = .finalized n

/-- **A source has the block.** -/
inductive Has (p : DataProvider alloy) (r : BlockTagOrHash) (block : alloy.Block) : Prop
  | buffer (b : Buffer.Block (bufferKinds alloy)) (h : (p.buffer.bind fun view =>
      (view.resolveBlockHeight r).bind view.maps.getBlockByHeight) = some b)
  | triedb (blockKey : BlockKey) (hkey : resolveKey p.triedbEnv r = .ok (some blockKey))
    (h : StoredInTriedb p.triedbEnv blockKey block)
  | archive (archiveReader : ArchiveReader) (n : UInt64)
    (hreader : p.archiveReader = some archiveReader)
    (hserves : Serves p.triedbEnv archiveReader.archive n r)
    (h : InArchive archiveReader.archive n block)

/-- **The block as it is returned**, as its header and its transactions say. -/
def rpcBlock (block : alloy.Block) (returnFullTxns : Bool) : RpcBlock alloy :=
  parseBlockContent ⟨block.header, none, block.transactions⟩ returnFullTxns

/-- **All requests for a block answer the same.** For a transaction triedb has to know a key. -/
structure Agree (p : DataProvider alloy) (r : BlockTagOrHash) (block : alloy.Block) : Prop where
  header : getBlockHeader p r = .ok block.header
  blocks : ∀ returnFullTxns, getBlock p r returnFullTxns = .ok (rpcBlock block returnFullTxns)
  transaction : (∃ blockKey, transactionKey p.triedbEnv r = .ok blockKey) → ∀ index : UInt64,
    getTransactionWithBlockAndIndex p r index =
      (rpcBlock block true).transactions.intoTransactions[index.toNat]?.elim
        (.error (.error .resourceNotFound)) .ok

end Have

/-! ### Reading from the sources -/

section Reading

variable {block : alloy.Block} {triedbEnv : Receipts.Triedb alloy.toReceiptAlloy}
  {blockKey : BlockKey} {archive : ArchiveKey → Option Bytes} {archiveReader : ArchiveReader}
  {n : UInt64} {r : BlockTagOrHash}

theorem key_ofKey (blockKey : BlockKey) : (BlockPointer.ofKey blockKey).key = blockKey := by
  cases blockKey with
  | finalized n => rfl
  | proposed n id => rfl

/-- What triedb resolves to. -/
theorem tryResolve_triedb {key : Option BlockKey} (h : resolveKey triedbEnv r = .ok key) :
    (triedbDataSource triedbEnv).tryResolve r = .ok (key.map .ofKey) := by
  match r with
  | .blockTags (.number n) | .blockTags .latest | .blockTags .safe | .blockTags .finalized =>
    obtain rfl := Except.ok.inj h
    rfl
  | .hash hash =>
    simp only [HistoricalDataSource.tryResolve, triedbDataSource]
    cases hn : triedbEnv.getBlockNumberByHash triedbEnv.getLatestProposedBlockKey hash.data with
    | error e =>
      simp only [resolveKey, hn] at h
      cases h
    | ok n =>
      simp only [resolveKey, hn] at h
      obtain rfl := Except.ok.inj h
      cases n with
      | none => rfl
      | some n => rfl

/-- A block of the execution events is what the other sources make of it. -/
theorem FilledIn.ofBuffered_eq {b : Buffer.Block (bufferKinds alloy)} (h : FilledIn b block) :
    ofBuffered b = rpcBlock block true := by
  obtain ⟨⟨hash, inner, totalDifficulty, size⟩, transactions⟩ := b
  obtain ⟨rfl, rfl, rfl, rfl, rfl⟩ := h
  rfl

theorem tryGetBlockNumberByHash_digits {hash : B256}
    (h : archive (.blockHash hash) = some (digits n)) :
    tryGetBlockNumberByHash archive hash = .ok (some n) := by
  rw [tryGetBlockNumberByHash, h]
  simp only [digits, fromUTF8?_toList_toUTF8, parseUnsigned_repr n.toNat_lt, toString,
    UInt64.ofNat_toNat]

theorem tryGetBlockNumberByHash_none {hash : B256} (h : archive (.blockHash hash) = none) :
    tryGetBlockNumberByHash archive hash = .ok none := by
  rw [tryGetBlockNumberByHash, h]

theorem tryGetBlockByNumber_none (h : archive (.block n) = none) :
    (tryGetBlockByNumber archive n : Except Archive.Fault (Option alloy.Block)) = .ok none := by
  rw [tryGetBlockByNumber, h]

/-- **A block of the archive is read back.** -/
theorem InArchive.tryGetBlockByNumber_eq (h : InArchive archive n block) :
    ∃ decoded : alloy.Block, tryGetBlockByNumber archive n = .ok (some decoded) ∧
      decoded.header = block.header ∧ decoded.transactions = block.transactions := by
  obtain ⟨stored, decoded, hbytes, hlen, hconvert, hheader, htxs⟩ := h
  refine ⟨decoded, ?_, hheader, htxs⟩
  have hdecode : BlockStorageRepr.decodeAndConvert stored.bytes = .ok decoded := by
    rw [BlockStorageRepr.decodeAndConvert, stored.decode_bytes hlen]
    exact hconvert
  rw [tryGetBlockByNumber, hbytes]
  simp only [hdecode]
  rfl

end Reading

/-! ### The stack -/

section Stack

variable {block : alloy.Block} {p : DataProvider alloy} {r : BlockTagOrHash} {α : Type}
  {f : HistoricalDataSource alloy → BlockPointer → DataSourceResult (Option α)} {P : α → Prop}

/-- Sources of which each has nothing or what is good, and one has it. -/
theorem fetch_eq {pointer : BlockPointer} {sources : List (HistoricalDataSource alloy)}
    (hall : ∀ source ∈ sources, f source pointer = .ok none ∨
      ∃ a, f source pointer = .ok (some a) ∧ P a)
    (hone : ∃ source ∈ sources, f source pointer ≠ .ok none) :
    ∃ a, fetch f pointer sources = .ok (some a) ∧ P a := by
  induction sources with
  | nil =>
    obtain ⟨source, hmem, -⟩ := hone
    cases hmem
  | cons source sources ih =>
    obtain ⟨hsource, hrest⟩ := List.forall_mem_cons.mp hall
    rcases hsource with hnone | ⟨a, ha, hgood⟩
    · obtain ⟨other, hmem, hne⟩ := hone
      have htail : ∃ source ∈ sources, f source pointer ≠ .ok none := by
        rcases List.mem_cons.mp hmem with rfl | hmem
        · exact absurd hnone hne
        · exact ⟨other, hmem, hne⟩
      obtain ⟨a, ha, hgood⟩ := ih hrest htail
      refine ⟨a, ?_, hgood⟩
      rw [fetch, hnone]
      exact ha
    · refine ⟨a, ?_, hgood⟩
      rw [fetch, ha]
      rfl

/-- What a read of a source makes of a block: all of it, or the part that it needs. -/
structure Reads (f : HistoricalDataSource alloy → BlockPointer → DataSourceResult (Option α))
    (P : α → Prop) (block : alloy.Block) : Prop where
  stored : ∀ triedbEnv blockKey, StoredInTriedb triedbEnv blockKey block →
    ∃ a, f (triedbDataSource triedbEnv) (.ofKey blockKey) = .ok (some a) ∧ P a
  triedb : ∀ triedbEnv blockKey, InTriedb triedbEnv blockKey block →
    f (triedbDataSource triedbEnv) (.ofKey blockKey) = .ok none ∨
      ∃ a, f (triedbDataSource triedbEnv) (.ofKey blockKey) = .ok (some a) ∧ P a
  archive : ∀ archiveReader n, InArchive archiveReader.archive n block →
    ∃ a, f (archiveDataSource archiveReader) (.finalized n) = .ok (some a) ∧ P a
  absent : ∀ archiveReader n, archiveReader.archive (.block n) = none →
    f (archiveDataSource archiveReader) (.finalized n) = .ok none
  nonFinalized : ∀ archiveReader n id,
    f (archiveDataSource archiveReader) (.nonFinalized n id) = .ok none

/-- The archive is asked for the key that triedb resolved to. -/
theorem Reads.archive_key (hf : Reads f P block) (h : Sources p r block)
    {archiveReader : ArchiveReader} (hreader : p.archiveReader = some archiveReader)
    {blockKey : BlockKey} (hkey : resolveKey p.triedbEnv r = .ok (some blockKey)) :
    f (archiveDataSource archiveReader) (.ofKey blockKey) = .ok none ∨
      ∃ a, f (archiveDataSource archiveReader) (.ofKey blockKey) = .ok (some a) ∧ P a := by
  cases blockKey with
  | finalized n =>
    rcases h.archive archiveReader hreader n (.key hkey) with hnone | hin
    · exact Or.inl (hf.absent archiveReader n hnone)
    · exact Or.inr (hf.archive archiveReader n hin)
  | proposed n id => exact Or.inl (hf.nonFinalized archiveReader n id)

/-- **The stack finds the block** if triedb or the archive has it. -/
theorem tryResolveAndThen_eq (hf : Reads f P block) (h : Sources p r block)
    (hhas : (∃ blockKey, resolveKey p.triedbEnv r = .ok (some blockKey) ∧
        StoredInTriedb p.triedbEnv blockKey block) ∨
      ∃ archiveReader n, p.archiveReader = some archiveReader ∧
        Serves p.triedbEnv archiveReader.archive n r ∧ InArchive archiveReader.archive n block) :
    ∃ a, tryResolveAndThen f r p.historical = .ok (some a) ∧ P a := by
  obtain ⟨key, hkey⟩ := h.resolves
  rw [DataProvider.historical, tryResolveAndThen, tryResolve_triedb hkey]
  cases key with
  | some blockKey =>
    -- Triedb resolves the reference, and is asked first.
    refine fetch_eq ?_ ?_
    · rw [List.forall_mem_cons]
      refine ⟨hf.triedb _ _ (h.triedb blockKey hkey), fun source hsource => ?_⟩
      obtain ⟨archiveReader, hreader, rfl⟩ := List.mem_map.mp hsource
      exact hf.archive_key h (Option.mem_toList.mp hreader) hkey
    · rcases hhas with ⟨other, hother, hstored⟩ | ⟨archiveReader, n, hreader, hserves, hin⟩
      · obtain rfl : blockKey = other := Option.some.inj (Except.ok.inj (hkey.symm.trans hother))
        obtain ⟨a, ha, -⟩ := hf.stored _ _ hstored
        exact ⟨_, List.mem_cons_self, by rw [ha]; exact fun heq => by cases heq⟩
      · have hfinalized : blockKey = .finalized n := by
          cases r with
          | blockTags tag =>
            have htag : getBlockKeyFromTag p.triedbEnv tag = some blockKey := Except.ok.inj hkey
            rcases hserves with hsome | ⟨hnone, -⟩
            · exact Option.some.inj (htag.symm.trans hsome)
            · cases htag.symm.trans hnone
          | hash hash => exact hserves.2 blockKey hkey
        obtain rfl := hfinalized
        obtain ⟨a, ha, -⟩ := hf.archive archiveReader n hin
        refine ⟨archiveDataSource archiveReader, List.mem_cons_of_mem _ ?_, ?_⟩
        · exact List.mem_map_of_mem (Option.mem_toList.mpr hreader)
        · rw [show BlockPointer.ofKey (.finalized n) = .finalized n from rfl, ha]
          exact fun heq => by cases heq
  | none =>
    -- The archive resolves it, to the number it serves.
    rcases hhas with ⟨other, hother, -⟩ | ⟨archiveReader, n, hreader, hserves, hin⟩
    · cases hkey.symm.trans hother
    · obtain ⟨a, ha, hgood⟩ := hf.archive archiveReader n hin
      refine ⟨a, ?_, hgood⟩
      have hresolve : (archiveDataSource archiveReader : HistoricalDataSource alloy).tryResolve r =
          .ok (some (.finalized n)) := by
        cases r with
        | blockTags tag =>
          have htag : getBlockKeyFromTag p.triedbEnv tag = none := Except.ok.inj hkey
          rcases hserves with hsome | ⟨-, rfl⟩
          · cases htag.symm.trans hsome
          · rfl
        | hash hash =>
          simp only [HistoricalDataSource.tryResolve, archiveDataSource,
            tryGetBlockNumberByHash_digits hserves.1]
          rfl
      rw [hreader]
      simp only [Option.toList_some, List.map_cons, List.map_nil, Option.map_none, ok_bind,
        tryResolveAndThen, hresolve, fetch, ha]
      rfl

end Stack

/-! ### The answers -/

section Answers

variable {block : alloy.Block} {p : DataProvider alloy} {r : BlockTagOrHash}

/-- The data of a block, with its hash or without. -/
structure DataOf (block : alloy.Block) (data : HistoricalBlockData alloy.toAlloy) : Prop where
  header : data.header = block.header
  hash : blockHashOf data = alloy.hashSlow block.header
  transactions : data.transactions = block.transactions

theorem DataOf.parseBlockContent_eq {data : HistoricalBlockData alloy.toAlloy}
    (h : DataOf block data) (returnFullTxns : Bool) :
    parseBlockContent data returnFullTxns = rpcBlock block returnFullTxns := by
  have hhash : blockHashOf data =
      blockHashOf ⟨block.header, none, block.transactions⟩ := h.hash
  simp only [rpcBlock, parseBlockContent, parseTransactions, hhash, h.header, h.transactions]

theorem reads_getBlock : Reads (·.getBlock ·) (DataOf block) block where
  stored triedbEnv blockKey h := by
    refine ⟨⟨block.header, some (alloy.hashSlow block.header), block.transactions⟩, ?_, rfl, rfl,
      rfl⟩
    simp only [triedbDataSource, key_ofKey, h.getBlockHeader, h.getTransactions, orMessage,
      ok_bind]
    rfl
  triedb triedbEnv blockKey h := by
    rcases h with hstored | hheader | hnone
    · refine Or.inr ⟨⟨block.header, some (alloy.hashSlow block.header), block.transactions⟩, ?_,
        rfl, rfl, rfl⟩
      simp only [triedbDataSource, key_ofKey, hstored.getBlockHeader, hstored.getTransactions,
        orMessage, ok_bind]
      rfl
    · obtain ⟨e, he⟩ := hheader.getTransactions
      left
      simp only [triedbDataSource, key_ofKey, hheader.getBlockHeader, he, orMessage, ok_bind]
      rfl
    · left
      simp only [triedbDataSource, key_ofKey, hnone, orMessage, ok_bind]
      rfl
  archive archiveReader n h := by
    obtain ⟨decoded, hread, hheader, htxs⟩ := h.tryGetBlockByNumber_eq
    refine ⟨⟨decoded.header, none, decoded.transactions⟩, ?_, hheader, ?_, htxs⟩
    · simp only [archiveDataSource, getBlockFromArchive, hread, orFault, ok_bind]
      rfl
    · exact congrArg alloy.hashSlow hheader
  absent archiveReader n h := by
    simp only [archiveDataSource, getBlockFromArchive, tryGetBlockByNumber_none h, orFault,
      ok_bind]
    rfl
  nonFinalized archiveReader n id := rfl

theorem reads_getBlockHeader : Reads (·.getBlockHeader ·) (· = block.header) block where
  stored triedbEnv blockKey h := by
    refine ⟨block.header, ?_, rfl⟩
    simp only [triedbDataSource, key_ofKey, h.getBlockHeader, orMessage, ok_bind]
    rfl
  triedb triedbEnv blockKey h := by
    have hheader (hsome : triedbEnv.getBlockHeader blockKey =
        .ok (some ⟨alloy.hashSlow block.header, block.header⟩)) :
        (triedbDataSource triedbEnv).getBlockHeader (.ofKey blockKey) =
          .ok (some block.header) := by
      simp only [triedbDataSource, key_ofKey, hsome, orMessage, ok_bind]
      rfl
    rcases h with hstored | honly | hnone
    · exact Or.inr ⟨_, hheader hstored.getBlockHeader, rfl⟩
    · exact Or.inr ⟨_, hheader honly.getBlockHeader, rfl⟩
    · left
      simp only [triedbDataSource, key_ofKey, hnone, orMessage, ok_bind]
      rfl
  archive archiveReader n h := by
    obtain ⟨decoded, hread, hheader, -⟩ := h.tryGetBlockByNumber_eq
    refine ⟨decoded.header, ?_, hheader⟩
    simp only [archiveDataSource, getBlockFromArchive, hread, orFault, ok_bind]
    rfl
  absent archiveReader n h := by
    simp only [archiveDataSource, getBlockFromArchive, tryGetBlockByNumber_none h, orFault,
      ok_bind]
    rfl
  nonFinalized archiveReader n id := rfl

/-- The transaction at a place of the block that is returned. -/
theorem transactions_getElem (block : alloy.Block) (index : UInt64) :
    (rpcBlock block true).transactions.intoTransactions[index.toNat]? =
      transactionOfBlock (alloy.hashSlow block.header) index block := by
  simp only [rpcBlock, parseBlockContent, parseTransactions, if_pos,
    BlockTransactions.intoTransactions, List.getElem?_map, List.getElem?_zipIdx, Option.map_map,
    transactionOfBlock, Nat.zero_add, Function.comp_def, UInt64.ofNat_toNat]
  rfl

theorem transactionOfBlock_congr {block decoded : alloy.Block} (hheader : decoded.header =
    block.header) (htxs : decoded.transactions = block.transactions) (blockHash : B256)
    (index : UInt64) :
    transactionOfBlock blockHash index decoded = transactionOfBlock blockHash index block := by
  rw [transactionOfBlock, transactionOfBlock, hheader, htxs]

/-- A block of triedb has the transaction, or its header only is there. -/
theorem getTransactionFromTriedb_eq {triedbEnv : Receipts.Triedb alloy.toReceiptAlloy}
    {blockKey : BlockKey} (index : UInt64) (h : StoredInTriedb triedbEnv blockKey block) :
    getTransactionFromTriedb triedbEnv blockKey index =
      .ok (transactionOfBlock (alloy.hashSlow block.header) index block) := by
  simp only [getTransactionFromTriedb, h.getBlockHeader, h.getTransaction, orMessage, ok_bind,
    transactionOfBlock]
  cases block.transactions[index.toNat]? with
  | none => rfl
  | some tx => rfl

theorem getTransactionFromTriedb_none {triedbEnv : Receipts.Triedb alloy.toReceiptAlloy}
    {blockKey : BlockKey} (index : UInt64) (h : HeaderInTriedb triedbEnv blockKey block ∨
      triedbEnv.getBlockHeader blockKey = .ok none) :
    getTransactionFromTriedb triedbEnv blockKey index = .ok none := by
  rcases h with honly | hnone
  · simp only [getTransactionFromTriedb, honly.getBlockHeader, honly.getTransaction, orMessage,
      ok_bind]
    rfl
  · simp only [getTransactionFromTriedb, hnone, orMessage, ok_bind]
    rfl

/-- The key for a transaction is the one the reference resolves to. -/
theorem resolveKey_of_transactionKey {triedbEnv : Receipts.Triedb alloy.toReceiptAlloy}
    {key : Option BlockKey} (h : transactionKey triedbEnv r = .ok key) :
    resolveKey triedbEnv r = .ok key := by
  cases r with
  | blockTags tag =>
    rw [transactionKey] at h
    rw [resolveKey]
    cases hkey : getBlockKeyFromTag triedbEnv tag with
    | none =>
      rw [hkey] at h
      cases h
    | some blockKey =>
      rw [hkey] at h
      exact congrArg Except.ok (Except.ok.inj h)
  | hash hash =>
    rw [transactionKey] at h
    rw [resolveKey]
    cases hn : triedbEnv.getBlockNumberByHash triedbEnv.getLatestProposedBlockKey hash.data with
    | error e =>
      rw [hn] at h
      cases h
    | ok n =>
      rw [hn] at h
      cases n with
      | none => exact congrArg Except.ok (Except.ok.inj h)
      | some n =>
        simp only [orMessage, ok_bind] at h ⊢
        cases hkey : triedbEnv.getBlockKey n with
        | none =>
          rw [hkey] at h
          cases h
        | some blockKey =>
          rw [hkey] at h
          rw [Option.bind_some, hkey]
          exact congrArg Except.ok (Except.ok.inj h)

section FromArchive

variable {archiveReader : ArchiveReader} {key : Option BlockKey} {n : UInt64}

/-- The archive has the transaction under the key of triedb. -/
theorem getTransactionFromArchive_tag (index : UInt64) (tag : BlockTags)
    (h : InArchive archiveReader.archive n block) :
    getTransactionFromArchive archiveReader (some (.finalized n)) index (.blockTags tag) =
      .ok (transactionOfBlock (alloy.hashSlow block.header) index block) := by
  obtain ⟨decoded, hread, hheader, htxs⟩ := h.tryGetBlockByNumber_eq
  simp only [getTransactionFromArchive, hread, orFault, ok_bind]
  exact congrArg Except.ok (hheader ▸ transactionOfBlock_congr hheader htxs _ index)

/-- The archive has the transaction under the hash of its block. -/
theorem getTransactionFromArchive_hash (index : UInt64) {hash : EthHash}
    (hhash : hash.data = alloy.hashSlow block.header)
    (hentry : archiveReader.archive (.blockHash hash.data) = some (digits n))
    (h : InArchive archiveReader.archive n block) :
    getTransactionFromArchive archiveReader key index (.hash hash) =
      .ok (transactionOfBlock (alloy.hashSlow block.header) index block) := by
  obtain ⟨decoded, hread, hheader, htxs⟩ := h.tryGetBlockByNumber_eq
  simp only [getTransactionFromArchive, tryGetBlockByHash, tryGetBlockNumberByHash_digits hentry,
    hread, orFault, ok_bind]
  exact congrArg Except.ok (hhash ▸ transactionOfBlock_congr hheader htxs _ index)

/-- What the archive has for the reference is this block. -/
theorem getTransactionFromArchive_or (index : UInt64) (h : Sources p r block)
    (hreader : p.archiveReader = some archiveReader)
    (hkey : transactionKey p.triedbEnv r = .ok key) :
    (getTransactionFromArchive archiveReader key index r :
        Result (Option (Transaction alloy))) = .ok none ∨
      getTransactionFromArchive archiveReader key index r =
        .ok (transactionOfBlock (alloy.hashSlow block.header) index block) := by
  have hresolve := resolveKey_of_transactionKey hkey
  cases r with
  | blockTags tag =>
    match key, hresolve with
    | none, _ => exact Or.inl rfl
    | some (.proposed n id), _ => exact Or.inl rfl
    | some (.finalized n), hresolve =>
      rcases h.archive archiveReader hreader n (.key hresolve) with hnone | hin
      · left
        simp only [getTransactionFromArchive, tryGetBlockByNumber_none hnone, orFault, ok_bind]
        rfl
      · exact Or.inr (getTransactionFromArchive_tag index tag hin)
  | hash hash =>
    rcases h.numbers archiveReader hreader hash rfl with hnone | ⟨n, hentry⟩
    · left
      simp only [getTransactionFromArchive, tryGetBlockByHash, tryGetBlockNumberByHash_none hnone,
        ok_bind]
      rfl
    · rcases h.archive archiveReader hreader n (.hash hentry) with hnone | hin
      · left
        simp only [getTransactionFromArchive, tryGetBlockByHash,
          tryGetBlockNumberByHash_digits hentry, tryGetBlockByNumber_none hnone, orFault, ok_bind]
        rfl
      · exact Or.inr (getTransactionFromArchive_hash index (h.hash hash rfl) hentry hin)

/-- The archive serves the transaction. -/
theorem getTransactionFromArchive_of_serves (index : UInt64) (h : Sources p r block)
    (hkey : transactionKey p.triedbEnv r = .ok key)
    (hserves : Serves p.triedbEnv archiveReader.archive n r)
    (hin : InArchive archiveReader.archive n block) :
    getTransactionFromArchive archiveReader key index r =
      .ok (transactionOfBlock (alloy.hashSlow block.header) index block) := by
  cases r with
  | blockTags tag =>
    have hsome : getBlockKeyFromTag p.triedbEnv tag = some (.finalized n) := by
      rcases hserves with hsome | ⟨hnone, -⟩
      · exact hsome
      · rw [transactionKey, hnone] at hkey
        cases hkey
    rw [transactionKey, hsome] at hkey
    obtain rfl := Except.ok.inj hkey
    exact getTransactionFromArchive_tag index tag hin
  | hash hash => exact getTransactionFromArchive_hash index (h.hash hash rfl) hserves.1 hin

end FromArchive

/-- **The transaction from triedb or the archive.** If there is one at the place, one of them has
to have the block. -/
theorem getTransactionByKey_eq {key : Option BlockKey} (index : UInt64) (h : Sources p r block)
    (hkey : transactionKey p.triedbEnv r = .ok key)
    (hhas : transactionOfBlock (alloy.hashSlow block.header) index block = none ∨
      (∃ blockKey, resolveKey p.triedbEnv r = .ok (some blockKey) ∧
        StoredInTriedb p.triedbEnv blockKey block) ∨
      ∃ archiveReader n, p.archiveReader = some archiveReader ∧
        Serves p.triedbEnv archiveReader.archive n r ∧ InArchive archiveReader.archive n block) :
    getTransactionByKey p r index =
      (transactionOfBlock (alloy.hashSlow block.header) index block).elim
        (.error (.error .resourceNotFound)) .ok := by
  have hresolve := resolveKey_of_transactionKey hkey
  -- Triedb has nothing, or the transaction.
  have htriedb : ∃ found, getTransactionOfKey p.triedbEnv index key = .ok found ∧ (found = none ∨
      found = transactionOfBlock (alloy.hashSlow block.header) index block) := by
    cases key with
    | none => exact ⟨none, rfl, Or.inl rfl⟩
    | some blockKey =>
      rcases h.triedb blockKey hresolve with hstored | hless
      · exact ⟨_, getTransactionFromTriedb_eq index hstored, Or.inr rfl⟩
      · exact ⟨none, getTransactionFromTriedb_none index hless, Or.inl rfl⟩
  obtain ⟨found, hfound, hcases⟩ := htriedb
  rw [getTransactionByKey, hkey, ok_bind]
  simp only [hfound, ok_bind]
  cases found with
  | some tx =>
    rcases hcases with hnone | hsome
    · cases hnone
    · rw [← hsome]
      rfl
  | none =>
    cases htx : transactionOfBlock (alloy.hashSlow block.header) index block with
    | none =>
      cases hreader : p.archiveReader with
      | none => rfl
      | some archiveReader =>
        have harchive := getTransactionFromArchive_or index h hreader hkey
        rw [htx, or_self] at harchive
        simp only [harchive, ok_bind]
        rfl
    | some tx =>
      rcases hhas with hnone | ⟨blockKey, hsome, hstored⟩ |
        ⟨archiveReader, n, hreader, hserves, hin⟩
      · cases htx.symm.trans hnone
      · obtain rfl : key = some blockKey := Except.ok.inj (hresolve.symm.trans hsome)
        cases (hfound.symm.trans (getTransactionFromTriedb_eq index hstored)).trans
          (congrArg Except.ok htx)
      · have harchive := getTransactionFromArchive_of_serves index h hkey hserves hin
        rw [htx] at harchive
        simp only [hreader, harchive, ok_bind]
        rfl

/-- The transaction of a buffered block. -/
theorem getTransactionByLocation_eq {view : BlockBufferView alloy} {height : UInt64}
    {b : Buffer.Block (bufferKinds alloy)} (index : UInt64)
    (hb : view.maps.getBlockByHeight height = some b)
    (hblock : FilledIn b block) :
    view.maps.getTransactionByLocation height index.toNat =
      transactionOfBlock (alloy.hashSlow block.header) index block := by
  have htxs : b.transactions = (rpcBlock block true).transactions.intoTransactions := by
    rw [← hblock.ofBuffered_eq]
    rfl
  rw [← transactions_getElem, ← htxs, Buffer.Maps.getTransactionByLocation,
    show view.maps.blockByHeight height = some b from hb]
  rfl

/-- **The answers to all requests for a block are the same**, whichever sources have it. -/
theorem blocks_agree (h : Sources p r block) (hhas : Has p r block) : Agree p r block := by
  -- The sources besides the buffer have the block, if the buffer does not.
  have hrest : (p.buffer.bind fun view =>
      (view.resolveBlockHeight r).bind view.maps.getBlockByHeight) = none →
      (∃ blockKey, resolveKey p.triedbEnv r = .ok (some blockKey) ∧
        StoredInTriedb p.triedbEnv blockKey block) ∨
      ∃ archiveReader n, p.archiveReader = some archiveReader ∧
        Serves p.triedbEnv archiveReader.archive n r ∧
        InArchive archiveReader.archive n block := by
    intro hnone
    rcases hhas with ⟨b, hb⟩ | ⟨blockKey, hkey, hstored⟩ | ⟨archiveReader, n, hreader, hserves, hin⟩
    · cases hnone.symm.trans hb
    · exact Or.inl ⟨blockKey, hkey, hstored⟩
    · exact Or.inr ⟨archiveReader, n, hreader, hserves, hin⟩
  have hbuffered : ∀ b, (p.buffer.bind fun view =>
      (view.resolveBlockHeight r).bind view.maps.getBlockByHeight) = some b →
      ofBuffered b = rpcBlock block true := by
    intro b hb
    obtain ⟨view, hview, hb⟩ := Option.bind_eq_some_iff.mp hb
    obtain ⟨height, hheight, hb⟩ := Option.bind_eq_some_iff.mp hb
    exact (h.buffer view hview height b hheight hb).ofBuffered_eq
  constructor
  · rw [getBlockHeader]
    cases hb : p.buffer.bind fun view =>
        (view.resolveBlockHeight r).bind view.maps.getBlockByHeight with
    | some b =>
      simp only [hbuffered b hb]
      rfl
    | none =>
      obtain ⟨header, hread, rfl⟩ := tryResolveAndThen_eq reads_getBlockHeader h (hrest hb)
      simp only [hread, orDataSource, ok_bind]
      rfl
  · intro returnFullTxns
    rw [getBlock]
    cases hb : p.buffer.bind fun view =>
        (view.resolveBlockHeight r).bind view.maps.getBlockByHeight with
    | some b =>
      simp only [hbuffered b hb]
      cases returnFullTxns with
      | true => rfl
      | false =>
        rw [if_neg Bool.false_ne_true]
        refine congrArg Except.ok ?_
        simp only [rpcBlock, parseBlockContent, parseTransactions, if_pos,
          BlockTransactions.intoHashes, List.map_map, Function.comp_def, parseTxContent,
          if_neg Bool.false_ne_true, RpcBlock.mk.injEq, BlockTransactions.hashes.injEq, true_and,
          and_true]
        exact (List.map_map (g := fun tx : alloy.Tx => alloy.txHash tx.tx)).symm.trans
          (congrArg _ (List.zipIdx_map_fst 0 block.transactions))
    | none =>
      obtain ⟨data, hread, hdata⟩ := tryResolveAndThen_eq reads_getBlock h (hrest hb)
      simp only [hread, orDataSource, ok_bind, hdata.parseBlockContent_eq]
      rfl
  · rintro ⟨key, hkey⟩ index
    rw [transactions_getElem, getTransactionWithBlockAndIndex]
    cases htx : p.buffer.bind fun view => (view.resolveBlockHeight r).bind fun height =>
        view.maps.getTransactionByLocation height index.toNat with
    | some tx =>
      obtain ⟨view, hview, htx⟩ := Option.bind_eq_some_iff.mp htx
      obtain ⟨height, hheight, htx⟩ := Option.bind_eq_some_iff.mp htx
      obtain ⟨b, hb, -⟩ := Option.bind_eq_some_iff.mp htx
      have heq := getTransactionByLocation_eq index hb (h.buffer view hview height b hheight hb)
      rw [← heq, htx]
      rfl
    | none =>
      refine getTransactionByKey_eq index h hkey ?_
      cases hb : p.buffer.bind fun view =>
          (view.resolveBlockHeight r).bind view.maps.getBlockByHeight with
      | none => exact Or.inr (hrest hb)
      | some b =>
        obtain ⟨view, hview, hb⟩ := Option.bind_eq_some_iff.mp hb
        obtain ⟨height, hheight, hb⟩ := Option.bind_eq_some_iff.mp hb
        have heq := getTransactionByLocation_eq index hb (h.buffer view hview height b hheight hb)
        refine Or.inl (heq.symm.trans ?_)
        rw [hview, Option.bind_some, hheight, Option.bind_some] at htx
        exact htx

/-- An instance to evaluate on. -/
def BlockAlloy.sample : BlockAlloy where
  toReceiptAlloy := Receipts.ReceiptAlloy.sample
  difficulty := fun _ => 0
  encode2718 := fun tx : UInt64 => toBe 8 tx.toNat

/-- Triedb synchronizes: it has the header of the sample block only. -/
def sampleTriedb : Receipts.Triedb BlockAlloy.sample.toReceiptAlloy :=
  { Receipts.sampleTriedb with
    getTransactions := fun _ => .error "transactions not found"
    getTransaction := fun _ _ => .ok none }

/-- The sample block, as the execution events give it. -/
def sampleBuffered : Buffer.Block (bufferKinds BlockAlloy.sample) :=
  ⟨(@rpcBlock BlockAlloy.sample Archive.sampleBlock true).header,
    (@rpcBlock BlockAlloy.sample Archive.sampleBlock true).transactions.intoTransactions⟩

/-- It is in the buffer. -/
def sampleView : BlockBufferView BlockAlloy.sample :=
  ⟨Buffer.Maps.empty.write (.putBlock 1 sampleBuffered), 1, 1, 1⟩

/-- The archive has all of it. -/
def sampleProvider (buffer : Option (BlockBufferView BlockAlloy.sample)) :
    DataProvider BlockAlloy.sample where
  buffer := buffer
  triedbEnv := sampleTriedb
  archiveReader := some ⟨⟨fun _ => none, archiveAll (fun _ => none) Archive.sampleBlock
    indexedReceipts [[1, 2], []] .noClobber⟩, .ok (some 1)⟩

theorem inArchive_sample : @InArchive BlockAlloy.sample (archiveAll (fun _ => none)
    Archive.sampleBlock indexedReceipts [[1, 2], []] .noClobber) 1 Archive.sampleBlock := by
  have hholds : Archive.Holds (archiveAll (fun _ => none) Archive.sampleBlock indexedReceipts
      [[1, 2], []] .noClobber) 1 (.marked (.v1 Archive.sampleBlock))
      (.marked (.v1 indexedReceipts)) [[1, 2], []] :=
    holds_archiveAll indexedReceipts [[1, 2], []] fun _ => ⟨rfl, rfl, rfl⟩
  exact ⟨.marked (.v1 Archive.sampleBlock), Receipts.archivedBlock Archive.sampleBlock,
    hholds.block, by decide, rfl, rfl, rfl⟩

theorem filledIn_sample : @FilledIn BlockAlloy.sample sampleBuffered Archive.sampleBlock :=
  ⟨rfl, rfl, rfl, rfl, rfl⟩

theorem getBlockByHeight_sample {height : UInt64} {b : Buffer.Block (bufferKinds BlockAlloy.sample)}
    (h : sampleView.maps.getBlockByHeight height = some b) : b = sampleBuffered := by
  rcases eq_or_ne height 1 with rfl | hne
  · exact (Option.some.inj h).symm
  · have hnone : sampleView.maps.getBlockByHeight height = none := Function.update_of_ne hne _ _
    cases hnone.symm.trans h

theorem sources_sample {buffer : Option (BlockBufferView BlockAlloy.sample)}
    (hbuffer : ∀ view ∈ buffer, view = sampleView) (tag : BlockTags)
    (htag : ∀ n, tag ≠ .number n) :
    Sources (sampleProvider buffer) (.blockTags tag) Archive.sampleBlock where
  hash _ h := nomatch h
  buffer view hview height b _ hb := by
    obtain rfl := hbuffer view hview
    rw [getBlockByHeight_sample hb]
    exact filledIn_sample
  resolves := ⟨_, rfl⟩
  triedb _ _ := Or.inr (Or.inl ⟨rfl, ⟨_, rfl⟩, fun _ => rfl⟩)
  numbers _ _ _ h := nomatch h
  archive archiveReader hreader n hasked := by
    obtain rfl := Option.some.inj hreader
    have hone : n = 1 := by
      cases hasked with
      | key h =>
        match tag, htag with
        | .number m, htag => exact absurd rfl (htag m)
        | .latest, _ | .safe, _ | .finalized, _ => cases h; rfl
      | number h => exact absurd rfl (htag _)
    rw [hone]
    exact Or.inr inArchive_sample

theorem has_sample : Has (sampleProvider none) (.blockTags .latest) Archive.sampleBlock :=
  .archive _ 1 rfl (Or.inl rfl) inArchive_sample

theorem hasBuffered_sample :
    Has (sampleProvider (some sampleView)) (.blockTags .latest) Archive.sampleBlock :=
  .buffer sampleBuffered rfl

/-- The header comes from triedb, and the block from the archive; or both come from the buffer. -/
theorem blocks_agree_sample :
    Agree (sampleProvider none) (.blockTags .latest) Archive.sampleBlock ∧
      Agree (sampleProvider (some sampleView)) (.blockTags .latest) Archive.sampleBlock :=
  ⟨blocks_agree (sources_sample (fun _ h => by cases h) .latest fun _ => nofun) has_sample,
    blocks_agree (sources_sample (fun _ h => (Option.some.inj h).symm) .latest fun _ => nofun)
      hasBuffered_sample⟩

end Answers

/-! ### A transaction by its hash -/

section ByHash

variable {block : alloy.Block} {p : DataProvider alloy} {index : UInt64} {tx : alloy.Tx}

/-- The transaction at a place of a block, as it is returned. -/
def transactionAt (block : alloy.Block) (tx : alloy.Tx) (index : UInt64) : Transaction alloy :=
  parseTxContent (alloy.hashSlow block.header) (alloy.number block.header)
    (alloy.timestamp block.header) (alloy.baseFeePerGas block.header) tx index

/-- **The sources that know a transaction know it at this place**, and none of them fails. -/
structure Locates (p : DataProvider alloy) (block : alloy.Block) (tx : alloy.Tx)
    (index : UInt64) : Prop where
  place : block.transactions[index.toNat]? = some tx
  buffer : ∀ view ∈ p.buffer, ∀ location receipt,
    view.maps.txByHash (alloy.txHash tx.tx) = some (location, receipt) →
      location.txIdx = index.toNat ∧
      ∀ b, view.maps.getBlockByHeight location.blockHeight = some b → FilledIn b block
  triedb : p.triedbEnv.getTransactionLocationByHash p.triedbEnv.getLatestProposedBlockKey
        (alloy.txHash tx.tx) = .ok none ∨
    ∃ n blockKey, p.triedbEnv.getTransactionLocationByHash p.triedbEnv.getLatestProposedBlockKey
        (alloy.txHash tx.tx) = .ok (some ⟨index, n⟩) ∧
      p.triedbEnv.getBlockKey n = some blockKey ∧ InTriedb p.triedbEnv blockKey block
  index : ∀ archiveReader ∈ p.archiveReader,
    archiveReader.index (alloy.txHash tx.tx) = none ∨ ∃ trace receipt gasUsed,
      Archive.Reads archiveReader.index archiveReader.archive (alloy.txHash tx.tx)
        ⟨tx, trace, receipt, headerAt block.header index.toNat gasUsed⟩

/-- A source knows the transaction. -/
inductive Located (p : DataProvider alloy) (block : alloy.Block) (tx : alloy.Tx) (index : UInt64) :
    Prop
  | buffer (found : Transaction alloy)
    (h : p.buffer.bind (·.maps.getTransactionByHash (alloy.txHash tx.tx)) = some found)
  | triedb (n : UInt64) (blockKey : BlockKey)
    (hlocation : p.triedbEnv.getTransactionLocationByHash p.triedbEnv.getLatestProposedBlockKey
      (alloy.txHash tx.tx) = .ok (some ⟨index, n⟩))
    (hkey : p.triedbEnv.getBlockKey n = some blockKey)
    (h : StoredInTriedb p.triedbEnv blockKey block)
  | index (archiveReader : ArchiveReader) (hreader : p.archiveReader = some archiveReader)
    (h : archiveReader.index (alloy.txHash tx.tx) ≠ none)

theorem transactionOfBlock_eq (h : block.transactions[index.toNat]? = some tx) :
    transactionOfBlock (alloy.hashSlow block.header) index block =
      some (transactionAt block tx index) := by
  rw [transactionOfBlock, h]
  rfl

/-- The transaction from the buffer. -/
theorem Locates.getTransactionByHash_eq (h : Locates p block tx index)
    {view : BlockBufferView alloy} (hview : view ∈ p.buffer) {found : Transaction alloy}
    (hfound : view.maps.getTransactionByHash (alloy.txHash tx.tx) = some found) :
    found = transactionAt block tx index := by
  obtain ⟨⟨location, receipt⟩, hlocation, hfound⟩ := Option.bind_eq_some_iff.mp hfound
  obtain ⟨hidx, hblock⟩ := h.buffer view hview location receipt hlocation
  obtain ⟨b, hb, -⟩ := Option.bind_eq_some_iff.mp hfound
  have hget := getTransactionByLocation_eq index hb (hblock b hb)
  rw [transactionOfBlock_eq h.place, ← hidx] at hget
  exact Option.some.inj (hfound.symm.trans hget)

/-- The transaction from the index. -/
theorem getTransactionFromIndex_eq {archiveReader : ArchiveReader} {trace : Bytes}
    {receipt : alloy.Receipt} {gasUsed : UInt64}
    (h : Archive.Reads archiveReader.index archiveReader.archive (alloy.txHash tx.tx)
      ⟨tx, trace, receipt, headerAt block.header index.toNat gasUsed⟩) :
    getTransactionFromIndex archiveReader (alloy.txHash tx.tx) =
      .ok (some (transactionAt block tx index)) := by
  simp only [getTransactionFromIndex, h.tx, orFault, ok_bind, headerAt, UInt64.ofNat_toNat]
  rfl

/-- Triedb has the transaction where it says that it is. -/
theorem getTransactionByLocation_of_stored {n : UInt64} {blockKey : BlockKey}
    (hplace : block.transactions[index.toNat]? = some tx)
    (hlocation : p.triedbEnv.getTransactionLocationByHash p.triedbEnv.getLatestProposedBlockKey
      (alloy.txHash tx.tx) = .ok (some ⟨index, n⟩))
    (hkey : p.triedbEnv.getBlockKey n = some blockKey)
    (h : StoredInTriedb p.triedbEnv blockKey block) :
    getTransactionByLocation p (alloy.txHash tx.tx) =
      .ok (some (transactionAt block tx index)) := by
  simp only [getTransactionByLocation, hlocation, orMessage, ok_bind, hkey,
    getTransactionFromTriedb_eq index h, transactionOfBlock_eq hplace]

/-- What triedb has of the transaction, if anything, is this. -/
theorem Locates.getTransactionByLocation_or (h : Locates p block tx index) :
    getTransactionByLocation p (alloy.txHash tx.tx) = .ok none ∨
      getTransactionByLocation p (alloy.txHash tx.tx) =
        .ok (some (transactionAt block tx index)) := by
  rcases h.triedb with hnone | ⟨n, blockKey, hlocation, hkey, hin⟩
  · left
    simp only [getTransactionByLocation, hnone, orMessage, ok_bind]
    rfl
  · rcases hin with hstored | hless
    · exact Or.inr (getTransactionByLocation_of_stored h.place hlocation hkey hstored)
    · left
      simp only [getTransactionByLocation, hlocation, orMessage, ok_bind, hkey,
        getTransactionFromTriedb_none index hless]

/-- **A transaction is returned with its place, whichever source knows it**, and its raw form is
the transaction itself. -/
theorem transaction_agrees (h : Locates p block tx index) (hlocated : Located p block tx index) :
    getTransaction p (alloy.txHash tx.tx) = .ok (transactionAt block tx index) ∧
      getRawTransaction p (alloy.txHash tx.tx) =
        .ok (encodeBytes (alloy.encode2718 tx.tx)) := by
  have hget : getTransaction p (alloy.txHash tx.tx) = .ok (transactionAt block tx index) := by
    rw [getTransaction]
    cases hb : p.buffer.bind (·.maps.getTransactionByHash (alloy.txHash tx.tx)) with
    | some found =>
      obtain ⟨view, hview, hfound⟩ := Option.bind_eq_some_iff.mp hb
      exact congrArg Except.ok (h.getTransactionByHash_eq hview hfound)
    | none =>
      rcases h.getTransactionByLocation_or with hnone | hsome
      · rcases hlocated with ⟨found, hfound⟩ | ⟨n, blockKey, hlocation, hkey, hstored⟩ |
          ⟨archiveReader, hreader, hne⟩
        · cases hb.symm.trans hfound
        · cases hnone.symm.trans
            (getTransactionByLocation_of_stored h.place hlocation hkey hstored)
        · rcases h.index archiveReader hreader with habsent | ⟨trace, receipt, gasUsed, hreads⟩
          · exact absurd habsent hne
          · simp only [hnone, ok_bind, hreader, getTransactionFromIndex_eq hreads]
            rfl
      · rw [hsome]
        rfl
  refine ⟨hget, ?_⟩
  rw [getRawTransaction, hget]
  rfl

theorem length_sampleSender : (toBe 20 8).length = 20 := length_toBe 20 8

theorem length_sampleBloom : (toBe 256 0).length = 256 := length_toBe 256 0

def sampleSender : Address := ⟨toBe 20 8, length_sampleSender⟩

/-- The second transaction of the sample block. -/
def sampleTx : BlockAlloy.sample.Tx := ⟨sampleSender, (5 : UInt64)⟩

def sampleReceipt : Receipts.TransactionReceipt where
  inner := ⟨.legacy, ⟨true, 42000, [], ⟨toBe 256 0, length_sampleBloom⟩⟩⟩
  transactionHash := BlockAlloy.sample.txHash sampleTx.tx
  transactionIndex := some 1
  blockHash := none
  blockNumber := some 1
  sender := sampleSender
  dest := none
  contractAddress := none
  gasUsed := 21000
  effectiveGasPrice := 0
  blobGasUsed := none
  blobGasPrice := none

/-- The buffer knows where it is. -/
def sampleTxView : BlockBufferView BlockAlloy.sample :=
  { sampleView with
    maps := sampleView.maps.write
      (.putTx (BlockAlloy.sample.txHash sampleTx.tx) ⟨1, 1⟩ sampleReceipt) }

theorem txByHash_sample : sampleTxView.maps.txByHash (BlockAlloy.sample.txHash sampleTx.tx) =
    some (⟨1, 1⟩, sampleReceipt) :=
  Function.update_self (BlockAlloy.sample.txHash sampleTx.tx) _ sampleView.maps.txByHash

theorem getTransactionByHash_sample :
    sampleTxView.maps.getTransactionByHash (BlockAlloy.sample.txHash sampleTx.tx) =
      some (transactionAt Archive.sampleBlock sampleTx 1) := by
  rw [Buffer.Maps.getTransactionByHash, txByHash_sample]
  rfl

/-- Triedb knows where the second transaction is, or the buffer does. -/
theorem transaction_agrees_sample :
    let p : DataProvider BlockAlloy.sample := ⟨none, { Receipts.sampleTriedb with
      getTransactionLocationByHash := fun _ _ => .ok (some ⟨1, 1⟩) }, none⟩
    let q : DataProvider BlockAlloy.sample := ⟨some sampleTxView, { Receipts.sampleTriedb with
      getTransactionLocationByHash := fun _ _ => .ok none }, none⟩
    (getTransaction p (BlockAlloy.sample.txHash sampleTx.tx) =
        .ok (transactionAt Archive.sampleBlock sampleTx 1) ∧
      getRawTransaction p (BlockAlloy.sample.txHash sampleTx.tx) =
        .ok (encodeBytes (BlockAlloy.sample.encode2718 sampleTx.tx))) ∧
    (getTransaction q (BlockAlloy.sample.txHash sampleTx.tx) =
        .ok (transactionAt Archive.sampleBlock sampleTx 1) ∧
      getRawTransaction q (BlockAlloy.sample.txHash sampleTx.tx) =
        .ok (encodeBytes (BlockAlloy.sample.encode2718 sampleTx.tx))) := by
  intro p q
  have hstored : StoredInTriedb p.triedbEnv (.finalized 1) Archive.sampleBlock :=
    ⟨rfl, rfl, fun _ => rfl⟩
  have hbuffer : ∀ view ∈ q.buffer, ∀ location receipt,
      view.maps.txByHash (BlockAlloy.sample.txHash sampleTx.tx) = some (location, receipt) →
        location.txIdx = (1 : UInt64).toNat ∧
        ∀ b, view.maps.getBlockByHeight location.blockHeight = some b →
          FilledIn b Archive.sampleBlock := by
    intro view hview location receipt hlocation
    obtain rfl := Option.some.inj hview
    obtain ⟨rfl, -⟩ := Prod.mk.inj (Option.some.inj (txByHash_sample.symm.trans hlocation))
    refine ⟨rfl, fun b hb => ?_⟩
    replace hb : sampleView.maps.getBlockByHeight 1 = some b := hb
    rw [getBlockByHeight_sample hb]
    exact filledIn_sample
  exact ⟨transaction_agrees ⟨rfl, nofun, Or.inr ⟨1, .finalized 1, rfl, rfl, Or.inl hstored⟩, nofun⟩
    (.triedb 1 (.finalized 1) rfl rfl hstored),
    transaction_agrees ⟨rfl, hbuffer, Or.inl rfl, nofun⟩ (.buffer _ getTransactionByHash_sample)⟩

end ByHash

/-! ### The size of a block -/

section Size

variable {block : alloy.Block} {p : DataProvider alloy} {tag : BlockTags} {maxResponseSize : ℕ}

/-- The block without what the senders add, with no ommers and no withdrawals. -/
def plainBlock (block : alloy.Block) : alloy.BlockV0 :=
  ⟨block.header, block.transactions.map fun tx => tx.tx, [], none⟩

/-- **The size of a block is the length of its coding.** -/
theorem calculateBlockSize_eq (h : (alloy.blockV0.encode (plainBlock block)).length < 2 ^ 64) :
    calculateBlockSize block.header block.transactions =
      (alloy.blockV0.encode (plainBlock block)).length := by
  have hcode : alloy.blockV0.encode (plainBlock block) =
      Rlp.encode (.list [alloy.header.toRlp block.header,
        .list ((block.transactions.map fun tx => tx.tx).map alloy.txEnvelope.toRlp), .list []]) :=
    rfl
  have htxs : (Rlp.encodeAll ((block.transactions.map fun tx => tx.tx).map
      alloy.txEnvelope.toRlp)).length = txsPayloadLen block.transactions := by
    rw [RlpCodec.length_encodeAll_map, List.map_map]
    rfl
  have hempty : (Rlp.encode (.list [])).length = ommersListLen := by
    rw [Rlp.encode_list]
    rfl
  rw [hcode] at h ⊢
  have hall : (Rlp.encodeAll [alloy.header.toRlp block.header,
      .list ((block.transactions.map fun tx => tx.tx).map alloy.txEnvelope.toRlp),
      .list []]).length = blockPayloadLen block.header block.transactions := by
    have hlt := (Rlp.length_encodeAll_lt _).trans h
    rw [Rlp.encodeAll_cons, Rlp.encodeAll_cons, Rlp.encodeAll_cons, Rlp.encodeAll_nil,
      List.append_nil, List.length_append, List.length_append, hempty] at hlt ⊢
    have htxs64 := Rlp.length_encodeAll_lt
      ((block.transactions.map fun tx => tx.tx).map alloy.txEnvelope.toRlp)
    rw [Rlp.length_encode_list_eq (by omega), htxs, blockPayloadLen]
    exact (Nat.add_assoc _ _ _).symm
  rw [Rlp.length_encode_list_eq ((Rlp.length_encodeAll_lt _).trans h), hall, calculateBlockSize]

/-- The loop stops if and only if the transactions are too long. -/
theorem checkTxsSize_eq {size : ℕ} (txs : List alloy.Tx) (h : size ≤ maxResponseSize) :
    checkTxsSize maxResponseSize size txs =
      if maxResponseSize < size + 2 * txsPayloadLen txs then .error .maxResponseSizeExceeded
      else .ok () := by
  induction txs generalizing size with
  | nil =>
    have hle : ¬maxResponseSize < size + 2 * @txsPayloadLen alloy [] := Nat.not_lt.mpr h
    rw [checkTxsSize, if_neg hle]
  | cons tx txs ih =>
    have hsum : txsPayloadLen (tx :: txs) =
        (alloy.txEnvelope.encode tx.tx).length + txsPayloadLen txs := List.sum_cons
    rw [checkTxsSize]
    by_cases hlt : maxResponseSize < size + 2 * (alloy.txEnvelope.encode tx.tx).length
    · rw [if_pos hlt, if_pos (by omega)]
    · rw [if_neg hlt, ih (by omega), hsum]
      exact if_congr (by omega) rfl rfl

/-- **The raw block is the block that is asked for**, or the answer is that it is too long: twice
the length of its transactions is compared with the limit. The raw header is its header, and the
size that goes with the block is the length of its raw form. -/
theorem rawBlock (h : Sources p (.blockTags tag) block) (hhas : Has p (.blockTags tag) block)
    (h64 : (alloy.blockV0.encode (plainBlock block)).length < 2 ^ 64) :
    (2 * txsPayloadLen block.transactions ≤ maxResponseSize → ∃ raw response,
      getRawBlock p tag maxResponseSize = .ok response ∧
      Ethhex.decodeBytes response = .ok raw ∧
      alloy.blockV0.decode raw = some (plainBlock block) ∧
      ∀ returnFullTxns, ∃ b, getBlock p (.blockTags tag) returnFullTxns = .ok b ∧
        b.header.size = some (BitVec.ofNat 256 raw.length)) ∧
    (maxResponseSize < 2 * txsPayloadLen block.transactions →
      getRawBlock p tag maxResponseSize = .error (.error .maxResponseSizeExceeded)) ∧
    getRawHeader p tag = .ok (encodeBytes (alloy.header.encode block.header)) := by
  have hagree := blocks_agree h hhas
  have hinner : (rpcBlock block true).transactions.intoTransactions.map (fun tx => tx.inner) =
      block.transactions := by
    simp only [rpcBlock, parseBlockContent, parseTransactions, if_pos,
      BlockTransactions.intoTransactions, List.map_map]
    exact List.zipIdx_map_fst 0 block.transactions
  have hraw : getRawBlock p tag maxResponseSize =
      (orError (if maxResponseSize < 2 * txsPayloadLen block.transactions then
        .error .maxResponseSizeExceeded else .ok ())).map
          fun () => encodeBytes (alloy.blockV0.encode (plainBlock block)) := by
    simp only [getRawBlock, hagree.blocks true, orNoData, ok_bind, hinner,
      checkTxsSize_eq block.transactions (Nat.zero_le maxResponseSize), Nat.zero_add]
    rfl
  refine ⟨fun hle => ?_, fun hlt => ?_, ?_⟩
  · refine ⟨_, _, ?_, Ethhex.decodeBytes_encodeBytes _, alloy.blockV0.decode_encode_self _ h64,
      fun returnFullTxns => ⟨_, hagree.blocks returnFullTxns, ?_⟩⟩
    · rw [hraw, if_neg (Nat.not_lt.mpr hle)]
      rfl
    · rw [← calculateBlockSize_eq h64]
      rfl
  · rw [hraw, if_pos hlt]
    rfl
  · rw [getRawHeader, hagree.header]
    rfl

/-- The raw form of the sample block from the buffer, with a limit of the response that is just
enough, and from the archive. -/
theorem rawBlock_sample :
    (∃ raw response, getRawBlock (sampleProvider (some sampleView)) .latest 8 = .ok response ∧
      Ethhex.decodeBytes response = .ok raw ∧
      BlockAlloy.sample.blockV0.decode raw = some (plainBlock Archive.sampleBlock) ∧
      ∀ returnFullTxns, ∃ b, getBlock (sampleProvider (some sampleView)) (.blockTags .latest)
          returnFullTxns = .ok b ∧
        b.header.size = some (BitVec.ofNat 256 raw.length)) ∧
      getRawBlock (sampleProvider none) .latest 7 = .error (.error .maxResponseSizeExceeded) :=
  ⟨(rawBlock (sources_sample (fun _ h => (Option.some.inj h).symm) .latest fun _ => nofun)
      hasBuffered_sample (by decide)).1 (by decide),
    (rawBlock (sources_sample (fun _ h => by cases h) .latest fun _ => nofun) has_sample
      (by decide)).2.1 (by decide)⟩

end Size

end Blocks

end Rpc

end MonadServices
