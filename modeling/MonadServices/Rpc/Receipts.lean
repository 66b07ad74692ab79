import MonadServices.Archive.TxIndex
import MonadServices.Lib.Checked
import MonadServices.Lib.Decimal
import MonadServices.Rpc.BlockReference
import MonadServices.Rpc.CallRequest
import MonadServices.Rpc.GetLogsAtHash

/-!
# Receipts of transactions

The receipt of a transaction is put together from what is stored of its block, and this in four
ways: from the header, the transaction and two receipts that triedb is asked for one by one; from
the record of the transaction in the index of the archive; and, for all transactions of a block at
once, from the lists of triedb or of the archive. What a transaction used of gas is the difference
of two cumulative numbers. It is computed from a receipt that is read for it, or taken from the
record where the indexer stored it, or computed while the receipts of the block are walked.

**All four ways give the same receipt**, at every place of the block
(`MonadServices.Rpc.Receipts.paths_agree`), and so do the requests that choose among them
(`MonadServices.Rpc.Receipts.getTransactionReceipt_eq`,
`MonadServices.Rpc.Receipts.getBlockReceipts_eq`).
-/

namespace MonadServices

namespace Rpc

namespace Receipts

open Archive

/-! ### Receipts -/

inductive ReceiptType where
  | legacy
  | eip2930
  | eip1559
  | eip4844
  | eip7702
  deriving DecidableEq

/-- What is read of transactions and of receipts, besides what the archive reads. -/
structure ReceiptAlloy extends Alloy where
  kind : TxEnvelope → TxKind
  nonce : TxEnvelope → UInt64
  effectiveGasPrice : TxEnvelope → Option UInt64 → BitVec 128
  receiptType : ReceiptEnvelope → ReceiptType
  status : ReceiptEnvelope → Bool
  logsBloom : ReceiptEnvelope → FixedBytes 256
  /-- The address of the contract that a sender creates with a nonce. -/
  create : Address → UInt64 → Address

/-- `Transaction::to`. -/
def toAddress : TxKind → Option Address
  | .create => none
  | .call dest => some dest

/-- A receipt whose logs tell where they are. -/
structure ReceiptWithBloom where
  status : Bool
  cumulativeGasUsed : UInt64
  logs : List AlloyLog
  logsBloom : FixedBytes 256

structure ReceiptEnvelope where
  receiptType : ReceiptType
  receiptWithBloom : ReceiptWithBloom

/-- **The receipt that is returned.** -/
structure TransactionReceipt where
  inner : ReceiptEnvelope
  transactionHash : B256
  transactionIndex : Option UInt64
  blockHash : Option B256
  blockNumber : Option UInt64
  sender : Address
  dest : Option Address
  contractAddress : Option Address
  gasUsed : UInt64
  effectiveGasPrice : BitVec 128
  blobGasUsed : Option UInt64
  blobGasPrice : Option (BitVec 128)

structure MonadTransactionReceipt where
  receipt : TransactionReceipt

/-- Why a read fails. -/
inductive ChainStateError where
  | triedb (message : String)
  | archive (message : String)
  | resourceNotFound
  deriving DecidableEq

variable {alloy : ReceiptAlloy} {ε R : Type} (overflowChecks : Bool)

section Parse

/-- The logs of a receipt with their places. The first one has the index `startingLogIndex` in the
block. -/
def parseLogs (blockHash : B256) (blockNumber blockTimestamp txIndex : UInt64) (txHash : B256)
    (startingLogIndex : UInt64) (logs : List Log) : Except (Halt ε) (List AlloyLog) :=
  logs.zipIdx.mapM fun x => do
    let logIndex ← addU64 overflowChecks startingLogIndex (UInt64.ofNat x.2)
    return {
      inner := x.1
      blockHash := some blockHash
      blockNumber := some blockNumber
      blockTimestamp := some blockTimestamp
      transactionHash := some txHash
      transactionIndex := some txIndex
      logIndex := some logIndex
      removed := false }

/-- The type of the receipt that is returned. -/
def parseReceiptType : ReceiptType → ReceiptType
  | .legacy => .legacy
  | .eip2930 => .eip2930
  | .eip1559 => .eip1559
  | .eip7702 => .eip7702
  | .eip4844 => .eip1559

def parseReceiptEnvelope (blockHash : B256) (blockNumber blockTimestamp txIndex : UInt64)
    (txHash : B256) (receipt : alloy.Receipt) : Except (Halt ε) ReceiptEnvelope := do
  let logs ← parseLogs overflowChecks blockHash blockNumber blockTimestamp txIndex txHash
    receipt.startingLogIndex (alloy.logs receipt.receipt)
  return ⟨parseReceiptType (alloy.receiptType receipt.receipt), alloy.status receipt.receipt,
    alloy.cumulativeGasUsed receipt.receipt, logs, alloy.logsBloom receipt.receipt⟩

/-- The address of the contract that a transaction creates. -/
def contractAddress (tx : alloy.Tx) : Option Address :=
  match alloy.kind tx.tx with
  | .create => some (alloy.create tx.sender (alloy.nonce tx.tx))
  | .call _ => none

def parseTxReceipt (blockHash : B256) (blockNumber blockTimestamp : UInt64)
    (blockBaseFeePerGas : Option UInt64) (txIndex : UInt64) (tx : alloy.Tx)
    (receipt : alloy.Receipt) (gasUsed : UInt64) : Except (Halt ε) TransactionReceipt := do
  let inner ← parseReceiptEnvelope overflowChecks blockHash blockNumber blockTimestamp txIndex
    (alloy.txHash tx.tx) receipt
  return {
    inner := inner
    transactionHash := alloy.txHash tx.tx
    transactionIndex := some txIndex
    blockHash := some blockHash
    blockNumber := some blockNumber
    sender := tx.sender
    dest := toAddress (alloy.kind tx.tx)
    contractAddress := contractAddress tx
    gasUsed := gasUsed
    effectiveGasPrice := alloy.effectiveGasPrice tx.tx blockBaseFeePerGas
    blobGasUsed := none
    blobGasPrice := none }

/-- The receipts from `txIndex` on; `cumulativeGasUsed` is what was used before. -/
def mapReceiptsFrom (blockHeader : alloy.Header) (blockHash : B256) (f : TransactionReceipt → R) :
    ℕ → UInt64 → List (alloy.Tx × alloy.Receipt) → Except (Halt ε) (List R)
  | _, _, [] => .ok []
  | txIndex, cumulativeGasUsed, (tx, receipt) :: rest => do
    let txGasUsed ← MonadServices.subU64 overflowChecks (alloy.cumulativeGasUsed receipt.receipt)
      cumulativeGasUsed
    let parsedReceipt ← parseTxReceipt overflowChecks blockHash (alloy.number blockHeader)
      (alloy.timestamp blockHeader) (alloy.baseFeePerGas blockHeader) (UInt64.ofNat txIndex) tx
      receipt txGasUsed
    let receipts ← mapReceiptsFrom blockHeader blockHash f (txIndex + 1)
      (alloy.cumulativeGasUsed receipt.receipt) rest
    return f parsedReceipt :: receipts

/-- **The receipts of a block.** -/
def mapBlockReceipts (transactions : List alloy.Tx) (receipts : List alloy.Receipt)
    (blockHeader : alloy.Header) (blockHash : B256) (f : TransactionReceipt → R) :
    Except (Halt Jsonrpc.JsonRpcError) (List R) :=
  if transactions.length ≠ receipts.length then
    .error (.error (.internalError "number of receipts and txs mismatch"))
  else mapReceiptsFrom overflowChecks blockHeader blockHash f 0 0 (transactions.zip receipts)

end Parse

/-! ### The sources -/

/-- Where a transaction is. -/
structure TransactionLocation where
  txIndex : UInt64
  blockNum : UInt64

/-- **What triedb answers.** -/
structure Triedb (alloy : ReceiptAlloy) extends Rpc.Triedb alloy.toAlloy where
  getLatestVotedBlockKey : BlockKey
  /-- The number in the key. -/
  getLatestFinalizedBlockKey : UInt64
  getTransaction : BlockKey → UInt64 → Except String (Option alloy.Tx)
  getReceipt : BlockKey → UInt64 → Except String (Option alloy.Receipt)
  getTransactionLocationByHash : BlockKey → B256 → Except String (Option TransactionLocation)

/-- The archive, by its store and that of the index. -/
structure ArchiveReader where
  index : B256 → Option Bytes
  archive : ArchiveKey → Option Bytes

/-- What the block buffer stores. -/
def bufferKinds (alloy : ReceiptAlloy) : Buffer.Kinds where
  Header := BlockHeader alloy.toAlloy
  Tx := alloy.Tx
  Receipt := TransactionReceipt
  number header := alloy.number header.header
  hash header := header.hash
  txHash tx := alloy.txHash tx.tx
  transactionHash r := r.transactionHash

/-- `BlockBufferView`. -/
structure BlockBufferView (alloy : ReceiptAlloy) where
  maps : Buffer.Maps (bufferKinds alloy)
  getLatestProposedBlockNum : UInt64
  getLatestVotedBlockNum : UInt64
  getLatestFinalizedBlockNum : UInt64

/-- **All sources together.** -/
structure DataProvider (alloy : ReceiptAlloy) where
  buffer : Option (BlockBufferView alloy)
  triedbEnv : Triedb alloy
  archiveReader : Option ArchiveReader

abbrev Result (α : Type) := Except (Halt ChainStateError) α

/-- `map_err(ChainStateError::Triedb)`. -/
def orTriedb {α : Type} : Except String α → Result α
  | .ok a => .ok a
  | .error e => .error (.error (.triedb e))

/-- An error of the archive; where it panics, so does the request. -/
def orArchive {α : Type} : Except Archive.Fault α → Result α
  | .ok a => .ok a
  | .error (.error message) => .error (.error (.archive message))
  | .error .outOfBounds => .error (.panic "index out of bounds")
  | .error .overflow => .error (.panic "attempt to subtract with overflow")
  | .error .outOfFuel => .error (.panic "no result")

/-- `map_err(|_| ChainStateError::ResourceNotFound)`. -/
def orNotFound {α : Type} : Except (Halt Jsonrpc.JsonRpcError) α → Result α
  | .ok a => .ok a
  | .error (.error _) => .error (.error .resourceNotFound)
  | .error (.panic message) => .error (.panic message)

/-! ### Blocks of the archive -/

section Archive

variable (archive : ArchiveKey → Option Bytes)

/-- The number that is stored for a block hash. -/
def tryGetBlockNumberByHash (blockHash : B256) : Except Archive.Fault (Option UInt64) :=
  match archive (.blockHash blockHash) with
  | none => .ok none
  | some blockNumBytes =>
    match String.fromUTF8? ⟨blockNumBytes.toArray⟩ with
    | none => .error (.error "Invalid UTF-8 sequence")
    | some blockNumStr =>
      match parseUnsigned UInt64.size blockNumStr with
      | none => .error (.error
          s!"Unable to convert block_number string to number (u64), value: {blockNumStr}")
      | some n => .ok (some (UInt64.ofNat n))

def tryGetBlockByNumber (blockNum : UInt64) : Except Archive.Fault (Option alloy.Block) :=
  match archive (.block blockNum) with
  | none => .ok none
  | some bytes =>
    (wrapErr s!"Failed to decode block: block_num: {blockNum}"
      (BlockStorageRepr.decodeAndConvert bytes)).map some

def tryGetBlockByHash (blockHash : B256) : Except Archive.Fault (Option alloy.Block) := do
  match ← tryGetBlockNumberByHash archive blockHash with
  | none => return none
  | some blockNum => tryGetBlockByNumber archive blockNum

def tryGetBlockReceipts (blockNumber : UInt64) :
    Except Archive.Fault (Option (List alloy.Receipt)) :=
  match archive (.receipts blockNumber) with
  | none => .ok none
  | some rlpReceipts =>
    (wrapErr s!"Failed to decode block receipts: block_num: {blockNumber}"
      (ReceiptStorageRepr.decodeAndConvert rlpReceipts)).map some

end Archive

/-! ### A transaction -/

section Transaction

/-- What a transaction used of gas, with the receipt before it read for it. -/
def gasUsedFromTriedb (triedbEnv : Triedb alloy) (blockKey : BlockKey) (txIndex : UInt64)
    (receipt : alloy.Receipt) : Result UInt64 :=
  if 0 < txIndex then do
    match ← orTriedb (triedbEnv.getReceipt blockKey (txIndex - 1)) with
    | some prevReceipt =>
      MonadServices.subU64 overflowChecks (alloy.cumulativeGasUsed receipt.receipt)
        (alloy.cumulativeGasUsed prevReceipt.receipt)
    | none => .error (.error (.triedb "error getting receipt"))
  else .ok (alloy.cumulativeGasUsed receipt.receipt)

/-- **The receipt from triedb.** -/
def getReceiptFromTriedb (triedbEnv : Triedb alloy) (blockKey : BlockKey) (txIndex : UInt64) :
    Result (Option TransactionReceipt) := do
  match ← orTriedb (triedbEnv.getBlockHeader blockKey) with
  | none => return none
  | some header =>
    match ← orTriedb (triedbEnv.getTransaction blockKey txIndex) with
    | none => return none
    | some tx =>
      match ← orTriedb (triedbEnv.getReceipt blockKey txIndex) with
      | none => return none
      | some receipt =>
        let gasUsed ← gasUsedFromTriedb overflowChecks triedbEnv blockKey txIndex receipt
        let receipt ← parseTxReceipt overflowChecks header.hash blockKey.seqNum
          (alloy.timestamp header.header) (alloy.baseFeePerGas header.header) txIndex tx receipt
          gasUsed
        return some receipt

/-- **The receipt from the index of the archive.** -/
def getReceiptFromIndex (alloy : ReceiptAlloy) (archiveReader : ArchiveReader) (txHash : B256) :
    Result (Option TransactionReceipt) := do
  let data : Option (TxIndexedData alloy.toAlloy) ← orArchive
    (getTxIndexedData archiveReader.index archiveReader.archive txHash)
  match data with
  | none => return none
  | some data =>
    let receipt ← parseTxReceipt overflowChecks data.headerSubset.blockHash
      data.headerSubset.blockNumber data.headerSubset.blockTimestamp
      data.headerSubset.baseFeePerGas data.headerSubset.txIndex data.tx data.receipt
      data.headerSubset.gasUsed
    return some receipt

variable (p : DataProvider alloy)

/-- The receipt from triedb, if it knows where the transaction is. -/
def getReceiptByLocation (txHash : B256) : Result (Option TransactionReceipt) := do
  let latestBlockKey := p.triedbEnv.getLatestProposedBlockKey
  match ← orTriedb (p.triedbEnv.getTransactionLocationByHash latestBlockKey txHash) with
  | none => return none
  | some location =>
    match p.triedbEnv.getBlockKey location.blockNum with
    | none => .error (.error .resourceNotFound)
    | some blockKey => getReceiptFromTriedb overflowChecks p.triedbEnv blockKey location.txIndex

/-- **`get_transaction_receipt`**: the receipt from the first source that has it. -/
def getTransactionReceipt (txHash : B256) : Result TransactionReceipt :=
  match p.buffer.bind (·.maps.getReceiptByTxHash txHash) with
  | some receipt => .ok receipt
  | none => do
    match ← getReceiptByLocation overflowChecks p txHash with
    | some receipt => return receipt
    | none =>
      match p.archiveReader with
      | none => .error (.error .resourceNotFound)
      | some archiveReader =>
        match ← getReceiptFromIndex overflowChecks alloy archiveReader txHash with
        | some receipt => return receipt
        | none => .error (.error .resourceNotFound)

end Transaction

/-! ### A block -/

section Block

def getBlockKeyFromTag (triedbEnv : Triedb alloy) : BlockTags → Option BlockKey
  | .number n => triedbEnv.getBlockKey n.value
  | .latest => some triedbEnv.getLatestProposedBlockKey
  | .safe => some triedbEnv.getLatestVotedBlockKey
  | .finalized => some (.finalized triedbEnv.getLatestFinalizedBlockKey)

def tryGetBlockKeyFromTagOrHash (triedbEnv : Triedb alloy) :
    BlockTagOrHash → Except ChainStateError (Option BlockKey)
  | .blockTags tag => .ok (getBlockKeyFromTag triedbEnv tag)
  | .hash blockHash =>
    match triedbEnv.getBlockNumberByHash triedbEnv.getLatestProposedBlockKey blockHash.data with
    | .error e => .error (.triedb e)
    | .ok none => .ok none
    | .ok (some blockNumber) =>
      match triedbEnv.getBlockKey blockNumber with
      | none => .error .resourceNotFound
      | some blockKey => .ok (some blockKey)

def getBlockKeyFromTagOrHash (triedbEnv : Triedb alloy) (blockReference : BlockTagOrHash) :
    Option BlockKey :=
  (tryGetBlockKeyFromTagOrHash triedbEnv blockReference).toOption.join

namespace BlockBufferView

variable (view : BlockBufferView alloy)

def resolveBlockHeightFromTag : BlockTags → UInt64
  | .number n => n.value
  | .latest => view.getLatestProposedBlockNum
  | .safe => view.getLatestVotedBlockNum
  | .finalized => view.getLatestFinalizedBlockNum

/-- `resolve_block_height_from_buffer`. -/
def resolveBlockHeight : BlockTagOrHash → Option UInt64
  | .blockTags tag => some (view.resolveBlockHeightFromTag tag)
  | .hash blockHash =>
    (view.maps.getBlockByHash blockHash.data).map fun b => (bufferKinds alloy).number b.header

end BlockBufferView

/-- **The receipts of a block of triedb.** A block of which triedb has only the header is left to
the archive. -/
def getBlockReceiptsFromTriedb (triedbEnv : Triedb alloy) (blockKey : BlockKey) :
    Result (Option (List MonadTransactionReceipt)) := do
  match ← orTriedb (triedbEnv.getBlockHeader blockKey) with
  | none => return none
  | some header =>
    match triedbEnv.getTransactions blockKey, triedbEnv.getReceipts blockKey with
    | .ok transactions, .ok receipts =>
      let receipts ← orNotFound (mapBlockReceipts overflowChecks transactions receipts
        header.header header.hash MonadTransactionReceipt.mk)
      return some receipts
    | _, _ => return none

/-- The block of the archive that is asked for. -/
def getBlockFromArchive (triedbEnv : Triedb alloy) (archive : ArchiveKey → Option Bytes) :
    BlockTagOrHash → Result (Option alloy.Block)
  | .blockTags tag =>
    match getBlockKeyFromTag triedbEnv tag with
    | none => .error (.error .resourceNotFound)
    | some (.finalized blockNum) => orArchive (tryGetBlockByNumber archive blockNum)
    | some (.proposed _ _) => .ok none
  | .hash hash => orArchive (tryGetBlockByHash archive hash.data)

/-- **The receipts of a block of the archive.** -/
def mapArchivedReceipts (archive : ArchiveKey → Option Bytes) (block : alloy.Block) :
    Result (Option (List MonadTransactionReceipt)) := do
  match ← orArchive (tryGetBlockReceipts archive (alloy.number block.header)) with
  | none => return none
  | some receipts =>
    let receipts ← orNotFound (mapBlockReceipts overflowChecks block.transactions receipts
      block.header (alloy.hashSlow block.header) MonadTransactionReceipt.mk)
    return some receipts

variable (p : DataProvider alloy) (block : BlockTagOrHash)

def getBlockReceiptsByKey : Result (Option (List MonadTransactionReceipt)) :=
  match getBlockKeyFromTagOrHash p.triedbEnv block with
  | none => .ok none
  | some blockKey => getBlockReceiptsFromTriedb overflowChecks p.triedbEnv blockKey

def getBlockReceiptsFromArchive (archiveReader : ArchiveReader) :
    Result (Option (List MonadTransactionReceipt)) := do
  match ← getBlockFromArchive p.triedbEnv archiveReader.archive block with
  | none => return none
  | some block => mapArchivedReceipts overflowChecks archiveReader.archive block

/-- **`get_block_receipts`**: the receipts from the first source that has them. -/
def getBlockReceipts : Result (List MonadTransactionReceipt) :=
  match p.buffer.bind fun view =>
      (view.resolveBlockHeight block).bind view.maps.getReceiptsByBlockHeight with
  | some receipts => .ok (receipts.map fun receipt => ⟨receipt⟩)
  | none => do
    match ← getBlockReceiptsByKey overflowChecks p block with
    | some receipts => return receipts
    | none =>
      match p.archiveReader with
      | none => .error (.error .resourceNotFound)
      | some archiveReader =>
        match ← getBlockReceiptsFromArchive overflowChecks p block archiveReader with
        | some receipts => return receipts
        | none => .error (.error .resourceNotFound)

end Block

/-! ### The receipt at a place -/

section Place

variable (block : alloy.Block) (receipts : List alloy.Receipt)

/-- **The receipt of the transaction at a place of a block.** The gas used is the difference of the
cumulative gas to the place before. -/
def receiptAt (i : ℕ) (tx : alloy.Tx) (receipt : alloy.Receipt) :
    Except (Halt ε) TransactionReceipt :=
  parseTxReceipt overflowChecks (alloy.hashSlow block.header) (alloy.number block.header)
    (alloy.timestamp block.header) (alloy.baseFeePerGas block.header) (UInt64.ofNat i) tx receipt
    (alloy.cumulativeGasUsed receipt.receipt - gasBefore 0 receipts i)

/-- The receipts of all places. -/
def receiptsOf (f : TransactionReceipt → R) : Except (Halt ε) (List R) :=
  (block.transactions.zip receipts).zipIdx.mapM fun x =>
    (receiptAt overflowChecks block receipts x.2 x.1.1 x.1.2).map f

variable {overflowChecks block receipts} {f : TransactionReceipt → R} {rs : List R} {i : ℕ}
  {tx : alloy.Tx} {receipt : alloy.Receipt}

/-- A place of the receipts is the receipt at this place. -/
theorem receiptsOf_getElem (h : (receiptsOf overflowChecks block receipts f : Except (Halt ε) _) =
    .ok rs) (hi : block.transactions[i]? = some tx) (hreceipt : receipts[i]? = some receipt) :
    ∃ r, (receiptAt overflowChecks block receipts i tx receipt : Except (Halt ε) _) = .ok r ∧
      rs[i]? = some (f r) := by
  have hitem : (block.transactions.zip receipts).zipIdx[i]? = some ((tx, receipt), i) := by
    have hzip : (block.transactions.zip receipts)[i]? = some (tx, receipt) :=
      List.getElem?_zip_eq_some.mpr ⟨hi, hreceipt⟩
    rw [List.getElem?_zipIdx, hzip, Option.map_some, Nat.zero_add]
  have hall := mapM_eq_ok.mp h
  obtain ⟨hlt, hget⟩ := List.getElem?_eq_some_iff.mp hitem
  have hlt' : i < rs.length := hall.length_eq ▸ hlt
  have hplace := hall.get hlt hlt'
  rw [List.get_eq_getElem, List.get_eq_getElem, hget, map_eq_ok] at hplace
  obtain ⟨r, hr, hf⟩ := hplace
  exact ⟨r, hr, List.getElem?_eq_some_iff.mpr ⟨hlt', hf.symm⟩⟩

end Place

/-! ### The four ways -/

section Ways

variable {overflowChecks} {block : alloy.Block} {receipts : List alloy.Receipt} {i : ℕ}
  {tx : alloy.Tx} {receipt : alloy.Receipt}

/-- The cumulative gas of the receipts does not decrease. -/
abbrev GasChain (receipts : List alloy.Receipt) : Prop :=
  (receipts.map fun r => alloy.cumulativeGasUsed r.receipt).IsChain (· ≤ ·)

theorem gasBefore_le (hgas : GasChain receipts) (h : receipts[i]? = some receipt) :
    gasBefore 0 receipts i ≤ alloy.cumulativeGasUsed receipt.receipt := by
  cases i with
  | zero => exact UInt64.zero_le
  | succ i =>
    obtain ⟨hlt, rfl⟩ := List.getElem?_eq_some_iff.mp h
    have hstep := (List.isChain_map _).mp hgas
    rw [List.isChain_iff_getElem] at hstep
    rw [gasBefore, List.getElem?_eq_getElem (Nat.lt_of_succ_lt hlt)]
    exact hstep i hlt

/-- **A block is stored in triedb** under a key. -/
structure StoredInTriedb (triedbEnv : Triedb alloy) (blockKey : BlockKey) (block : alloy.Block)
    (receipts : List alloy.Receipt) : Prop where
  getBlockHeader : triedbEnv.getBlockHeader blockKey =
    .ok (some ⟨alloy.hashSlow block.header, block.header⟩)
  getTransactions : triedbEnv.getTransactions blockKey = .ok block.transactions
  getReceipts : triedbEnv.getReceipts blockKey = .ok receipts
  getTransaction : ∀ txIndex, triedbEnv.getTransaction blockKey txIndex =
    .ok block.transactions[txIndex.toNat]?
  getReceipt : ∀ txIndex, triedbEnv.getReceipt blockKey txIndex = .ok receipts[txIndex.toNat]?

section Triedb

variable {triedbEnv : Triedb alloy} {blockKey : BlockKey}

/-- The gas is the difference to the receipt before. -/
theorem gasUsedFromTriedb_eq (h : StoredInTriedb triedbEnv blockKey block receipts)
    (hgas : GasChain receipts) (hplace : (UInt64.ofNat i).toNat = i)
    (hreceipt : receipts[i]? = some receipt) :
    gasUsedFromTriedb overflowChecks triedbEnv blockKey (UInt64.ofNat i) receipt =
      .ok (alloy.cumulativeGasUsed receipt.receipt - gasBefore 0 receipts i) := by
  have hle := gasBefore_le hgas hreceipt
  cases i with
  | zero =>
    rw [gasUsedFromTriedb, if_neg (by decide), gasBefore, UInt64.sub_zero]
  | succ i =>
    have hpos : 0 < UInt64.ofNat (i + 1) := by
      rw [UInt64.lt_iff_toNat_lt, hplace]
      exact Nat.succ_pos i
    have hbefore : (UInt64.ofNat (i + 1) - 1).toNat = i := by
      rw [UInt64.toNat_sub_of_le _ _ (UInt64.le_iff_toNat_le.mpr (by rw [hplace]; simp)), hplace]
      rfl
    have hlt : i < receipts.length := Nat.lt_of_succ_lt (List.getElem?_eq_some_iff.mp hreceipt).1
    rw [gasBefore, List.getElem?_eq_getElem hlt] at hle ⊢
    rw [gasUsedFromTriedb, if_pos hpos, h.getReceipt, hbefore, List.getElem?_eq_getElem hlt]
    exact subU64_of_le hle

/-- **The receipt from triedb.** -/
theorem getReceiptFromTriedb_eq (h : StoredInTriedb triedbEnv blockKey block receipts)
    (hkey : blockKey.seqNum = alloy.number block.header) (hgas : GasChain receipts)
    (hplace : (UInt64.ofNat i).toNat = i) (hi : block.transactions[i]? = some tx)
    (hreceipt : receipts[i]? = some receipt) :
    getReceiptFromTriedb overflowChecks triedbEnv blockKey (UInt64.ofNat i) =
      (receiptAt overflowChecks block receipts i tx receipt).map some := by
  have hgasUsed := @gasUsedFromTriedb_eq alloy overflowChecks _ _ _ _ _ _ h hgas hplace hreceipt
  simp only [getReceiptFromTriedb, h.getBlockHeader, h.getTransaction, h.getReceipt, hplace, hi,
    hreceipt, orTriedb, hgasUsed, hkey, ok_bind]
  rfl

end Triedb

/-- **The receipt from the index.** -/
theorem getReceiptFromIndex_eq {archiveReader : ArchiveReader} {txHash : B256} {trace : Bytes}
    (h : Reads archiveReader.index archiveReader.archive txHash
      (recordAt block receipts i tx trace receipt)) :
    getReceiptFromIndex overflowChecks alloy archiveReader txHash =
      (receiptAt overflowChecks block receipts i tx receipt).map some := by
  rw [getReceiptFromIndex, h.all]
  rfl

/-- The receipts from a place on, while the gas that was used before is carried along. -/
theorem mapReceiptsFrom_eq {f : TransactionReceipt → R} (hgas : GasChain receipts)
    (items : List (alloy.Tx × alloy.Receipt)) (h : receipts.drop i = items.map Prod.snd) :
    (mapReceiptsFrom overflowChecks block.header (alloy.hashSlow block.header) f i
        (gasBefore 0 receipts i) items : Except (Halt ε) _) =
      (items.zipIdx i).mapM fun x =>
        (receiptAt overflowChecks block receipts x.2 x.1.1 x.1.2).map f := by
  induction items generalizing i with
  | nil => rfl
  | cons item items ih =>
    obtain ⟨tx, receipt⟩ := item
    have hplace : receipts[i]? = some receipt := by
      rw [← Nat.add_zero i, ← List.getElem?_drop, h]
      rfl
    have hbefore : gasBefore 0 receipts (i + 1) = alloy.cumulativeGasUsed receipt.receipt := by
      rw [gasBefore, hplace]
      rfl
    have hrest : receipts.drop (i + 1) = items.map Prod.snd := by
      rw [← List.tail_drop, h]
      rfl
    have ih := ih hrest
    rw [hbefore] at ih
    rw [mapReceiptsFrom, subU64_of_le (gasBefore_le hgas hplace), ok_bind, ih, List.zipIdx_cons,
      List.mapM_cons, receiptAt]
    cases parseTxReceipt overflowChecks (alloy.hashSlow block.header) (alloy.number block.header)
      (alloy.timestamp block.header) (alloy.baseFeePerGas block.header) (UInt64.ofNat i) tx receipt
      (alloy.cumulativeGasUsed receipt.receipt - gasBefore 0 receipts i) with
    | error e => rfl
    | ok r => rfl

/-- **The receipts of a whole block.** -/
theorem mapBlockReceipts_eq {f : TransactionReceipt → R} (hgas : GasChain receipts)
    (hlen : receipts.length = block.transactions.length) :
    mapBlockReceipts overflowChecks block.transactions receipts block.header
        (alloy.hashSlow block.header) f =
      receiptsOf overflowChecks block receipts f := by
  rw [mapBlockReceipts, if_neg (not_not.mpr hlen.symm)]
  refine mapReceiptsFrom_eq hgas _ ?_
  rw [List.drop_zero, List.map_snd_zip (Nat.le_of_eq hlen)]

section Halts

/-- What only panics does not depend on the errors there are. -/
theorem orNotFound_bind {α β : Type} (x : Except (Halt Jsonrpc.JsonRpcError) α)
    (g : α → Except (Halt Jsonrpc.JsonRpcError) β) :
    orNotFound (x >>= g) = orNotFound x >>= fun a => orNotFound (g a) := by
  rcases x with (e | message) | a
  · rfl
  · rfl
  · rfl

theorem orNotFound_map {α β : Type} (x : Except (Halt Jsonrpc.JsonRpcError) α) (g : α → β) :
    orNotFound (x.map g) = (orNotFound x).map g := by
  rcases x with (e | message) | a
  · rfl
  · rfl
  · rfl

theorem orNotFound_mapM {α β : Type} {g : α → Except (Halt Jsonrpc.JsonRpcError) β}
    {g' : α → Result β} (h : ∀ a, orNotFound (g a) = g' a) (l : List α) :
    orNotFound (l.mapM g) = l.mapM g' := by
  induction l with
  | nil => rfl
  | cons a l ih =>
    rw [List.mapM_cons, List.mapM_cons, orNotFound_bind, h]
    refine congrArg (g' a >>= ·) (funext fun b => ?_)
    rw [orNotFound_bind, ih]
    rfl

theorem orNotFound_addU64 (a b : UInt64) :
    orNotFound (addU64 overflowChecks a b) = addU64 overflowChecks a b := by
  unfold addU64 checked
  split
  · rfl
  · rfl

theorem orNotFound_receiptsOf {f : TransactionReceipt → R} :
    orNotFound (receiptsOf overflowChecks block receipts f) =
      receiptsOf overflowChecks block receipts f := by
  refine orNotFound_mapM (fun x => ?_) _
  have hlogs : ∀ {blockHash txHash : B256}
      {blockNumber blockTimestamp txIndex startingLogIndex : UInt64} {logs : List Log},
      orNotFound (parseLogs overflowChecks blockHash blockNumber blockTimestamp txIndex txHash
        startingLogIndex logs) = parseLogs overflowChecks blockHash blockNumber blockTimestamp
          txIndex txHash startingLogIndex logs := by
    intros
    refine orNotFound_mapM (fun x => ?_) _
    rw [orNotFound_bind, orNotFound_addU64]
    rfl
  rw [orNotFound_map, receiptAt, parseTxReceipt, orNotFound_bind, parseReceiptEnvelope,
    orNotFound_bind, hlogs]
  rfl

end Halts

/-- **The receipts of a block of triedb.** -/
theorem getBlockReceiptsFromTriedb_eq {triedbEnv : Triedb alloy} {blockKey : BlockKey}
    (h : StoredInTriedb triedbEnv blockKey block receipts) (hgas : GasChain receipts)
    (hlen : receipts.length = block.transactions.length) :
    getBlockReceiptsFromTriedb overflowChecks triedbEnv blockKey =
      (receiptsOf overflowChecks block receipts MonadTransactionReceipt.mk).map some := by
  simp only [getBlockReceiptsFromTriedb, h.getBlockHeader, h.getTransactions, h.getReceipts,
    orTriedb, ok_bind, mapBlockReceipts_eq hgas hlen, orNotFound_receiptsOf]
  rfl

section Archived

variable {archive : ArchiveKey → Option Bytes} {traces : List Bytes} {n : UInt64}

/-- The block as it is read from the archive. -/
def archivedBlock (block : alloy.Block) : alloy.Block :=
  { block with withdrawals := some (block.withdrawals.getD []) }

theorem tryGetBlockByNumber_eq
    (h : Holds archive n (.marked (.v1 block)) (.marked (.v1 receipts)) traces)
    (h64 : (alloy.block.encode block).length < 2 ^ 64) :
    tryGetBlockByNumber archive n = .ok (some (archivedBlock block)) := by
  rw [tryGetBlockByNumber, h.block]
  simp only [StoredBlock.bytes, decodeAndConvert_encode_v1 h64]
  rfl

theorem tryGetBlockByHash_eq {blockHash : B256}
    (h : Holds archive n (.marked (.v1 block)) (.marked (.v1 receipts)) traces)
    (h64 : (alloy.block.encode block).length < 2 ^ 64)
    (hhash : archive (.blockHash blockHash) = some (digits n)) :
    tryGetBlockByHash archive blockHash = .ok (some (archivedBlock block)) := by
  have hnumber : tryGetBlockNumberByHash archive blockHash = .ok (some n) := by
    rw [tryGetBlockNumberByHash, hhash]
    simp only [digits, fromUTF8?_toList_toUTF8, parseUnsigned_repr n.toNat_lt, toString,
      UInt64.ofNat_toNat]
  rw [tryGetBlockByHash, hnumber]
  exact tryGetBlockByNumber_eq h h64

/-- **The receipts of a block of the archive.** -/
theorem mapArchivedReceipts_eq (h : Holds archive (alloy.number block.header)
      (.marked (.v1 block)) (.marked (.v1 receipts)) traces)
    (h64 : (alloy.receiptWithLogIndex.vec.encode receipts).length < 2 ^ 64)
    (hgas : GasChain receipts) (hlen : receipts.length = block.transactions.length) :
    mapArchivedReceipts overflowChecks archive (archivedBlock block) =
      (receiptsOf overflowChecks block receipts MonadTransactionReceipt.mk).map some := by
  have hdecode := StoredReceipts.decodeAndConvert_bytes (.marked (.v1 receipts)) h64
  have hread : tryGetBlockReceipts archive (alloy.number (archivedBlock block).header) =
      .ok (some receipts) := by
    show tryGetBlockReceipts archive (alloy.number block.header) = _
    rw [tryGetBlockReceipts, h.receipts]
    simp only [hdecode]
    rfl
  have hmap : mapBlockReceipts overflowChecks (archivedBlock block).transactions receipts
      (archivedBlock block).header (alloy.hashSlow (archivedBlock block).header)
      MonadTransactionReceipt.mk = receiptsOf overflowChecks block receipts
        MonadTransactionReceipt.mk := mapBlockReceipts_eq hgas hlen
  simp only [mapArchivedReceipts, hread, orArchive, ok_bind, hmap, orNotFound_receiptsOf]
  rfl

end Archived

end Ways

/-! ### The paths agree -/

section Agree

/-- **All paths give the same receipt**, at every place of a block. -/
structure Agree (triedbEnv : Triedb alloy) (archiveReader : ArchiveReader) (block : alloy.Block)
    (receipts : List alloy.Receipt) : Prop where
  triedb : ∀ i tx receipt, block.transactions[i]? = some tx → receipts[i]? = some receipt →
    getReceiptFromTriedb overflowChecks triedbEnv (.finalized (alloy.number block.header))
        (UInt64.ofNat i) =
      (receiptAt overflowChecks block receipts i tx receipt).map some
  index : ∀ i tx receipt, block.transactions[i]? = some tx → receipts[i]? = some receipt →
    getReceiptFromIndex overflowChecks alloy archiveReader (alloy.txHash tx.tx) =
      (receiptAt overflowChecks block receipts i tx receipt).map some
  blockOfTriedb :
    getBlockReceiptsFromTriedb overflowChecks triedbEnv (.finalized (alloy.number block.header)) =
      (receiptsOf overflowChecks block receipts MonadTransactionReceipt.mk).map some
  blockOfArchive : ∃ archived : alloy.Block,
    tryGetBlockByNumber archiveReader.archive (alloy.number block.header) = .ok (some archived) ∧
    mapArchivedReceipts overflowChecks archiveReader.archive archived =
      (receiptsOf overflowChecks block receipts MonadTransactionReceipt.mk).map some
  /-- What the receipts of the block have at a place. -/
  places : ∀ rs, (receiptsOf overflowChecks block receipts MonadTransactionReceipt.mk :
      Result _) = .ok rs → ∀ i tx receipt, block.transactions[i]? = some tx →
    receipts[i]? = some receipt → ∃ r,
      (receiptAt overflowChecks block receipts i tx receipt : Result _) = .ok r ∧
      rs[i]? = some ⟨r⟩

variable {block : alloy.Block} {receipts : List alloy.Receipt} {traces : List Bytes}
  {offsets : Option (List Offsets)} {triedbEnv : Triedb alloy} {index : B256 → Option Bytes}
  {archive : ArchiveKey → Option Bytes}

/-- **All paths to a receipt agree.** A block is stored in triedb and in the archive, and it is
indexed, in an index that may have had records of its transactions before, and into which other
records are put later. Then for each of its transactions triedb, the index and the block as a whole
give the same receipt, and the same panic if there is one. -/
theorem paths_agree (h : Indexable block receipts traces offsets)
    (hdb : StoredInTriedb triedbEnv (.finalized (alloy.number block.header)) block receipts)
    (hholds : Holds archive (alloy.number block.header) (.marked (.v1 block))
      (.marked (.v1 receipts)) traces)
    (hown : OwnRecords index block receipts traces) (max : ℕ) :
    ∃ puts, indexBlock max block traces receipts offsets = .ok puts ∧
      ∀ order, order.Perm puts → ∀ later, Agree overflowChecks triedbEnv
        ⟨bulkPut (bulkPut index order .noClobber) later .noClobber, archive⟩ block receipts := by
  obtain ⟨puts, hputs, hreads⟩ := h.reads hholds hown max
  have hblock : (alloy.block.encode block).length + 2 < 2 ^ 63 := h.blockLen
  have hreceipts : (alloy.receiptWithLogIndex.vec.encode receipts).length + 2 < 2 ^ 63 :=
    h.receiptsLen
  refine ⟨puts, hputs, fun order hperm later => ?_⟩
  constructor
  · intro i tx receipt hi hreceipt
    have hplace := h.toNat_ofNat (List.getElem?_eq_some_iff.mp hi).1
    exact getReceiptFromTriedb_eq hdb rfl h.gas hplace hi hreceipt
  · intro i tx receipt hi hreceipt
    have hlt : i < traces.length := h.numTraces.symm ▸ (List.getElem?_eq_some_iff.mp hi).1
    exact getReceiptFromIndex_eq (hreads order hperm later i tx traces[i] receipt hi
      (List.getElem?_eq_getElem hlt) hreceipt)
  · exact getBlockReceiptsFromTriedb_eq hdb h.gas h.numReceipts
  · exact ⟨archivedBlock block, tryGetBlockByNumber_eq hholds (by omega),
      mapArchivedReceipts_eq hholds (by omega) h.gas h.numReceipts⟩
  · intro rs hrs i tx receipt hi hreceipt
    exact receiptsOf_getElem hrs hi hreceipt

theorem length_sampleCallee : (toBe 20 1).length = 20 := length_toBe 20 1

/-- One transaction creates a contract. -/
def sampleKind (tx : UInt64) : TxKind :=
  if tx = 5 then .create else .call ⟨toBe 20 1, length_sampleCallee⟩

/-- An instance to evaluate on. -/
def ReceiptAlloy.sample : ReceiptAlloy where
  toAlloy := Alloy.sample
  kind := sampleKind
  nonce := id
  effectiveGasPrice := fun _ baseFee => (baseFee.getD 0).toBitVec.setWidth 128
  receiptType := fun _ => .eip1559
  status := fun _ => true
  logsBloom := fun _ => ⟨toBe 256 0, length_toBe 256 0⟩
  create := fun sender _ => sender

/-- A triedb that has the sample block only. -/
def sampleTriedb : Triedb ReceiptAlloy.sample where
  getLatestProposedBlockKey := .finalized 1
  getBlockNumberByHash _ _ := .ok none
  getBlockKey n := some (.finalized n)
  getBlockHeader _ := .ok (some ⟨Alloy.sample.hashSlow sampleBlock.header, sampleBlock.header⟩)
  getTransactions _ := .ok sampleBlock.transactions
  getReceipts _ := .ok indexedReceipts
  getLatestVotedBlockKey := .finalized 1
  getLatestFinalizedBlockKey := 1
  getTransaction _ txIndex := .ok sampleBlock.transactions[txIndex.toNat]?
  getReceipt _ txIndex := .ok indexedReceipts[txIndex.toNat]?
  getTransactionLocationByHash _ _ := .ok none

/-- The sample block, all by reference, and what its second transaction used. -/
theorem paths_agree_sample :
    (∃ puts, indexBlock 0 sampleBlock [[1, 2], []] indexedReceipts none = .ok puts ∧
      Agree true sampleTriedb ⟨bulkPut (bulkPut (fun _ => none) puts.reverse .noClobber) []
          .noClobber, archiveAll (fun _ => none) sampleBlock indexedReceipts [[1, 2], []]
          .noClobber⟩ sampleBlock indexedReceipts) ∧
      (getReceiptFromTriedb true sampleTriedb (.finalized 1) 1).map (·.map (·.gasUsed)) =
        .ok (some 42000) := by
  refine ⟨?_, by decide⟩
  have hdb : StoredInTriedb sampleTriedb (.finalized (Alloy.sample.number sampleBlock.header))
      sampleBlock indexedReceipts := ⟨rfl, rfl, rfl, fun _ => rfl, fun _ => rfl⟩
  have hholds : Holds (archiveAll (fun _ => none) sampleBlock indexedReceipts [[1, 2], []]
      .noClobber) (Alloy.sample.number sampleBlock.header) (.marked (.v1 sampleBlock))
      (.marked (.v1 indexedReceipts)) [[1, 2], []] :=
    holds_archiveAll indexedReceipts [[1, 2], []] fun _ => ⟨rfl, rfl, rfl⟩
  have hown : OwnRecords (fun _ => none) sampleBlock indexedReceipts [[1, 2], []] :=
    fun _ _ _ _ _ _ _ _ hbytes => (by cases hbytes)
  obtain ⟨puts, hputs, hagree⟩ := paths_agree true indexable_sample hdb hholds hown 0
  exact ⟨puts, hputs, hagree puts.reverse (List.reverse_perm _) []⟩

/-! ### The requests -/

variable {p : DataProvider alloy} {archiveReader : ArchiveReader} {i : ℕ} {tx : alloy.Tx}
  {trace : Bytes} {receipt : alloy.Receipt}

/-- **The receipt of a transaction does not depend on the source**: triedb has it, or it does not
and the index has it. -/
theorem getTransactionReceipt_eq (h : Indexable block receipts traces offsets)
    (hi : block.transactions[i]? = some tx) (hreceipt : receipts[i]? = some receipt)
    (hbuffer : p.buffer.bind (·.maps.getReceiptByTxHash (alloy.txHash tx.tx)) = none)
    (hsource : (∃ key, p.triedbEnv.getTransactionLocationByHash
          p.triedbEnv.getLatestProposedBlockKey (alloy.txHash tx.tx) =
            .ok (some ⟨UInt64.ofNat i, alloy.number block.header⟩) ∧
        p.triedbEnv.getBlockKey (alloy.number block.header) = some key ∧
        key.seqNum = alloy.number block.header ∧
        StoredInTriedb p.triedbEnv key block receipts) ∨
      getReceiptByLocation overflowChecks p (alloy.txHash tx.tx) = .ok none ∧
        p.archiveReader = some archiveReader ∧
        Reads archiveReader.index archiveReader.archive (alloy.txHash tx.tx)
          (recordAt block receipts i tx trace receipt)) :
    getTransactionReceipt overflowChecks p (alloy.txHash tx.tx) =
      receiptAt overflowChecks block receipts i tx receipt := by
  rw [getTransactionReceipt, hbuffer]
  obtain ⟨key, hlocation, hkey, hnum, hdb⟩ | ⟨hnone, hreader, hreads⟩ := hsource
  · have hplace := h.toNat_ofNat (List.getElem?_eq_some_iff.mp hi).1
    have htriedb : getReceiptByLocation overflowChecks p (alloy.txHash tx.tx) =
        (receiptAt overflowChecks block receipts i tx receipt).map some := by
      simp only [getReceiptByLocation, hlocation, orTriedb, ok_bind, hkey]
      exact getReceiptFromTriedb_eq hdb hnum h.gas hplace hi hreceipt
    rw [htriedb]
    cases (receiptAt overflowChecks block receipts i tx receipt : Result _) with
    | error e => rfl
    | ok r => rfl
  · simp only [hnone, ok_bind, hreader, getReceiptFromIndex_eq hreads]
    cases (receiptAt overflowChecks block receipts i tx receipt : Result _) with
    | error e => rfl
    | ok r => rfl

/-- What a reference to a block is for the archive. -/
def Names (triedbEnv : Triedb alloy) (archive : ArchiveKey → Option Bytes) (n : UInt64) :
    BlockTagOrHash → Prop
  | .blockTags tag => getBlockKeyFromTag triedbEnv tag = some (.finalized n)
  | .hash blockHash => archive (.blockHash blockHash.data) = some (digits n)

/-- **The receipts of a block do not depend on the source** either. -/
theorem getBlockReceipts_eq {r : BlockTagOrHash} (h : Indexable block receipts traces offsets)
    (hbuffer : (p.buffer.bind fun view =>
      (view.resolveBlockHeight r).bind view.maps.getReceiptsByBlockHeight) = none)
    (hsource : (∃ key, getBlockKeyFromTagOrHash p.triedbEnv r = some key ∧
        StoredInTriedb p.triedbEnv key block receipts) ∨
      getBlockReceiptsByKey overflowChecks p r = .ok none ∧
        p.archiveReader = some archiveReader ∧
        Names p.triedbEnv archiveReader.archive (alloy.number block.header) r ∧
        Holds archiveReader.archive (alloy.number block.header) (.marked (.v1 block))
          (.marked (.v1 receipts)) traces) :
    getBlockReceipts overflowChecks p r =
      receiptsOf overflowChecks block receipts MonadTransactionReceipt.mk := by
  have hblock : (alloy.block.encode block).length + 2 < 2 ^ 63 := h.blockLen
  have hreceipts : (alloy.receiptWithLogIndex.vec.encode receipts).length + 2 < 2 ^ 63 :=
    h.receiptsLen
  rw [getBlockReceipts, hbuffer]
  obtain ⟨key, hkey, hdb⟩ | ⟨hnone, hreader, hnames, hholds⟩ := hsource
  · have htriedb : getBlockReceiptsByKey overflowChecks p r =
        (receiptsOf overflowChecks block receipts MonadTransactionReceipt.mk).map some := by
      rw [getBlockReceiptsByKey, hkey]
      exact getBlockReceiptsFromTriedb_eq hdb h.gas h.numReceipts
    rw [htriedb]
    cases (receiptsOf overflowChecks block receipts MonadTransactionReceipt.mk : Result _) with
    | error e => rfl
    | ok rs => rfl
  · have hfound : getBlockFromArchive p.triedbEnv archiveReader.archive r =
        .ok (some (archivedBlock block)) := by
      cases r with
      | blockTags tag =>
        have hread := tryGetBlockByNumber_eq hholds (by omega)
        simp only [getBlockFromArchive, show getBlockKeyFromTag p.triedbEnv tag = _ from hnames,
          hread]
        rfl
      | hash blockHash =>
        have hread := tryGetBlockByHash_eq hholds (by omega) hnames
        simp only [getBlockFromArchive, hread]
        rfl
    simp only [hnone, ok_bind, hreader, getBlockReceiptsFromArchive, hfound,
      mapArchivedReceipts_eq hholds (by omega) h.gas h.numReceipts]
    cases (receiptsOf overflowChecks block receipts MonadTransactionReceipt.mk : Result _) with
    | error e => rfl
    | ok rs => rfl

end Agree

end Receipts

end Rpc

end MonadServices
