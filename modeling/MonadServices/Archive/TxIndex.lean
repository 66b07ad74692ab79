import MonadServices.Archive.IndexRepr
import MonadServices.Archive.Kv

/-!
# The index of transactions

The index stores a record for each transaction of a block: the transaction with its receipt
and trace if they are not too long, and otherwise a reference to the block. A reader resolves
a reference by reading the block, the receipts and the traces from the archive, which
stores them in codings of their own.

A reader cannot tell the difference: whatever the length up to which records are stored
inline, it finds the transaction, the receipt and the trace at the transaction's place in
the block, with the gas that the transaction used
(`MonadServices.Archive.threshold_unobservable`).
-/

namespace MonadServices

namespace Archive

open Rlp (encode encodeAll)

variable {alloy : Alloy}

/-! ### The archive as a reader -/

section Reader

variable (archive : ArchiveKey → Option Bytes)

/-- Reads a block. -/
def getBlockByNumber (n : UInt64) : Except Fault alloy.Block := do
  let bytes ← found (archive (.block n)) "Block not found"
  wrapErr "Failed to decode block" (BlockStorageRepr.decodeAndConvert bytes)

/-- Reads the receipts of a block. -/
def getBlockReceipts (n : UInt64) : Except Fault (List alloy.Receipt) := do
  let bytes ← found (archive (.receipts n)) "Receipt not found"
  wrapErr "Failed to decode block receipts" (ReceiptStorageRepr.decodeAndConvert bytes)

/-- Reads the traces of a block. -/
def getBlockTraces (alloy : Alloy) (n : UInt64) : Except Fault (List Bytes) := do
  let bytes ← found (archive (.traces n)) "Traces not found"
  (alloy.trace.vec.decode bytes).elim (.error (.error "Cannot decode block")) .ok

end Reader

/-! ### Writing to the archive -/

/-- The decimal digits of a number, as bytes. -/
def digits (n : UInt64) : Bytes := (toString n.toNat).toUTF8.toList

/-- **Archives a block**: under its number, and its number under its hash. -/
def archiveBlock (archive : ArchiveKey → Option Bytes) (block : alloy.Block)
    (policy : WritePolicy) : ArchiveKey → Option Bytes :=
  let n := alloy.number block.header
  let stored := (put archive (.block n) (BlockStorageRepr.v1 block).encode policy).1
  (put stored (.blockHash (alloy.hashSlow block.header)) (digits n) policy).1

/-- Archives the receipts of a block. -/
def archiveReceipts (archive : ArchiveKey → Option Bytes) (receipts : List alloy.Receipt)
    (n : UInt64) (policy : WritePolicy) : ArchiveKey → Option Bytes :=
  (put archive (.receipts n) (ReceiptStorageRepr.v1 receipts).encode policy).1

/-- Archives the traces of a block. -/
def archiveTraces (alloy : Alloy) (archive : ArchiveKey → Option Bytes) (traces : List Bytes)
    (n : UInt64) (policy : WritePolicy) : ArchiveKey → Option Bytes :=
  (put archive (.traces n) (alloy.trace.vec.encode traces) policy).1

/-- Archives a block with its receipts and traces. -/
def archiveAll (archive : ArchiveKey → Option Bytes) (block : alloy.Block)
    (receipts : List alloy.Receipt) (traces : List Bytes) (policy : WritePolicy) :
    ArchiveKey → Option Bytes :=
  let n := alloy.number block.header
  archiveTraces alloy (archiveReceipts (archiveBlock archive block policy) receipts n policy)
    traces n policy

/-- What was archived is there, if it could be written. -/
theorem holds_archiveAll {archive : ArchiveKey → Option Bytes} {block : alloy.Block}
    (receipts : List alloy.Receipt) (traces : List Bytes) {policy : WritePolicy}
    (h : policy = .noClobber → archive (.block (alloy.number block.header)) = none ∧
      archive (.receipts (alloy.number block.header)) = none ∧
      archive (.traces (alloy.number block.header)) = none) :
    Holds (archiveAll archive block receipts traces policy) (alloy.number block.header)
      (.marked (.v1 block)) (.marked (.v1 receipts)) traces := by
  have hother : ∀ {store : ArchiveKey → Option Bytes} {key key' : ArchiveKey} {data : Bytes},
      key' ≠ key → (put store key data policy).1 key' = store key' := put_of_ne
  constructor
  · simp only [archiveAll, archiveTraces, archiveReceipts, archiveBlock, hother, ne_eq,
      reduceCtorEq, not_false_eq_true]
    exact put_self fun hp => (h hp).1
  · simp only [archiveAll, archiveTraces, archiveReceipts, hother, ne_eq, reduceCtorEq,
      not_false_eq_true]
    refine put_self fun hp => ?_
    simp only [archiveBlock, hother, ne_eq, reduceCtorEq, not_false_eq_true]
    exact (h hp).2.1
  · refine put_self fun hp => ?_
    simp only [archiveReceipts, archiveBlock, hother, ne_eq, reduceCtorEq, not_false_eq_true]
    exact (h hp).2.2

/-! ### Indexing a block -/

/-- `a - b` on `u64`. -/
def subU64 (a b : UInt64) : Except Fault UInt64 :=
  if b ≤ a then .ok (a - b) else .error .overflow

/-- The record of a transaction: inline if its coding is not longer than the limit. -/
def encodeRecord (alloy : Alloy) (maxInlineEncodedLen : ℕ) (data : TxIndexedData alloy)
    (offsets : Option Offsets) : Bytes :=
  let encoded := (IndexDataStorageRepr.inlineV1 data).encode
  if maxInlineEncodedLen < encoded.length then
    (IndexDataStorageRepr.referenceV0
      ⟨data.headerSubset.blockNumber, data.headerSubset, offsets⟩ :
        IndexDataStorageRepr alloy).encode
  else encoded

/-- The puts for the transactions of a block from `idx` on; `prev` is the cumulative gas used
before. -/
def indexRequests (maxInlineEncodedLen : ℕ) (header : alloy.Header)
    (offsets : Option (List Offsets)) :
    ℕ → UInt64 → List (alloy.Tx × Bytes × alloy.Receipt) → Except Fault (List (B256 × Bytes))
  | _, _, [] => .ok []
  | idx, prev, (tx, trace, receipt) :: rest => do
    let cumulative := alloy.cumulativeGasUsed receipt.receipt
    let gasUsed ← subU64 cumulative prev
    let headerSubset := ⟨alloy.hashSlow header, alloy.number header, alloy.timestamp header,
      UInt64.ofNat idx, gasUsed, alloy.baseFeePerGas header⟩
    let encoded := encodeRecord alloy maxInlineEncodedLen ⟨tx, trace, receipt, headerSubset⟩
      (offsets.bind fun v => v[idx]?)
    let requests ← indexRequests maxInlineEncodedLen header offsets (idx + 1) cumulative rest
    return (alloy.txHash tx.tx, encoded) :: requests

/-- **Indexes a block**: the puts that are handed to the index store. -/
def indexBlock (maxInlineEncodedLen : ℕ) (block : alloy.Block) (traces : List Bytes)
    (receipts : List alloy.Receipt) (offsets : Option (List Offsets)) :
    Except Fault (List (B256 × Bytes)) :=
  let numTxs := block.transactions.length
  let numTraces := traces.length
  let numReceipts := receipts.length
  if numTxs ≠ numTraces ∨ numTraces ≠ numReceipts ∨
      ∃ v ∈ offsets, numReceipts ≠ v.length then
    .error (.error (s!"Block must have same number of txs as traces and receipts. " ++
      s!"num_txs: {numTxs}, num_traces: {numTraces}, num_receipts: {numReceipts}"))
  else
    indexRequests maxInlineEncodedLen block.header offsets 0 0
      (block.transactions.zip (traces.zip receipts))

/-! ### Reading a record -/

/-- `swap_remove`: the element at a place, which has to be there. -/
def swapRemove {α : Type} (l : List α) (idx : ℕ) : Except Fault α :=
  l[idx]?.elim (.error .outOfBounds) .ok

/-- `ensure!(len > idx, message)`. -/
def ensureLen {α : Type} (l : List α) (idx : ℕ) (message : String) : Except Fault Unit :=
  if idx < l.length then .ok () else .error (.error message)

namespace IndexDataStorageRepr

variable (archive : ArchiveKey → Option Bytes)

/-- The record in its current form. -/
def convert : IndexDataStorageRepr alloy → Except Fault (TxIndexedData alloy)
  | .inlineV0 data => do
    let block ← getBlockByNumber archive data.headerSubset.blockNumber
    let receipts ← getBlockReceipts archive data.headerSubset.blockNumber
    let tx ← BlockStorageRepr.recover data.tx
    let receipt ← receipts[data.headerSubset.txIndex.toNat]?.elim
      (.error (.error "Failed to find receipt in block data")) .ok
    return ⟨tx, data.trace, receipt,
      data.headerSubset.convert (alloy.timestamp (block : alloy.Block).header)⟩
  | .inlineV1 data => .ok data
  | .referenceV0 reference => do
    let block : alloy.Block ← getBlockByNumber archive reference.headerSubset.blockNumber
    let receipts ← getBlockReceipts archive reference.headerSubset.blockNumber
    let traces ← getBlockTraces archive alloy reference.headerSubset.blockNumber
    let idx := reference.headerSubset.txIndex.toNat
    ensureLen block.transactions idx "Block does not contain tx index"
    ensureLen traces idx "traces does not contain tx index"
    ensureLen receipts idx "receipts does not contain tx index"
    let tx ← swapRemove block.transactions idx
    let trace ← swapRemove traces idx
    let receipt ← swapRemove receipts idx
    return ⟨tx, trace, receipt, reference.headerSubset⟩

/-- The trace of a record. -/
def getTrace : IndexDataStorageRepr alloy → Except Fault (Bytes × HeaderSubset)
  | .inlineV0 data => do
    let block : alloy.Block ← getBlockByNumber archive data.headerSubset.blockNumber
    return (data.trace, data.headerSubset.convert (alloy.timestamp block.header))
  | .inlineV1 data => .ok (data.trace, data.headerSubset)
  | .referenceV0 reference => do
    let traces ← getBlockTraces archive alloy reference.headerSubset.blockNumber
    let idx := reference.headerSubset.txIndex.toNat
    ensureLen traces idx "traces does not contain tx index"
    return (← swapRemove traces idx, reference.headerSubset)

/-- The transaction of a record. -/
def getTx : IndexDataStorageRepr alloy → Except Fault (alloy.Tx × HeaderSubset)
  | .inlineV0 data => do
    let block : alloy.Block ← getBlockByNumber archive data.headerSubset.blockNumber
    return (← swapRemove block.transactions data.headerSubset.txIndex.toNat,
      data.headerSubset.convert (alloy.timestamp block.header))
  | .inlineV1 data => .ok (data.tx, data.headerSubset)
  | .referenceV0 reference => do
    let block : alloy.Block ← getBlockByNumber archive reference.headerSubset.blockNumber
    let idx := reference.headerSubset.txIndex.toNat
    ensureLen block.transactions idx "traces does not contain tx index"
    return (← swapRemove block.transactions idx, reference.headerSubset)

/-- The receipt of a record. -/
def getReceipt : IndexDataStorageRepr alloy → Except Fault (alloy.Receipt × HeaderSubset)
  | .inlineV0 data => do
    let latest ← convert archive (.inlineV0 data)
    return (latest.receipt, latest.headerSubset)
  | .inlineV1 data => .ok (data.receipt, data.headerSubset)
  | .referenceV0 reference => do
    let receipts ← getBlockReceipts archive reference.headerSubset.blockNumber
    let idx := reference.headerSubset.txIndex.toNat
    ensureLen receipts idx "traces does not contain tx index"
    return (← swapRemove receipts idx, reference.headerSubset)

end IndexDataStorageRepr

section IndexReader

variable (index : B256 → Option Bytes) (archive : ArchiveKey → Option Bytes)

/-- Reads the record of a transaction, and what is asked of it. -/
def readRecord {α : Type} (read : IndexDataStorageRepr alloy → Except Fault α)
    (txHash : B256) : Except Fault (Option α) :=
  match index txHash with
  | none => .ok none
  | some bytes => do
    let repr ← IndexDataStorageRepr.decode bytes
    return some (← read repr)

/-- Reads all that is indexed of a transaction. -/
def getTxIndexedData (txHash : B256) : Except Fault (Option (TxIndexedData alloy)) :=
  readRecord index (IndexDataStorageRepr.convert archive) txHash

/-- Reads an indexed transaction. -/
def getTx (txHash : B256) : Except Fault (Option (alloy.Tx × HeaderSubset)) :=
  readRecord index (IndexDataStorageRepr.getTx archive) txHash

/-- Reads the receipt of an indexed transaction. -/
def getReceipt (txHash : B256) : Except Fault (Option (alloy.Receipt × HeaderSubset)) :=
  readRecord index (IndexDataStorageRepr.getReceipt archive) txHash

/-- Reads the trace of an indexed transaction. -/
def getTrace (alloy : Alloy) (txHash : B256) : Except Fault (Option (Bytes × HeaderSubset)) :=
  readRecord index (fun repr : IndexDataStorageRepr alloy => repr.getTrace archive) txHash

end IndexReader

/-! ### References are short -/

theorem length_head_le (base n : ℕ) : (Rlp.head base n).length ≤ 33 := by
  unfold Rlp.head
  split
  · simp
  · have h := (List.dropWhile_sublist (· == 0) (l := toBe 32 n)).length_le
    rw [length_toBe] at h
    simp only [minBe, List.length_cons]
    omega

theorem length_encode_str_le (b : Bytes) : (encode (.str b)).length ≤ b.length + 33 := by
  rw [Rlp.encode_str]
  rcases Rlp.encodeStr_cases b with ⟨x, rfl, -, h⟩ | ⟨-, h⟩
  · rw [h]
    simp
  · have hhead := length_head_le 0x80 b.length
    rw [h, List.length_append]
    omega

theorem length_encode_list_le (xs : List Rlp) :
    (encode (.list xs)).length ≤ (encodeAll xs).length + 33 := by
  have hhead := length_head_le 0xc0 (encodeAll xs).length
  rw [Rlp.encode_list, List.length_append]
  omega

theorem length_natToRlp_le (n : ℕ) : (encode (RlpCodec.natToRlp n)).length ≤ 65 := by
  have h := (List.dropWhile_sublist (· == 0) (l := toBe 32 n)).length_le
  rw [length_toBe] at h
  have hstr := length_encode_str_le (minBe n)
  rw [RlpCodec.natToRlp]
  rw [minBe] at hstr ⊢
  omega

theorem length_range_le (r : RangeRlp) : (encode r.toRlp).length ≤ 163 := by
  have hstart := length_natToRlp_le r.start
  have hstop := length_natToRlp_le r.stop
  have hlist := length_encode_list_le [RlpCodec.natToRlp r.start, RlpCodec.natToRlp r.stop]
  simp only [Rlp.encodeAll_cons, Rlp.encodeAll_nil, List.length_append, List.length_nil] at hlist
  rw [RangeRlp.toRlp]
  omega

theorem length_headerSubset_le (h : HeaderSubset) : (encode h.toRlp).length ≤ 423 := by
  have hhash := length_encode_str_le h.blockHash.1
  rw [h.blockHash.2] at hhash
  have hnat := fun n : UInt64 => length_natToRlp_le n.toNat
  have hfee : (encodeAll (RlpCodec.uint64.trailing h.baseFeePerGas)).length ≤ 65 := by
    cases h.baseFeePerGas with
    | none => simp [RlpCodec.trailing]
    | some fee =>
      rw [RlpCodec.trailing, Rlp.encodeAll_cons, Rlp.encodeAll_nil, List.append_nil]
      exact hnat fee
  have hlist := length_encode_list_le ((RlpCodec.fixed 32).toRlp h.blockHash ::
    RlpCodec.uint64.toRlp h.blockNumber :: RlpCodec.uint64.toRlp h.blockTimestamp ::
    RlpCodec.uint64.toRlp h.txIndex :: RlpCodec.uint64.toRlp h.gasUsed ::
    RlpCodec.uint64.trailing h.baseFeePerGas)
  have hnumber := hnat h.blockNumber
  have htimestamp := hnat h.blockTimestamp
  have hindex := hnat h.txIndex
  have hgas := hnat h.gasUsed
  simp only [Rlp.encodeAll_cons, List.length_append] at hlist
  rw [HeaderSubset.toRlp]
  simp only [RlpCodec.fixed, RlpCodec.uint64] at hlist hfee ⊢
  omega

theorem length_reference_le (r : ReferenceV0) : (encode r.toRlp).length ≤ 1043 := by
  have hnumber := length_natToRlp_le r.blockNumber.toNat
  have hheader := length_headerSubset_le r.headerSubset
  have hoffsets : (encodeAll (Offsets.codec.trailing r.offsets)).length ≤ 522 := by
    cases r.offsets with
    | none => simp [RlpCodec.trailing]
    | some o =>
      have htx := length_range_le o.1.tx
      have hreceipt := length_range_le o.1.receipt
      have htrace := length_range_le o.1.trace
      have hlist := length_encode_list_le [o.1.tx.toRlp, o.1.receipt.toRlp, o.1.trace.toRlp]
      simp only [RlpCodec.trailing, Offsets.codec, Rlp.encodeAll_cons, Rlp.encodeAll_nil,
        List.length_append, List.length_nil] at hlist ⊢
      omega
  have hlist := length_encode_list_le (RlpCodec.uint64.toRlp r.blockNumber ::
    r.headerSubset.toRlp :: Offsets.codec.trailing r.offsets)
  simp only [Rlp.encodeAll_cons, List.length_append] at hlist
  rw [ReferenceV0.toRlp]
  simp only [RlpCodec.uint64] at hlist ⊢
  omega

/-! ### What a reader finds -/

/-- **All four reads of a transaction give these data.** -/
structure Reads (index : B256 → Option Bytes) (archive : ArchiveKey → Option Bytes)
    (txHash : B256) (data : TxIndexedData alloy) : Prop where
  all : getTxIndexedData index archive txHash = .ok (some data)
  tx : getTx index archive txHash = .ok (some (data.tx, data.headerSubset))
  receipt : getReceipt index archive txHash = .ok (some (data.receipt, data.headerSubset))
  trace : getTrace index archive alloy txHash = .ok (some (data.trace, data.headerSubset))

section Reads

variable {index : B256 → Option Bytes} {archive : ArchiveKey → Option Bytes} {txHash : B256}
  {block : alloy.Block} {receipts : List alloy.Receipt} {traces : List Bytes}
  {data : TxIndexedData alloy} {n : UInt64}

theorem readRecord_eq {α : Type} {read : IndexDataStorageRepr alloy → Except Fault α}
    {r : IndexDataStorageRepr alloy} {a : α} (h : index txHash = some r.encode)
    (h64 : r.toRlp.encode.length < 2 ^ 64) (hfee : r.baseFeePerGas ≠ some 0)
    (hread : read r = .ok a) : readRecord index read txHash = .ok (some a) := by
  have hback := IndexDataStorageRepr.readBack_eq_self.mpr hfee
  rw [readRecord, h]
  simp only [bind, Except.bind, r.decode_encode h64, hback, hread]
  rfl

/-- A record that is stored inline is read as it is. -/
theorem reads_inline (h : index txHash = some (IndexDataStorageRepr.inlineV1 data).encode)
    (h64 : data.toRlp.encode.length < 2 ^ 64)
    (hfee : data.headerSubset.baseFeePerGas ≠ some 0) : Reads index archive txHash data :=
  ⟨readRecord_eq h h64 hfee rfl, readRecord_eq h h64 hfee rfl, readRecord_eq h h64 hfee rfl,
    readRecord_eq h h64 hfee rfl⟩

/-- A block is decoded as it was coded, but for absent withdrawals. -/
theorem decodeAndConvert_encode_v1 (h64 : (alloy.block.encode block).length < 2 ^ 64) :
    BlockStorageRepr.decodeAndConvert (BlockStorageRepr.v1 block).encode =
      .ok { block with withdrawals := some (block.withdrawals.getD []) } := by
  rw [BlockStorageRepr.decodeAndConvert, BlockStorageRepr.decode_encode (.v1 block) h64]
  rfl

/-- An archived block is read as it is, but for absent withdrawals. -/
theorem getBlockByNumber_of_holds
    (h : Holds archive n (.marked (.v1 block)) (.marked (.v1 receipts)) traces)
    (h64 : (alloy.block.encode block).length < 2 ^ 64) :
    getBlockByNumber archive n =
      .ok { block with withdrawals := some (block.withdrawals.getD []) } := by
  rw [getBlockByNumber, h.block]
  simp only [found, Option.elim, bind, Except.bind, StoredBlock.bytes,
    decodeAndConvert_encode_v1 h64]
  rfl

theorem getBlockByNumber_eq
    (h : Holds archive n (.marked (.v1 block)) (.marked (.v1 receipts)) traces)
    (h64 : (alloy.block.encode block).length < 2 ^ 64) : ∃ block' : alloy.Block,
      getBlockByNumber archive n = .ok block' ∧ block'.transactions = block.transactions :=
  ⟨_, getBlockByNumber_of_holds h h64, rfl⟩

theorem getBlockReceipts_eq
    (h : Holds archive n (.marked (.v1 block)) (.marked (.v1 receipts)) traces)
    (h64 : (alloy.receiptWithLogIndex.vec.encode receipts).length < 2 ^ 64) :
    getBlockReceipts archive n = .ok receipts := by
  have hdecode := StoredReceipts.decodeAndConvert_bytes (.marked (.v1 receipts)) h64
  rw [getBlockReceipts, h.receipts]
  simp only [found, Option.elim, bind, Except.bind, hdecode]
  rfl

theorem getBlockTraces_eq
    (h : Holds archive n (.marked (.v1 block)) (.marked (.v1 receipts)) traces)
    (h64 : (alloy.trace.vec.encode traces).length < 2 ^ 64) :
    getBlockTraces archive alloy n = .ok traces := by
  rw [getBlockTraces, h.traces]
  simp only [found, Option.elim, bind, Except.bind,
    alloy.trace.vec.decode_encode_self traces h64]

theorem ensureLen_eq {α : Type} {l : List α} {i : ℕ} {a : α} (h : l[i]? = some a)
    (message : String) : ensureLen l i message = .ok () :=
  if_pos (List.getElem?_eq_some_iff.mp h).1

theorem swapRemove_eq {α : Type} {l : List α} {i : ℕ} {a : α} (h : l[i]? = some a) :
    swapRemove l i = .ok a := by
  rw [swapRemove, h]
  rfl

/-- **A reference is resolved** to the data at its place in the block. -/
theorem reads_reference {offsets : Option Offsets}
    (hindex : index txHash = some (IndexDataStorageRepr.referenceV0
      ⟨data.headerSubset.blockNumber, data.headerSubset, offsets⟩ :
        IndexDataStorageRepr alloy).encode)
    (h : Holds archive data.headerSubset.blockNumber (.marked (.v1 block))
      (.marked (.v1 receipts)) traces)
    (hblock : (alloy.block.encode block).length < 2 ^ 64)
    (hreceipts : (alloy.receiptWithLogIndex.vec.encode receipts).length < 2 ^ 64)
    (htraces : (alloy.trace.vec.encode traces).length < 2 ^ 64)
    (hfee : data.headerSubset.baseFeePerGas ≠ some 0)
    (htx : block.transactions[data.headerSubset.txIndex.toNat]? = some data.tx)
    (hreceipt : receipts[data.headerSubset.txIndex.toNat]? = some data.receipt)
    (htrace : traces[data.headerSubset.txIndex.toNat]? = some data.trace) :
    Reads index archive txHash data := by
  have h64 : (IndexDataStorageRepr.referenceV0
      ⟨data.headerSubset.blockNumber, data.headerSubset, offsets⟩ :
        IndexDataStorageRepr alloy).toRlp.encode.length < 2 ^ 64 :=
    (length_reference_le _).trans_lt (by norm_num)
  obtain ⟨block', hget, htxs⟩ := getBlockByNumber_eq h hblock
  have hgetReceipts := getBlockReceipts_eq h hreceipts
  have hgetTraces := getBlockTraces_eq h htraces
  rw [← htxs] at htx
  constructor
  · refine readRecord_eq hindex h64 hfee ?_
    simp only [IndexDataStorageRepr.convert, bind, Except.bind, hget, hgetReceipts, hgetTraces,
      ensureLen_eq htx, ensureLen_eq htrace, ensureLen_eq hreceipt, swapRemove_eq htx,
      swapRemove_eq htrace, swapRemove_eq hreceipt]
    rfl
  · refine readRecord_eq hindex h64 hfee ?_
    simp only [IndexDataStorageRepr.getTx, bind, Except.bind, hget, ensureLen_eq htx,
      swapRemove_eq htx]
    rfl
  · refine readRecord_eq hindex h64 hfee ?_
    simp only [IndexDataStorageRepr.getReceipt, bind, Except.bind, hgetReceipts,
      ensureLen_eq hreceipt, swapRemove_eq hreceipt]
    rfl
  · refine readRecord_eq hindex h64 hfee ?_
    simp only [IndexDataStorageRepr.getTrace, bind, Except.bind, hgetTraces,
      ensureLen_eq htrace, swapRemove_eq htrace]
    rfl

/-- The record of a transaction is read, whether it is inline or not. -/
theorem reads_encodeRecord {max : ℕ} {offsets : Option Offsets}
    (hindex : index txHash = some (encodeRecord alloy max data offsets))
    (h : Holds archive data.headerSubset.blockNumber (.marked (.v1 block))
      (.marked (.v1 receipts)) traces)
    (hblock : (alloy.block.encode block).length < 2 ^ 64)
    (hreceipts : (alloy.receiptWithLogIndex.vec.encode receipts).length < 2 ^ 64)
    (htraces : (alloy.trace.vec.encode traces).length < 2 ^ 64)
    (hdata : data.toRlp.encode.length < 2 ^ 64)
    (hfee : data.headerSubset.baseFeePerGas ≠ some 0)
    (htx : block.transactions[data.headerSubset.txIndex.toNat]? = some data.tx)
    (hreceipt : receipts[data.headerSubset.txIndex.toNat]? = some data.receipt)
    (htrace : traces[data.headerSubset.txIndex.toNat]? = some data.trace) :
    Reads index archive txHash data := by
  rw [encodeRecord] at hindex
  split at hindex
  · exact reads_reference hindex h hblock hreceipts htraces hfee htx hreceipt htrace
  · exact reads_inline hindex hdata hfee

end Reads

/-! ### The puts of a block -/

/-- The cumulative gas used before a place in a list of receipts. -/
def gasBefore (prev : UInt64) (receipts : List alloy.Receipt) : ℕ → UInt64
  | 0 => prev
  | i + 1 => (receipts[i]?.map fun r => alloy.cumulativeGasUsed r.receipt).getD 0

/-- **The fields of the header in the record at a place**, if the receipt there is this one:
the gas used is the difference of the cumulative gas to the place before. -/
def headerAt (header : alloy.Header) (idx : ℕ) (gas : UInt64) : HeaderSubset :=
  ⟨alloy.hashSlow header, alloy.number header, alloy.timestamp header, UInt64.ofNat idx, gas,
    alloy.baseFeePerGas header⟩

/-- **The puts of the transactions from `idx` on**: one for each transaction, under its hash,
with its record. -/
theorem indexRequests_eq (max : ℕ) (header : alloy.Header) (offsets : Option (List Offsets))
    (idx : ℕ) (prev : UInt64)
    (items : List (alloy.Tx × Bytes × alloy.Receipt))
    (hgas : (prev :: items.map fun x => alloy.cumulativeGasUsed x.2.2.receipt).IsChain (· ≤ ·)) :
    ∃ requests, indexRequests max header offsets idx prev items = .ok requests ∧
      requests.map Prod.fst = items.map (fun x => alloy.txHash x.1.tx) ∧
      ∀ i tx trace receipt, items[i]? = some (tx, trace, receipt) →
        (alloy.txHash tx.tx, encodeRecord alloy max
          ⟨tx, trace, receipt, headerAt header (idx + i) (alloy.cumulativeGasUsed receipt.receipt -
            gasBefore prev (items.map fun x => x.2.2) i)⟩
          (offsets.bind fun v => v[idx + i]?)) ∈ requests := by
  induction items generalizing idx prev with
  | nil => exact ⟨[], rfl, rfl, nofun⟩
  | cons item items ih =>
    obtain ⟨tx, trace, receipt⟩ := item
    rw [List.map_cons, List.isChain_cons_cons] at hgas
    obtain ⟨requests, hok, hkeys, hmem⟩ := ih (idx + 1) (alloy.cumulativeGasUsed receipt.receipt)
      hgas.2
    have hsub : subU64 (alloy.cumulativeGasUsed receipt.receipt) prev =
        .ok (alloy.cumulativeGasUsed receipt.receipt - prev) := if_pos hgas.1
    refine ⟨_, by simp only [indexRequests, bind, Except.bind, hsub, hok]; rfl, ?_, ?_⟩
    · rw [List.map_cons, List.map_cons, hkeys]
    · intro i tx' trace' receipt' hi
      cases i with
      | zero =>
        obtain ⟨rfl, rfl, rfl⟩ : tx = tx' ∧ trace = trace' ∧ receipt = receipt' := by
          simpa using hi
        exact List.mem_cons_self ..
      | succ i =>
        refine List.mem_cons_of_mem _ ?_
        have hplace := hmem i tx' trace' receipt' (by simpa using hi)
        have hbefore : gasBefore prev ((tx, trace, receipt) :: items |>.map fun x => x.2.2)
            (i + 1) = gasBefore (alloy.cumulativeGasUsed receipt.receipt)
              (items.map fun x => x.2.2) i := by
          cases i with
          | zero => rfl
          | succ i => rfl
        rw [hbefore, show idx + (i + 1) = idx + 1 + i by omega]
        exact hplace

/-- Indexing succeeds only on cumulative gas that does not decrease. -/
theorem isChain_of_indexRequests {max idx : ℕ} {header : alloy.Header}
    {offsets : Option (List Offsets)} {prev : UInt64}
    {items : List (alloy.Tx × Bytes × alloy.Receipt)} {requests : List (B256 × Bytes)}
    (h : indexRequests max header offsets idx prev items = .ok requests) :
    (prev :: items.map fun x => alloy.cumulativeGasUsed x.2.2.receipt).IsChain (· ≤ ·) := by
  induction items generalizing idx prev requests with
  | nil => simp
  | cons item items ih =>
    obtain ⟨tx, trace, receipt⟩ := item
    rw [indexRequests] at h
    obtain ⟨gas, hgas, h⟩ := bind_eq_ok.mp h
    obtain ⟨rest, hrest, -⟩ := bind_eq_ok.mp h
    have hle : prev ≤ alloy.cumulativeGasUsed receipt.receipt := by
      rw [subU64] at hgas
      split_ifs at hgas with hle
      exact hle
    rw [List.map_cons, List.isChain_cons_cons]
    exact ⟨hle, ih hrest⟩

theorem length_le_encodeAll (xs : List Rlp) : xs.length ≤ (encodeAll xs).length := by
  induction xs with
  | nil => simp
  | cons x xs ih =>
    have hpos := Rlp.length_encode_pos x
    rw [Rlp.encodeAll_cons, List.length_append, List.length_cons]
    omega

/-- A block has fewer transactions than bytes. -/
theorem length_transactions_le (block : alloy.Block) :
    block.transactions.length ≤ (alloy.block.encode block).length := by
  have hlen := length_le_encodeAll (block.transactions.map alloy.txWithSender.toRlp)
  have hmem : Rlp.list (block.transactions.map alloy.txWithSender.toRlp) ∈
      block.items alloy.header alloy.withdrawal alloy.txWithSender :=
    List.mem_cons_of_mem _ (List.mem_cons_self ..)
  have hlist := length_encode_le hmem
  rw [length_encode_list] at hlist
  have hblock := length_encode_list (block.items alloy.header alloy.withdrawal alloy.txWithSender)
  show _ ≤ (encode (.list (block.items alloy.header alloy.withdrawal alloy.txWithSender))).length
  rw [List.length_map] at hlen
  omega

/-- The header fields and the gas in the record of a transaction of a block. -/
def recordAt (block : alloy.Block) (receipts : List alloy.Receipt) (i : ℕ) (tx : alloy.Tx)
    (trace : Bytes) (receipt : alloy.Receipt) : TxIndexedData alloy :=
  ⟨tx, trace, receipt, headerAt block.header i
    (alloy.cumulativeGasUsed receipt.receipt - gasBefore 0 receipts i)⟩

/-- **A block that can be indexed**: as many receipts and traces as transactions, distinct
transaction hashes, cumulative gas that does not decrease, and a base fee that is absent or
positive. What is stored of it are vectors of bytes, so their lengths fit `isize`. -/
structure Indexable (block : alloy.Block) (receipts : List alloy.Receipt) (traces : List Bytes)
    (offsets : Option (List Offsets)) : Prop where
  numTraces : traces.length = block.transactions.length
  numReceipts : receipts.length = block.transactions.length
  numOffsets : ∀ v ∈ offsets, v.length = block.transactions.length
  hashes : (block.transactions.map fun tx => alloy.txHash tx.tx).Nodup
  gas : (receipts.map fun r => alloy.cumulativeGasUsed r.receipt).IsChain (· ≤ ·)
  fee : alloy.baseFeePerGas block.header ≠ some 0
  blockLen : (BlockStorageRepr.v1 block).encode.length < 2 ^ 63
  receiptsLen : (ReceiptStorageRepr.v1 receipts).encode.length < 2 ^ 63
  tracesLen : (alloy.trace.vec.encode traces).length < 2 ^ 63
  recordLen : ∀ i tx trace receipt, block.transactions[i]? = some tx → traces[i]? = some trace →
    receipts[i]? = some receipt → (IndexDataStorageRepr.inlineV1
      (recordAt block receipts i tx trace receipt)).encode.length < 2 ^ 63

section Threshold

variable {block : alloy.Block} {receipts : List alloy.Receipt} {traces : List Bytes}
  {offsets : Option (List Offsets)}

/-- The puts of a block with as many receipts and traces as transactions, whose cumulative gas
does not decrease. -/
theorem indexBlock_eq_ok (htraces : traces.length = block.transactions.length)
    (hreceipts : receipts.length = block.transactions.length)
    (hoffsets : ∀ v ∈ offsets, v.length = block.transactions.length)
    (hgasUsed : (receipts.map fun r => alloy.cumulativeGasUsed r.receipt).IsChain (· ≤ ·))
    (max : ℕ) :
    ∃ puts, indexBlock max block traces receipts offsets = .ok puts ∧
      puts.map Prod.fst = block.transactions.map (fun tx => alloy.txHash tx.tx) ∧
      ∀ i tx trace receipt, block.transactions[i]? = some tx → traces[i]? = some trace →
        receipts[i]? = some receipt → (alloy.txHash tx.tx, encodeRecord alloy max
          (recordAt block receipts i tx trace receipt) (offsets.bind fun v => v[i]?)) ∈ puts := by
  -- The three lists are walked together.
  have htx : (block.transactions.zip (traces.zip receipts)).map Prod.fst = block.transactions :=
    List.map_fst_zip (by rw [List.length_zip]; omega)
  have hsnd : (block.transactions.zip (traces.zip receipts)).map Prod.snd =
      traces.zip receipts := List.map_snd_zip (by rw [List.length_zip]; omega)
  have hreceipt : (block.transactions.zip (traces.zip receipts)).map (fun x => x.2.2) =
      receipts := by
    have hmap := congrArg (List.map Prod.snd) hsnd
    rw [List.map_map, List.map_snd_zip (by omega)] at hmap
    exact hmap
  have hgas : ((0 : UInt64) :: (block.transactions.zip (traces.zip receipts)).map fun x =>
      alloy.cumulativeGasUsed x.2.2.receipt).IsChain (· ≤ ·) := by
    have hmap := congrArg (List.map fun r => alloy.cumulativeGasUsed r.receipt) hreceipt
    rw [List.map_map] at hmap
    rw [show (block.transactions.zip (traces.zip receipts)).map (fun x =>
      alloy.cumulativeGasUsed x.2.2.receipt) = _ from hmap]
    exact hgasUsed.cons fun g _ => UInt64.zero_le
  obtain ⟨puts, hputs, hkeys, hmem⟩ := indexRequests_eq max block.header offsets 0 0 _ hgas
  refine ⟨puts, ?_, ?_, ?_⟩
  · have hcounts : ¬(block.transactions.length ≠ traces.length ∨ traces.length ≠ receipts.length ∨
        ∃ v ∈ offsets, receipts.length ≠ v.length) := by
      rintro (hne | hne | ⟨v, hv, hne⟩)
      · omega
      · omega
      · have := hoffsets v hv
        omega
    exact (if_neg hcounts).trans hputs
  · have hmap := congrArg (List.map fun tx => alloy.txHash tx.tx) htx
    rw [List.map_map] at hmap
    exact hkeys.trans hmap
  · intro i tx trace receipt hi htrace hreceipt'
    have hitem : (block.transactions.zip (traces.zip receipts))[i]? =
        some (tx, trace, receipt) := by
      rw [List.getElem?_zip_eq_some, List.getElem?_zip_eq_some]
      exact ⟨hi, htrace, hreceipt'⟩
    have hput := hmem i tx trace receipt hitem
    rw [hreceipt, Nat.zero_add] at hput
    exact hput

/-- The puts of an indexable block. -/
theorem Indexable.indexBlock (h : Indexable block receipts traces offsets) (max : ℕ) :
    ∃ puts, indexBlock max block traces receipts offsets = .ok puts ∧
      puts.map Prod.fst = block.transactions.map (fun tx => alloy.txHash tx.tx) ∧
      ∀ i tx trace receipt, block.transactions[i]? = some tx → traces[i]? = some trace →
        receipts[i]? = some receipt → (alloy.txHash tx.tx, encodeRecord alloy max
          (recordAt block receipts i tx trace receipt) (offsets.bind fun v => v[i]?)) ∈ puts :=
  indexBlock_eq_ok h.numTraces h.numReceipts h.numOffsets h.gas max

/-- The place of a transaction in its block fits a word. -/
theorem Indexable.toNat_ofNat (h : Indexable block receipts traces offsets) {i : ℕ}
    (hi : i < block.transactions.length) : (UInt64.ofNat i).toNat = i := by
  have hcount := length_transactions_le block
  have hlen : (alloy.block.encode block).length + 2 < 2 ^ 63 := h.blockLen
  exact UInt64.toNat_ofNat_of_lt' (by
    show i < 2 ^ 64
    omega)

/-- What is in the index under the hashes of a block are records of its transactions, each under
a limit of its own. -/
def OwnRecords (index : B256 → Option Bytes) (block : alloy.Block) (receipts : List alloy.Receipt)
    (traces : List Bytes) : Prop :=
  ∀ i tx trace receipt, block.transactions[i]? = some tx → traces[i]? = some trace →
    receipts[i]? = some receipt → ∀ bytes, index (alloy.txHash tx.tx) = some bytes →
    ∃ max offsets, bytes = encodeRecord alloy max (recordAt block receipts i tx trace receipt)
      offsets

/-- What a reader finds of a transaction of an indexable block whose record is in the index. -/
theorem Indexable.reads_of_record (h : Indexable block receipts traces offsets)
    {index : B256 → Option Bytes} {archive : ArchiveKey → Option Bytes}
    (hholds : Holds archive (alloy.number block.header)
      (.marked (.v1 block)) (.marked (.v1 receipts)) traces) {i : ℕ} {tx : alloy.Tx}
    {trace : Bytes} {receipt : alloy.Receipt} (hi : block.transactions[i]? = some tx)
    (htrace : traces[i]? = some trace) (hreceipt : receipts[i]? = some receipt) {max : ℕ}
    {recordOffsets : Option Offsets} (hindex : index (alloy.txHash tx.tx) =
      some (encodeRecord alloy max (recordAt block receipts i tx trace receipt) recordOffsets)) :
    Reads index archive (alloy.txHash tx.tx) (recordAt block receipts i tx trace receipt) := by
  have hplace := h.toNat_ofNat (List.getElem?_eq_some_iff.mp hi).1
  have hblock : (alloy.block.encode block).length + 2 < 2 ^ 63 := h.blockLen
  have hreceipts : (alloy.receiptWithLogIndex.vec.encode receipts).length + 2 < 2 ^ 63 :=
    h.receiptsLen
  have hrecord : (recordAt block receipts i tx trace receipt).toRlp.encode.length + 2 < 2 ^ 63 :=
    h.recordLen i tx trace receipt hi htrace hreceipt
  have htraces := h.tracesLen
  refine reads_encodeRecord hindex hholds (by omega) (by omega) (by omega) (by omega) h.fee ?_ ?_ ?_
  · show block.transactions[(UInt64.ofNat i).toNat]? = some tx
    rw [hplace, hi]
  · show receipts[(UInt64.ofNat i).toNat]? = some receipt
    rw [hplace, hreceipt]
  · show traces[(UInt64.ofNat i).toNat]? = some trace
    rw [hplace, htrace]

/-- **What a reader finds of an indexable block**, under any limit: the index may have had some of
the records before, and others are put into it later. -/
theorem Indexable.reads (h : Indexable block receipts traces offsets)
    {archive : ArchiveKey → Option Bytes} (hholds : Holds archive (alloy.number block.header)
      (.marked (.v1 block)) (.marked (.v1 receipts)) traces) {index : B256 → Option Bytes}
    (hown : OwnRecords index block receipts traces) (max : ℕ) :
    ∃ puts, Archive.indexBlock max block traces receipts offsets = .ok puts ∧
      ∀ order, order.Perm puts → ∀ later i tx trace receipt, block.transactions[i]? = some tx →
        traces[i]? = some trace → receipts[i]? = some receipt →
        Reads (bulkPut (bulkPut index order .noClobber) later .noClobber) archive
          (alloy.txHash tx.tx) (recordAt block receipts i tx trace receipt) := by
  obtain ⟨puts, hputs, hkeys, hmem⟩ := h.indexBlock max
  refine ⟨puts, hputs, fun order hperm later i tx trace receipt hi htrace hreceipt => ?_⟩
  cases hbefore : index (alloy.txHash tx.tx) with
  | none =>
    have hnodup : (puts.map Prod.fst).Nodup := by
      rw [hkeys]
      exact h.hashes
    exact h.reads_of_record hholds hi htrace hreceipt (bulkPut_of_eq_some
      (bulkPut_of_mem hperm hnodup hbefore (hmem i tx trace receipt hi htrace hreceipt)))
  | some bytes =>
    obtain ⟨max', offsets', rfl⟩ := hown i tx trace receipt hi htrace hreceipt bytes hbefore
    exact h.reads_of_record hholds hi htrace hreceipt
      (bulkPut_of_eq_some (bulkPut_of_eq_some hbefore))

/-- **The limit for inline records is unobservable.** A block is archived with its receipts
and traces, and indexed into empty stores under two limits; then for each of its
transactions all reads give the same under both, namely the transaction, the trace and the
receipt at its place, with the gas it used. -/
theorem threshold_unobservable (archive : ArchiveKey → Option Bytes) (policy : WritePolicy)
    (max max' : ℕ) (h : Indexable block receipts traces offsets)
    (hfree : policy = .noClobber → archive (.block (alloy.number block.header)) = none ∧
      archive (.receipts (alloy.number block.header)) = none ∧
      archive (.traces (alloy.number block.header)) = none) :
    ∃ puts puts', indexBlock max block traces receipts offsets = .ok puts ∧
      indexBlock max' block traces receipts offsets = .ok puts' ∧
      ∀ order order', order.Perm puts → order'.Perm puts' → ∀ i tx trace receipt,
        block.transactions[i]? = some tx → traces[i]? = some trace →
        receipts[i]? = some receipt →
        Reads (bulkPut (fun _ => none) order .noClobber)
          (archiveAll archive block receipts traces policy) (alloy.txHash tx.tx)
          (recordAt block receipts i tx trace receipt) ∧
        Reads (bulkPut (fun _ => none) order' .noClobber)
          (archiveAll archive block receipts traces policy) (alloy.txHash tx.tx)
          (recordAt block receipts i tx trace receipt) := by
  have hholds := holds_archiveAll receipts traces hfree
  have hown : OwnRecords (fun _ => none) block receipts traces :=
    fun _ _ _ _ _ _ _ _ hbytes => (by cases hbytes)
  obtain ⟨puts, hputs, hreads⟩ := h.reads hholds hown max
  obtain ⟨puts', hputs', hreads'⟩ := h.reads hholds hown max'
  refine ⟨puts, puts', hputs, hputs', ?_⟩
  intro order order' hperm hperm' i tx trace receipt hi htrace hreceipt
  exact ⟨hreads order hperm [] i tx trace receipt hi htrace hreceipt,
    hreads' order' hperm' [] i tx trace receipt hi htrace hreceipt⟩

end Threshold

/-- The receipts of the sample block. -/
def indexedReceipts : List Alloy.sample.Receipt :=
  [⟨(21000 : UInt64), 0⟩, ⟨(63000 : UInt64), 0⟩]

theorem indexable_sample : Indexable sampleBlock indexedReceipts [[1, 2], []] none where
  numTraces := rfl
  numReceipts := rfl
  numOffsets := nofun
  hashes := by decide
  gas := by decide
  fee := by decide
  blockLen := by decide
  receiptsLen := by decide
  tracesLen := by decide
  recordLen := by
    rintro (_ | _ | i) tx trace receipt hi htrace hreceipt
    · cases hi
      cases htrace
      cases hreceipt
      decide +kernel
    · cases hi
      cases htrace
      cases hreceipt
      decide +kernel
    · cases hi

/-- The second transaction of the sample block, all inline and all by reference. -/
theorem threshold_unobservable_sample : ∃ puts puts',
    indexBlock 1000 sampleBlock [[1, 2], []] indexedReceipts none = .ok puts ∧
      indexBlock 0 sampleBlock [[1, 2], []] indexedReceipts none = .ok puts' ∧
      Reads (bulkPut (fun _ => none) puts .noClobber)
        (archiveAll (fun _ => none) sampleBlock indexedReceipts [[1, 2], []] .noClobber)
        (Alloy.sample.txHash (5 : UInt64))
        (recordAt sampleBlock indexedReceipts 1
          ⟨⟨toBe 20 8, length_toBe 20 8⟩, (5 : UInt64)⟩ [] ⟨(63000 : UInt64), 0⟩) ∧
      Reads (bulkPut (fun _ => none) puts'.reverse .noClobber)
        (archiveAll (fun _ => none) sampleBlock indexedReceipts [[1, 2], []] .noClobber)
        (Alloy.sample.txHash (5 : UInt64))
        (recordAt sampleBlock indexedReceipts 1
          ⟨⟨toBe 20 8, length_toBe 20 8⟩, (5 : UInt64)⟩ [] ⟨(63000 : UInt64), 0⟩) := by
  obtain ⟨puts, puts', hputs, hputs', hreads⟩ := threshold_unobservable (fun _ => none) .noClobber
    1000 0 indexable_sample fun _ => ⟨rfl, rfl, rfl⟩
  exact ⟨puts, puts', hputs, hputs', hreads puts puts'.reverse (.refl _) (List.reverse_perm _) 1
    ⟨⟨toBe 20 8, length_toBe 20 8⟩, (5 : UInt64)⟩ [] ⟨(63000 : UInt64), 0⟩ rfl rfl rfl⟩

end Archive

end MonadServices
