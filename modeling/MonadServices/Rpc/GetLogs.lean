import MonadServices.Archive.LogsIndex
import MonadServices.Lib.Range
import MonadServices.Rpc.Grouping

/-!
# The two ways of `eth_getLogs`

The logs of a range of blocks that pass a filter are found in one of two ways. The **scan**
goes through the blocks: it looks at the bloom filter of each header, and takes the
transactions and receipts only of a block whose bloom matches. The **index** is asked for the
transactions that may have a matching log, in any order within a block; they are grouped by
block and put in order. Both then test each log itself.

**The two ways give the same logs, in the same order, for every filter**, unless the range
crosses block `2 ^ 63`, where the index finds nothing
(`MonadServices.Rpc.index_eq_scan_iff`).
-/

namespace MonadServices

namespace Rpc

open Archive Archive.LogsIndex

variable {alloy : Alloy}

/-! ### Logs -/

/-- A log as it is returned. -/
structure RpcLog where
  inner : Archive.Log
  blockHash : B256
  blockNumber : UInt64
  blockTimestamp : UInt64
  transactionHash : B256
  transactionIndex : UInt64
  logIndex : UInt64
  deriving DecidableEq

/-- `parse_receipt_envelope`: the logs of a receipt, with their places. -/
def parseReceiptEnvelope (blockHash : B256) (blockNumber blockTimestamp txIndex : UInt64)
    (txHash : B256) (receipt : alloy.Receipt) : List RpcLog :=
  (alloy.logs receipt.receipt).zipIdx.map fun (log, logIndex) =>
    { inner := log
      blockHash := blockHash
      blockNumber := blockNumber
      blockTimestamp := blockTimestamp
      transactionHash := txHash
      transactionIndex := txIndex
      logIndex := receipt.startingLogIndex + UInt64.ofNat logIndex }

/-- `receipt_envelope_to_logs_iter`: the logs that pass the filter. -/
def receiptEnvelopeToLogsIter (logs : List RpcLog) (filter : Archive.Filter) : List RpcLog :=
  logs.filter fun log => filter.passes log.inner

/-- The logs of a stream of blocks, one after the other, up to the first error. -/
def collectLogs {ε : Type} (stream : List (Except ε (UInt64 × List RpcLog))) :
    Except ε (List RpcLog) := do
  let blocks ← stream.mapM id
  return blocks.flatMap (·.2)

theorem collectLogs_ok {ε α : Type} (l : List α) (f : α → UInt64 × List RpcLog) :
    collectLogs (l.map fun a => (Except.ok (f a) : Except ε _)) =
      .ok (l.flatMap fun a => (f a).2) := by
  have hmap : (l.map fun a => (Except.ok (f a) : Except ε _)).mapM id = .ok (l.map f) := by
    rw [mapM_eq_ok, List.forall₂_map_left_iff, List.forall₂_map_right_iff]
    exact List.forall₂_same.mpr fun a _ => rfl
  rw [collectLogs, hmap]
  simp [bind, Except.bind, pure, Except.pure, List.flatMap_map]

/-! ### The scan -/

/-- A header with its hash. -/
structure BlockHeader (alloy : Alloy) where
  hash : B256
  header : alloy.Header

/-- What is fetched of a block. -/
abbrev Fetched (alloy : Alloy) := BlockHeader alloy × List alloy.Tx × List alloy.Receipt

section Scan

variable (bloomHas : alloy.Header → Bytes → Bool) (filter : Archive.Filter)

/-- `matches_address`, on the bloom filter of a header. -/
def matchesAddress (header : alloy.Header) : Bool :=
  filter.address.isEmpty || filter.address.any fun a => bloomHas header a.1

/-- `matches_topics`: at each position, some topic is in the bloom filter. -/
def matchesTopics (header : alloy.Header) : Bool :=
  filter.topics.all fun set => set.isEmpty || set.any fun t => bloomHas header t.1

/-- `filter_match`. -/
def filterMatch (header : alloy.Header) : Bool :=
  matchesAddress bloomHas filter header && matchesTopics bloomHas filter header

/-- What the buffer or triedb give of a block they have: of one whose bloom does not match,
only the header. -/
def bloomFiltered (block : alloy.Block) (receipts : List alloy.Receipt) : Fetched alloy :=
  let header := ⟨alloy.hashSlow block.header, block.header⟩
  if filterMatch bloomHas filter block.header then (header, block.transactions, receipts)
  else (header, [], [])

/-- `fetch_bloom_filtered_header_transactions_receipts_from_archive`. -/
def fetchFromArchive (archive : ArchiveKey → Option Bytes) (n : UInt64) :
    Except Archive.Fault (Fetched alloy) := do
  let block ← getBlockByNumber archive n
  let header := ⟨alloy.hashSlow block.header, block.header⟩
  if filterMatch bloomHas filter block.header then
    let receipts ← getBlockReceipts archive n
    return (header, block.transactions, receipts)
  else return (header, [], [])

/-- The blocks that the buffer or triedb have are taken from there, the others from the
archive. -/
def fetch (recent : UInt64 → Option (FinalBlock alloy)) (archive : ArchiveKey → Option Bytes)
    (n : UInt64) : Except Archive.Fault (Fetched alloy) :=
  match recent n with
  | some b => .ok (bloomFiltered bloomHas filter b.block b.receipts)
  | none => fetchFromArchive bloomHas filter archive n

/-- `header_transactions_receipts_to_block_number_logs`. -/
def headerTransactionsReceiptsToBlockNumberLogs (fetched : Fetched alloy) :
    Except Archive.Fault (UInt64 × List RpcLog) :=
  let (header, transactions, receipts) := fetched
  if transactions.length ≠ receipts.length then
    .error (.error "transactions and receipts length does not match")
  else
    .ok (alloy.number header.header,
      (transactions.zip receipts).zipIdx.flatMap fun ((tx, receipt), txIndex) =>
        receiptEnvelopeToLogsIter
          (parseReceiptEnvelope header.hash (alloy.number header.header)
            (alloy.timestamp header.header) (UInt64.ofNat txIndex) (alloy.txHash tx.tx) receipt)
          filter)

/-- The block numbers of a range, ends included. -/
def blockRange (fromBlock toBlock : UInt64) : List UInt64 :=
  (List.range' fromBlock.toNat (toBlock.toNat + 1 - fromBlock.toNat)).map UInt64.ofNat

/-- **The logs that the scan finds.** -/
def scanLogs (recent : UInt64 → Option (FinalBlock alloy))
    (archive : ArchiveKey → Option Bytes) (fromBlock toBlock : UInt64) :
    Except Archive.Fault (List RpcLog) :=
  collectLogs <| (blockRange fromBlock toBlock).map fun n =>
    fetch bloomHas filter recent archive n >>= headerTransactionsReceiptsToBlockNumberLogs filter

end Scan

/-! ### The index -/

/-- How the index path fails, other than by a failed assertion. -/
inductive IndexFault where
  | noLogIndex
  | latest (e : Archive.Fault)
  | latestNotFound
  | behind (latestIndexedTx toBlock : UInt64)
  | query (e : QueryFault)

/-- The checks of `get_receipts_stream_using_index` before the query. -/
def checkIndexed (hasLogIndex : Bool) (latestIndexed : Except Archive.Fault (Option UInt64))
    (toBlock : UInt64) : Except IndexFault Unit :=
  if !hasLogIndex then .error .noLogIndex
  else match latestIndexed with
    | .error e => .error (.latest e)
    | .ok none => .error .latestNotFound
    | .ok (some latestIndexedTx) =>
      if latestIndexedTx < toBlock then .error (.behind latestIndexedTx toBlock) else .ok ()

/-- An item of the query, as it comes to the grouping. -/
def parseItem (data : TxIndexedData alloy) : UInt64 × UInt64 × List RpcLog :=
  (data.headerSubset.blockNumber, data.headerSubset.txIndex,
    parseReceiptEnvelope data.headerSubset.blockHash data.headerSubset.blockNumber
      data.headerSubset.blockTimestamp data.headerSubset.txIndex (alloy.txHash data.tx.tx)
      data.receipt)

/-- **The logs that the index path finds**, or how it fails: `cursor` is what the query has
returned. -/
def indexLogs (alloy : Alloy) (c : Collection) (archive : ArchiveKey → Option Bytes)
    (hasLogIndex : Bool) (latestIndexed : Except Archive.Fault (Option UInt64)) (toBlock : UInt64)
    (filter : Archive.Filter) (cursor : List (Σ _ : Mongo.Key, Mongo.KeyValueDocument)) :
    Except AssertFailed (Except IndexFault (List RpcLog)) :=
  match checkIndexed hasLogIndex latestIndexed toBlock with
  | .error e => .ok (.error e)
  | .ok () => do
    let stream ← groupReceipts none [] <| cursor.map fun doc =>
      (c.item archive doc).map fun data : TxIndexedData alloy => parseItem data
    return (collectLogs (stream.map fun group =>
      group.map fun (n, receipts) =>
        (n, receipts.flatMap fun logs => receiptEnvelopeToLogsIter logs filter))).mapError .query

/-- **The two ways agree** for a filter: whatever the order in which the index returns what it
finds, no assertion fails, and logs that it finds without an error are those of the scan. -/
def Agree (bloomHas : alloy.Header → Bytes → Bool)
    (recent : UInt64 → Option (FinalBlock alloy)) (c : Collection)
    (archive : ArchiveKey → Option Bytes) (hasLogIndex : Bool)
    (latestIndexed : Except Archive.Fault (Option UInt64)) (fromBlock toBlock : UInt64)
    (filter : Archive.Filter) : Prop :=
  ∀ cursor, c.Answers (query fromBlock toBlock filter) cursor →
    ∃ r, indexLogs alloy c archive hasLogIndex latestIndexed toBlock filter cursor = .ok r ∧
      ∀ logs, r = .ok logs →
        scanLogs bloomHas filter recent archive fromBlock toBlock = .ok logs

/-! ### The transactions of a range, in order -/

/-- A transaction of the chain, with its place. -/
structure Placed (alloy : Alloy) where
  number : UInt64
  block : FinalBlock alloy
  index : ℕ
  tx : alloy.Tx
  receipt : alloy.Receipt

namespace Placed

variable (p : Placed alloy)

/-- The logs of the transaction. -/
def logs : List RpcLog :=
  parseReceiptEnvelope (alloy.hashSlow p.block.block.header) p.number
    (alloy.timestamp p.block.block.header) (UInt64.ofNat p.index) (alloy.txHash p.tx.tx)
    p.receipt

/-- The transaction as it comes to the grouping. -/
def item : UInt64 × UInt64 × List RpcLog := (p.number, UInt64.ofNat p.index, p.logs)

end Placed

/-- The transactions of a block of the chain. -/
def placedIn (chain : Chain alloy) (n : UInt64) : List (Placed alloy) :=
  match chain.block n with
  | none => []
  | some b => (b.block.transactions.zip b.receipts).zipIdx.map fun ((tx, receipt), i) =>
      ⟨n, b, i, tx, receipt⟩

/-- The transactions of a range of the chain. -/
def placed (chain : Chain alloy) (fromBlock toBlock : UInt64) : List (Placed alloy) :=
  (blockRange fromBlock toBlock).flatMap (placedIn chain)

section Placed

variable {chain : Chain alloy} {fromBlock toBlock n : UInt64} {p q : Placed alloy}

theorem mem_blockRange : n ∈ blockRange fromBlock toBlock ↔ fromBlock ≤ n ∧ n ≤ toBlock :=
  mem_rangeInclusive

/-- The numbers of a range increase. -/
theorem pairwise_blockRange : (blockRange fromBlock toBlock).Pairwise (· < ·) :=
  pairwise_rangeInclusive

theorem mem_placedIn :
    p ∈ placedIn chain n ↔ p.number = n ∧ chain.block n = some p.block ∧
      ∃ trace, p.block.At p.index p.tx trace p.receipt := by
  rw [placedIn]
  cases hb : chain.block n with
  | none => simp
  | some b =>
    simp only [List.mem_map, Prod.exists, List.mem_zipIdx_iff_getElem?,
      List.getElem?_zip_eq_some]
    constructor
    · rintro ⟨tx, receipt, i, ⟨htx, hreceipt⟩, rfl⟩
      obtain ⟨tx', trace, receipt', hat⟩ :=
        FinalBlock.exists_at (List.getElem?_eq_some_iff.mp htx).1
      exact ⟨rfl, rfl, trace, htx, hat.trace, hreceipt⟩
    · rintro ⟨rfl, hblock, trace, hat⟩
      cases hblock
      exact ⟨p.tx, p.receipt, p.index, ⟨hat.tx, hat.receipt⟩, rfl⟩

theorem mem_placed :
    p ∈ placed chain fromBlock toBlock ↔ fromBlock ≤ p.number ∧ p.number ≤ toBlock ∧
      chain.block p.number = some p.block ∧
      ∃ trace, p.block.At p.index p.tx trace p.receipt := by
  simp only [placed, List.mem_flatMap, mem_blockRange, mem_placedIn]
  constructor
  · rintro ⟨n, ⟨hfrom, hto⟩, rfl, hblock, hat⟩
    exact ⟨hfrom, hto, hblock, hat⟩
  · rintro ⟨hfrom, hto, hblock, hat⟩
    exact ⟨p.number, ⟨hfrom, hto⟩, rfl, hblock, hat⟩

/-- **The transactions of a range are in the order of the chain.** -/
theorem pairwise_placed :
    (placed chain fromBlock toBlock).Pairwise fun p q => Before p.item q.item := by
  rw [placed, List.pairwise_flatMap]
  constructor
  · intro n hn
    -- In a block, by the places.
    have hwords : ∀ p ∈ placedIn chain n, p.number = n ∧ (UInt64.ofNat p.index).toNat = p.index :=
      fun p hp => by
        obtain ⟨hnumber, -, trace, hat⟩ := mem_placedIn.mp hp
        exact ⟨hnumber, hat.toNat_ofNat⟩
    have hindex : (placedIn chain n).Pairwise fun p q => p.index < q.index := by
      rw [placedIn]
      cases chain.block n with
      | none => exact .nil
      | some b =>
        rw [List.pairwise_map]
        have hplaces := List.pairwise_lt_range' (s := 0)
          (n := (b.block.transactions.zip b.receipts).length)
        rw [← List.zipIdx_map_snd, List.pairwise_map] at hplaces
        exact hplaces
    refine hindex.imp_of_mem ?_
    intro p q hp hq hlt
    refine .inr ⟨(hwords p hp).1.trans (hwords q hq).1.symm, ?_⟩
    rw [UInt64.lt_iff_toNat_lt]
    show (UInt64.ofNat p.index).toNat < (UInt64.ofNat q.index).toNat
    rw [(hwords p hp).2, (hwords q hq).2]
    exact hlt
  · refine pairwise_blockRange.imp ?_
    intro m n hlt p hp q hq
    left
    show p.number < q.number
    rw [(mem_placedIn.mp hp).1, (mem_placedIn.mp hq).1]
    exact hlt

/-- A transaction has one place in the chain. -/
theorem eq_of_txKey (hp : p ∈ placed chain fromBlock toBlock)
    (hq : q ∈ placed chain fromBlock toBlock) (h : txKey p.tx = txKey q.tx) : p = q := by
  obtain ⟨-, -, hpblock, ptrace, hpat⟩ := mem_placed.mp hp
  obtain ⟨-, -, hqblock, qtrace, hqat⟩ := mem_placed.mp hq
  have hhash : alloy.txHash p.tx.tx = alloy.txHash q.tx.tx :=
    Subtype.ext (encodeHex_injective h)
  obtain ⟨hn, hi⟩ := chain.hashes _ _ _ _ _ _ hpblock hpat _ _ _ _ _ _ hqblock hqat hhash
  obtain ⟨n, b, i, tx, receipt⟩ := p
  obtain ⟨n', b', i', tx', receipt'⟩ := q
  dsimp only at hn hi hpblock hqblock hpat hqat
  subst hn hi
  rw [hpblock] at hqblock
  cases hqblock
  have htx := hpat.tx.symm.trans hqat.tx
  have hreceipt := hpat.receipt.symm.trans hqat.receipt
  cases htx
  cases hreceipt
  rfl

end Placed

/-! ### What the scan finds -/

/-- The bloom filter of a header covers the logs of its block. -/
def BloomCovers (bloomHas : alloy.Header → Bytes → Bool) (chain : Chain alloy) : Prop :=
  ∀ n b, chain.block n = some b → ∀ receipt ∈ b.receipts, ∀ log ∈ alloy.logs receipt.receipt,
    bloomHas b.block.header log.address.1 = true ∧
      ∀ topic ∈ log.topics, bloomHas b.block.header topic.1 = true

section Scan

variable {bloomHas : alloy.Header → Bytes → Bool} {chain : Chain alloy} {filter : Archive.Filter}
  {archive : ArchiveKey → Option Bytes} {recent : UInt64 → Option (FinalBlock alloy)}
  {fromBlock toBlock n : UInt64} {b : FinalBlock alloy}

theorem map_inner_logs (p : Placed alloy) :
    p.logs.map (·.inner) = alloy.logs p.receipt.receipt := by
  simp [Placed.logs, parseReceiptEnvelope, Function.comp_def, List.zipIdx_map_fst]

/-- No log passes a filter whose blooms the header does not match. -/
theorem passes_eq_false_of_bloom (hcovers : BloomCovers bloomHas chain)
    (hb : chain.block n = some b) (hmatch : filterMatch bloomHas filter b.block.header = false)
    {receipt : alloy.Receipt} (hreceipt : receipt ∈ b.receipts) {log : Archive.Log}
    (hlog : log ∈ alloy.logs receipt.receipt) : filter.passes log = false := by
  obtain ⟨haddress, htopics⟩ := hcovers n b hb receipt hreceipt log hlog
  by_contra hpasses
  rw [Bool.not_eq_false, Archive.Filter.passes, Bool.and_eq_true] at hpasses
  refine absurd hmatch ?_
  rw [Bool.not_eq_false, filterMatch, Bool.and_eq_true]
  constructor
  · simp only [Archive.Filter.filterAddress, filterSetMatches, Bool.or_eq_true, decide_eq_true_eq]
      at hpasses
    rw [matchesAddress, Bool.or_eq_true, List.any_eq_true]
    exact hpasses.1.imp_right fun hin => ⟨_, hin, haddress⟩
  · rw [matchesTopics, List.all_eq_true]
    intro set hset
    obtain ⟨i, hi⟩ := List.mem_iff_getElem?.mp hset
    rw [Bool.or_eq_true, List.any_eq_true]
    by_cases hempty : set = []
    · exact .inl (by simp [hempty])
    · obtain ⟨topic, hin, htopic⟩ := mem_of_filterTopics hpasses.2 hi hempty
      exact .inr ⟨topic, hin, htopics topic (List.mem_of_getElem? htopic)⟩

/-- An archived block is fetched as a recent one is. -/
theorem fetchFromArchive_eq
    (h : Holds archive n (.marked (.v1 b.block)) (.marked (.v1 b.receipts)) b.traces) :
    fetchFromArchive bloomHas filter archive n =
      .ok (bloomFiltered bloomHas filter b.block b.receipts) := by
  have hblock : (alloy.block.encode b.block).length + 2 < 2 ^ 63 := b.blockLen
  have hreceipts : (alloy.receiptWithLogIndex.vec.encode b.receipts).length + 2 < 2 ^ 63 :=
    b.receiptsLen
  simp only [fetchFromArchive, bloomFiltered, getBlockByNumber_of_holds h (by omega),
    getBlockReceipts_eq h (by omega), bind, Except.bind, pure, Except.pure]
  split_ifs <;> rfl

/-- The logs of a block that pass the filter. -/
theorem logs_of_block (hcovers : BloomCovers bloomHas chain) (hb : chain.block n = some b) :
    headerTransactionsReceiptsToBlockNumberLogs filter
      (bloomFiltered bloomHas filter b.block b.receipts) =
      .ok (n, (placedIn chain n).flatMap fun p => receiptEnvelopeToLogsIter p.logs filter) := by
  have hnumber := chain.number n b hb
  cases hmatch : filterMatch bloomHas filter b.block.header with
  | true =>
    simp only [bloomFiltered, hmatch, if_true, headerTransactionsReceiptsToBlockNumberLogs,
      b.numReceipts, ne_eq, not_true_eq_false, if_false, hnumber, placedIn, hb,
      List.flatMap_map]
    rfl
  | false =>
    have hnone : (placedIn chain n).flatMap
        (fun p => receiptEnvelopeToLogsIter p.logs filter) = [] := by
      rw [List.flatMap_eq_nil_iff]
      intro p hp
      obtain ⟨-, hblock, trace, hat⟩ := mem_placedIn.mp hp
      rw [hb] at hblock
      cases hblock
      rw [receiptEnvelopeToLogsIter, List.filter_eq_nil_iff]
      intro log hlog
      rw [Bool.not_eq_true]
      refine passes_eq_false_of_bloom hcovers hb hmatch (List.mem_of_getElem? hat.receipt) ?_
      rw [← map_inner_logs]
      exact List.mem_map_of_mem hlog
    simp [bloomFiltered, hmatch, headerTransactionsReceiptsToBlockNumberLogs, hnumber, hnone]

/-- **The scan finds the logs of the range that pass the filter, in the order of the
chain.** -/
theorem scanLogs_eq (hcovers : BloomCovers bloomHas chain)
    (harchived : Archived chain archive fromBlock toBlock)
    (hrecent : ∀ n b, recent n = some b → chain.block n = some b) :
    scanLogs bloomHas filter recent archive fromBlock toBlock =
      .ok ((placed chain fromBlock toBlock).flatMap fun p =>
        receiptEnvelopeToLogsIter p.logs filter) := by
  have hblock : ∀ n ∈ blockRange fromBlock toBlock,
      (fetch bloomHas filter recent archive n >>=
        headerTransactionsReceiptsToBlockNumberLogs filter) =
      .ok (n, (placedIn chain n).flatMap fun p => receiptEnvelopeToLogsIter p.logs filter) := by
    intro n hn
    obtain ⟨hfrom, hto⟩ := mem_blockRange.mp hn
    obtain ⟨b, hb, hholds⟩ := harchived n hfrom hto
    have hfetch : fetch bloomHas filter recent archive n =
        .ok (bloomFiltered bloomHas filter b.block b.receipts) := by
      rw [fetch]
      cases hr : recent n with
      | none => exact fetchFromArchive_eq hholds
      | some b' =>
        have hsame := (hrecent n b' hr).symm.trans hb
        cases hsame
        rfl
    rw [hfetch]
    exact logs_of_block hcovers hb
  rw [scanLogs, List.map_congr_left hblock, collectLogs_ok, placed]
  simp [List.flatMap_assoc]

end Scan

/-! ### What the index finds -/

section Index

variable {chain : Chain alloy} {c : Collection} {filter : Archive.Filter}
  {archive : ArchiveKey → Option Bytes} {fromBlock toBlock : UInt64}
  {cursor : List (Σ _ : Mongo.Key, Mongo.KeyValueDocument)}

/-- **A document that the query returns is that of a transaction of the range**, and what is
read of it is the transaction with its place. -/
theorem exists_placed (hrange : ¬ Crosses fromBlock toBlock) (hle : fromBlock ≤ toBlock)
    (harchived : Archived chain archive fromBlock toBlock)
    (hindexed : c.Indexed chain fromBlock toBlock)
    (hcursor : c.Answers (query fromBlock toBlock filter) cursor)
    {doc : Σ _ : Mongo.Key, Mongo.KeyValueDocument} (hdoc : doc ∈ cursor) :
    ∃ p : Placed alloy, (p ∈ placed chain fromBlock toBlock ∧
        c.found (query fromBlock toBlock filter) (txKey p.tx) = true) ∧
      doc.1 = txKey p.tx ∧
      c.fields doc.1 = some (fieldsOf p.number (alloy.logs p.receipt.receipt)) ∧
      (c.item archive doc).map (fun data : TxIndexedData alloy => parseItem data) =
        .ok p.item := by
  obtain ⟨key, value⟩ := doc
  have hfound := List.mem_filter.mp (hcursor.perm.mem_iff.mp hdoc)
  obtain ⟨hentry, hfound⟩ := hfound
  -- It has fields, so that it belongs to a transaction of the chain.
  have hfields := hfound
  rw [Collection.found, Option.any_eq_true] at hfields
  obtain ⟨f, hf, hall⟩ := hfields
  obtain ⟨n, b, i, tx, trace, receipt, hb, hat, hkey, hfieldsOf⟩ := hindexed.enriched key f hf
  subst hkey hfieldsOf
  -- The query asks for the range, so that it is one of the range.
  have hnumber := List.all_eq_true.mp hall (.blockNumber (asI64 fromBlock) (asI64 toBlock))
    (by simp [query])
  obtain ⟨hfrom, hto⟩ := (asI64_mem_iff (n := n) hrange hle).mp (of_decide_eq_true hnumber)
  obtain ⟨b', hb', hholds⟩ := harchived n hfrom hto
  rw [hb] at hb'
  cases hb'
  have hnumber' := chain.number n b hb
  have hitem := (hindexed.record n b i tx trace receipt hfrom hto hb hat).item
    (hnumber'.symm ▸ hholds) hat (AList.mem_lookup_iff.mpr hentry)
  refine ⟨⟨n, b, i, tx, receipt⟩, ⟨mem_placed.mpr ⟨hfrom, hto, hb, trace, hat⟩, hfound⟩, rfl,
    hf, ?_⟩
  subst hnumber'
  rw [hitem]
  rfl

/-- **What the query returns are the transactions of the range that it selects**, by block
numbers and otherwise in any order. -/
theorem cursor_placed (hrange : ¬ Crosses fromBlock toBlock) (hle : fromBlock ≤ toBlock)
    (harchived : Archived chain archive fromBlock toBlock)
    (hindexed : c.Indexed chain fromBlock toBlock)
    (hcursor : c.Answers (query fromBlock toBlock filter) cursor) :
    ∃ found : List (Placed alloy),
      cursor.map (fun doc =>
        (c.item archive doc).map fun data : TxIndexedData alloy => parseItem data) =
        (found.map Placed.item).map .ok ∧
      found.Perm ((placed chain fromBlock toBlock).filter fun p =>
        c.found (query fromBlock toBlock filter) (txKey p.tx)) ∧
      found.Pairwise fun p q => p.number ≤ q.number := by
  have hplaced := fun doc : {doc // doc ∈ cursor} =>
    exists_placed hrange hle harchived hindexed hcursor doc.2
  choose place hplace hkey hfields hitem using hplaced
  have hnodup : cursor.Nodup :=
    (hcursor.perm.nodup_iff.mpr ((List.NodupKeys.nodup c.kv.nodupKeys).filter _))
  refine ⟨cursor.attach.map place, ?_, ?_, ?_⟩
  · rw [List.map_map, List.map_map]
    conv_lhs => rw [← List.attach_map_subtype_val cursor, List.map_map]
    exact List.map_congr_left fun doc _ => hitem doc
  · refine (List.perm_ext_iff_of_nodup ?_ ?_).mpr ?_
    · -- Two documents of one transaction have the same key.
      refine List.Nodup.map_on ?_ (List.nodup_attach.mpr hnodup)
      rintro ⟨⟨k, v⟩, hd⟩ - ⟨⟨k', v'⟩, hd'⟩ - heq
      have hk : k = k' := (hkey ⟨⟨k, v⟩, hd⟩).trans (heq ▸ (hkey ⟨⟨k', v'⟩, hd'⟩).symm)
      subst hk
      have hv := AList.mem_lookup_iff.mpr (List.mem_filter.mp (hcursor.perm.mem_iff.mp hd)).1
      have hv' := AList.mem_lookup_iff.mpr (List.mem_filter.mp (hcursor.perm.mem_iff.mp hd')).1
      rw [Option.mem_def] at hv hv'
      rw [hv] at hv'
      cases hv'
      rfl
    · refine List.Nodup.filter _ (pairwise_placed.imp ?_)
      rintro p q hbefore rfl
      rcases hbefore with hlt | ⟨-, hlt⟩
      · exact UInt64.lt_irrefl _ hlt
      · exact UInt64.lt_irrefl _ hlt
    · intro p
      rw [List.mem_filter]
      constructor
      · intro hp
        obtain ⟨doc, -, rfl⟩ := List.mem_map.mp hp
        exact hplace doc
      · -- The document of a selected transaction is returned.
        rintro ⟨hp, hsel⟩
        obtain ⟨hfrom, hto, hb, trace, hat⟩ := mem_placed.mp hp
        obtain ⟨max, offsets, -, hlookup⟩ := hindexed.record _ _ _ _ _ _ hfrom hto hb hat
        have hd := hcursor.perm.mem_iff.mpr
          (List.mem_filter.mpr ⟨AList.mem_lookup_iff.mp hlookup, hsel⟩)
        refine List.mem_map.mpr ⟨⟨_, hd⟩, List.mem_attach _ _, ?_⟩
        exact eq_of_txKey (hplace _).1 hp (hkey ⟨_, hd⟩).symm
  · rw [List.pairwise_map]
    have hsorted := hcursor.sorted
    rw [← List.attach_map_subtype_val cursor, List.pairwise_map] at hsorted
    refine hsorted.imp ?_
    intro d d' hle'
    have hnum := hle' _ (hfields d) _ (hfields d')
    obtain ⟨hf, ht, -⟩ := mem_placed.mp (hplace d).1
    obtain ⟨hf', ht', -⟩ := mem_placed.mp (hplace d').1
    refine (asI64_le_iff ?_).mp hnum
    rw [UInt64.le_iff_toNat_le] at hf ht hf' ht'
    rw [Crosses] at hrange
    omega

theorem flatMap_filter_of_nil {α β : Type} {l : List α} {sel : α → Bool} {f : α → List β}
    (h : ∀ a ∈ l, sel a ≠ true → f a = []) : (l.filter sel).flatMap f = l.flatMap f := by
  induction l with
  | nil => rfl
  | cons a l ih =>
    have hrest := ih fun b hb => h b (List.mem_cons_of_mem a hb)
    by_cases hsel : sel a = true
    · rw [List.filter_cons_of_pos hsel, List.flatMap_cons, List.flatMap_cons, hrest]
    · rw [List.filter_cons_of_neg hsel, List.flatMap_cons, hrest, h a (by simp) hsel,
        List.nil_append]

/-- A transaction that the query does not select has no log that passes. -/
theorem logs_of_not_found (hrange : ¬ Crosses fromBlock toBlock) (hle : fromBlock ≤ toBlock)
    (hindexed : c.Indexed chain fromBlock toBlock) {p : Placed alloy}
    (hp : p ∈ placed chain fromBlock toBlock)
    (hsel : c.found (query fromBlock toBlock filter) (txKey p.tx) ≠ true) :
    receiptEnvelopeToLogsIter p.logs filter = [] := by
  obtain ⟨hfrom, hto, hb, trace, hat⟩ := mem_placed.mp hp
  rw [receiptEnvelopeToLogsIter, List.filter_eq_nil_iff]
  intro log hlog hpasses
  refine hsel ?_
  rw [Collection.found, hindexed.fields _ _ _ _ _ _ hfrom hto hb hat, Option.any_some]
  refine holds_of_passes ?_ hpasses ((asI64_mem_iff hrange hle).mpr ⟨hfrom, hto⟩)
  rw [← map_inner_logs]
  exact List.mem_map_of_mem hlog

/-- **The index path finds the logs of the range that pass the filter, in the order of the
chain**, and none of its assertions fails. -/
theorem indexLogs_eq {hasLogIndex : Bool} {latestIndexed : Except Archive.Fault (Option UInt64)}
    (hrange : ¬ Crosses fromBlock toBlock) (hle : fromBlock ≤ toBlock)
    (harchived : Archived chain archive fromBlock toBlock)
    (hindexed : c.Indexed chain fromBlock toBlock)
    (hcheck : checkIndexed hasLogIndex latestIndexed toBlock = .ok ())
    (hcursor : c.Answers (query fromBlock toBlock filter) cursor) :
    indexLogs alloy c archive hasLogIndex latestIndexed toBlock filter cursor =
      .ok (.ok ((placed chain fromBlock toBlock).flatMap fun p =>
        receiptEnvelopeToLogsIter p.logs filter)) := by
  obtain ⟨found, hmap, hperm, hnumbers⟩ :=
    cursor_placed hrange hle harchived hindexed hcursor
  -- The selected transactions in the order of the chain.
  let selected := (placed chain fromBlock toBlock).filter fun p =>
    c.found (query fromBlock toBlock filter) (txKey p.tx)
  have hselected : (selected.map Placed.item).Pairwise Before :=
    List.pairwise_map.mpr (pairwise_placed.filter _)
  have hapart : (found.map Placed.item).Pairwise Apart := by
    refine ((hperm.map Placed.item).symm.pairwise (hselected.imp ?_) Apart.symm)
    rintro x y (hlt | ⟨-, hlt⟩) ⟨h1, h2⟩
    · exact UInt64.lt_irrefl _ (h1 ▸ hlt)
    · exact UInt64.lt_irrefl _ (h2 ▸ hlt)
  obtain ⟨groups, hgroups, sorted, hsorted, hbefore, hvalues⟩ :=
    groupReceipts_start (ε := QueryFault) (List.pairwise_map.mpr hnumbers) hapart
  -- Sorted as they are, the groups are the selected transactions.
  have heq : sorted = selected.map Placed.item := by
    refine List.Perm.eq_of_pairwise ?_ hbefore hselected (hsorted.trans ?_)
    · rintro x y - - (hxy | ⟨hxy, hxy'⟩) (hyx | ⟨hyx, hyx'⟩)
      · exact absurd (UInt64.lt_trans hxy hyx) (UInt64.lt_irrefl _)
      · exact absurd (hyx ▸ hxy) (UInt64.lt_irrefl _)
      · exact absurd (hxy ▸ hyx) (UInt64.lt_irrefl _)
      · exact absurd (UInt64.lt_trans hxy' hyx') (UInt64.lt_irrefl _)
    · exact hperm.map Placed.item
  have hlogs : groups.flatMap (fun g => g.2.flatMap fun logs =>
      receiptEnvelopeToLogsIter logs filter) =
      selected.flatMap fun p => receiptEnvelopeToLogsIter p.logs filter := by
    rw [← List.flatMap_assoc, hvalues, heq, List.map_map, List.flatMap_map]
    rfl
  have hall : selected.flatMap (fun p => receiptEnvelopeToLogsIter p.logs filter) =
      (placed chain fromBlock toBlock).flatMap fun p =>
        receiptEnvelopeToLogsIter p.logs filter := by
    refine flatMap_filter_of_nil fun p hp hsel => ?_
    exact logs_of_not_found hrange hle hindexed hp hsel
  rw [indexLogs, hcheck]
  simp only [hmap, hgroups, bind, Except.bind, pure, Except.pure]
  rw [List.map_map]
  refine congrArg Except.ok ?_
  have hcollect := collectLogs_ok (ε := QueryFault) groups fun g =>
    (g.1, g.2.flatMap fun logs => receiptEnvelopeToLogsIter logs filter)
  rw [hlogs, hall] at hcollect
  exact congrArg (Except.mapError IndexFault.query) hcollect

end Index

/-! ### The two ways agree -/

/-- Some transaction of the range has a log. -/
def HasLogs (chain : Chain alloy) (fromBlock toBlock : UInt64) : Prop :=
  ∃ n b, fromBlock ≤ n ∧ n ≤ toBlock ∧ chain.block n = some b ∧
    ∃ receipt ∈ b.receipts, alloy.logs receipt.receipt ≠ []

/-- A filter for the address of a log lets it pass. -/
theorem passes_address (log : Archive.Log) :
    (Archive.Filter.mk [log.address] []).passes log = true := by
  simp [Archive.Filter.passes, Archive.Filter.filterAddress, filterSetMatches, filterTopics]

/-- **The query finds nothing in a range that crosses.** -/
theorem answers_iff_of_crosses {c : Collection} {fromBlock toBlock : UInt64}
    (filter : Archive.Filter) (hcross : Crosses fromBlock toBlock)
    {cursor : List (Σ _ : Mongo.Key, Mongo.KeyValueDocument)} :
    c.Answers (query fromBlock toBlock filter) cursor ↔ cursor = [] := by
  have hfound : ∀ key, c.found (query fromBlock toBlock filter) key = false := by
    intro key
    rw [Collection.found]
    cases c.fields key with
    | none => rfl
    | some f => simp [query, not_holds_of_crosses hcross f]
  have hnone : c.kv.entries.filter
      (fun doc => c.found (query fromBlock toBlock filter) doc.1) = [] := by
    simp [hfound]
  constructor
  · intro h
    have hperm := h.perm
    rw [hnone] at hperm
    exact hperm.eq_nil
  · rintro rfl
    exact ⟨hnone ▸ .refl _, .nil⟩

/-- An index that returns nothing has no logs. -/
theorem indexLogs_nil {c : Collection} {archive : ArchiveKey → Option Bytes}
    {hasLogIndex : Bool} {latestIndexed : Except Archive.Fault (Option UInt64)} {toBlock : UInt64}
    (filter : Archive.Filter)
    (hcheck : checkIndexed hasLogIndex latestIndexed toBlock = .ok ()) :
    indexLogs alloy c archive hasLogIndex latestIndexed toBlock filter [] = .ok (.ok []) := by
  rw [indexLogs, hcheck]
  rfl

/-- A range without logs gives none to the scan. -/
theorem flatMap_logs_eq_nil {chain : Chain alloy} {fromBlock toBlock : UInt64}
    (h : ¬ HasLogs chain fromBlock toBlock) (filter : Archive.Filter) :
    (placed chain fromBlock toBlock).flatMap
      (fun p => receiptEnvelopeToLogsIter p.logs filter) = [] := by
  rw [List.flatMap_eq_nil_iff]
  intro p hp
  obtain ⟨hfrom, hto, hb, trace, hat⟩ := mem_placed.mp hp
  have hnone : alloy.logs p.receipt.receipt = [] := by
    by_contra hne
    exact h ⟨p.number, p.block, hfrom, hto, hb, p.receipt,
      List.mem_of_getElem? hat.receipt, hne⟩
  have hlogs : p.logs = [] := by
    rw [← List.map_eq_nil_iff, map_inner_logs, hnone]
  rw [hlogs]
  rfl

/-- **In a range that crosses, the two ways do not agree on a filter for the address of a
log.** -/
theorem not_agree_of_crosses {bloomHas : alloy.Header → Bytes → Bool} {chain : Chain alloy}
    {recent : UInt64 → Option (FinalBlock alloy)} {c : Collection}
    {archive : ArchiveKey → Option Bytes} {hasLogIndex : Bool}
    {latestIndexed : Except Archive.Fault (Option UInt64)} {fromBlock toBlock : UInt64}
    (hcovers : BloomCovers bloomHas chain)
    (hrecent : ∀ n b, recent n = some b → chain.block n = some b)
    (harchived : Archived chain archive fromBlock toBlock)
    (hcheck : checkIndexed hasLogIndex latestIndexed toBlock = .ok ())
    (hcross : Crosses fromBlock toBlock) (hlogs : HasLogs chain fromBlock toBlock) :
    ∃ filter, ¬ Agree bloomHas recent c archive hasLogIndex latestIndexed fromBlock toBlock
      filter := by
  obtain ⟨n, b, hfrom, hto, hb, receipt, hreceipt, hlogs⟩ := hlogs
  obtain ⟨log, hlog⟩ := List.exists_mem_of_ne_nil _ hlogs
  refine ⟨⟨[log.address], []⟩, fun hagree => ?_⟩
  obtain ⟨r, hr, hsame⟩ := hagree [] ((answers_iff_of_crosses _ hcross).mpr rfl)
  rw [indexLogs_nil _ hcheck] at hr
  cases hr
  -- The index finds nothing, but the scan finds the log.
  have hempty := (scanLogs_eq hcovers harchived hrecent).symm.trans (hsame [] rfl)
  rw [Except.ok.injEq, List.flatMap_eq_nil_iff] at hempty
  obtain ⟨i, hi⟩ := List.mem_iff_getElem?.mp hreceipt
  have hlt := (List.getElem?_eq_some_iff.mp hi).1
  obtain ⟨tx, trace, receipt', hat⟩ := FinalBlock.exists_at (b := b) (i := i)
    (b.numReceipts ▸ hlt)
  have hsameReceipt := hat.receipt.symm.trans hi
  cases hsameReceipt
  have hnone := hempty ⟨n, b, i, tx, receipt⟩ (mem_placed.mpr ⟨hfrom, hto, hb, trace, hat⟩)
  rw [receiptEnvelopeToLogsIter, List.filter_eq_nil_iff] at hnone
  rw [← map_inner_logs ⟨n, b, i, tx, receipt⟩] at hlog
  obtain ⟨rpcLog, hrpc, rfl⟩ := List.mem_map.mp hlog
  exact hnone rpcLog hrpc (passes_address rpcLog.inner)

/-- **When the index is as good as the scan.** For every finalized chain whose blocks of a
range are archived and indexed with their logs, the two ways agree for all filters exactly
when the index path does not get to its query, the range does not cross block `2 ^ 63`, or no
transaction of the range has a log. -/
theorem index_eq_scan_iff (bloomHas : alloy.Header → Bytes → Bool) (chain : Chain alloy)
    (recent : UInt64 → Option (FinalBlock alloy)) (c : Collection)
    (archive : ArchiveKey → Option Bytes) (hasLogIndex : Bool)
    (latestIndexed : Except Archive.Fault (Option UInt64)) (fromBlock toBlock : UInt64)
    (hle : fromBlock ≤ toBlock) (hcovers : BloomCovers bloomHas chain)
    (hrecent : ∀ n b, recent n = some b → chain.block n = some b)
    (harchived : Archived chain archive fromBlock toBlock)
    (hindexed : c.Indexed chain fromBlock toBlock) :
    (∀ filter, Agree bloomHas recent c archive hasLogIndex latestIndexed fromBlock toBlock
      filter) ↔
      checkIndexed hasLogIndex latestIndexed toBlock ≠ .ok () ∨
        ¬ Crosses fromBlock toBlock ∨ ¬ HasLogs chain fromBlock toBlock := by
  have hscan : ∀ filter, scanLogs bloomHas filter recent archive fromBlock toBlock = _ :=
    fun filter => scanLogs_eq hcovers harchived hrecent
  constructor
  · intro hagree
    by_contra hnot
    rw [not_or, not_or, not_not, not_not, not_not] at hnot
    obtain ⟨hcheck, hcross, hlogs⟩ := hnot
    obtain ⟨filter, hfilter⟩ := not_agree_of_crosses hcovers hrecent harchived hcheck hcross hlogs
    exact hfilter (hagree filter)
  · intro hcond filter cursor hcursor
    by_cases hcheck : checkIndexed hasLogIndex latestIndexed toBlock = .ok ()
    · by_cases hcross : Crosses fromBlock toBlock
      · -- Nothing is found, and there is nothing to be found.
        have hlogs : ¬ HasLogs chain fromBlock toBlock :=
          (hcond.resolve_left (not_not.mpr hcheck)).resolve_left (not_not.mpr hcross)
        rw [(answers_iff_of_crosses filter hcross).mp hcursor]
        refine ⟨_, indexLogs_nil filter hcheck, ?_⟩
        intro logs hok
        cases hok
        rw [hscan, flatMap_logs_eq_nil hlogs]
      · refine ⟨_, indexLogs_eq hcross hle harchived hindexed hcheck hcursor, ?_⟩
        intro logs hok
        cases hok
        exact hscan filter
    · cases hfail : checkIndexed hasLogIndex latestIndexed toBlock with
      | ok u => exact absurd hfail hcheck
      | error e => exact ⟨.error e, by rw [indexLogs, hfail], nofun⟩

/-! ### A chain at the crossing -/

/-- The sample types, with a log in every receipt. -/
def edgeAlloy : Alloy :=
  { Alloy.sample with logs := fun _ => [⟨⟨toBe 20 9, length_toBe 20 9⟩, [], []⟩] }

/-- Who sends its transaction. -/
def edgeSender : Address := ⟨toBe 20 6, length_toBe 20 6⟩

/-- The last block before the crossing, with one transaction. -/
def lastBlock : FinalBlock edgeAlloy where
  block := ⟨(9223372036854775807 : UInt64), [⟨edgeSender, (300 : UInt64)⟩], [], none⟩
  receipts := [⟨(21000 : UInt64), 0⟩]
  traces := [[]]
  numReceipts := rfl
  numTraces := rfl
  blockLen := by decide +kernel
  receiptsLen := by decide +kernel
  tracesLen := by decide +kernel

/-- The first block behind it, without transactions. -/
def nextBlock : FinalBlock edgeAlloy where
  block := ⟨(9223372036854775808 : UInt64), [], [], none⟩
  receipts := []
  traces := []
  numReceipts := rfl
  numTraces := rfl
  blockLen := by decide +kernel
  receiptsLen := by decide +kernel
  tracesLen := by decide +kernel

theorem lastBlock_at {i : ℕ} {tx : edgeAlloy.Tx} {trace : Bytes} {receipt : edgeAlloy.Receipt}
    (h : lastBlock.At i tx trace receipt) : i = 0 := by
  have hlt : i < 1 := (List.getElem?_eq_some_iff.mp h.tx).1
  omega

theorem nextBlock_at {i : ℕ} {tx : edgeAlloy.Tx} {trace : Bytes} {receipt : edgeAlloy.Receipt} :
    ¬ nextBlock.At i tx trace receipt := by
  intro h
  have hlt : i < 0 := (List.getElem?_eq_some_iff.mp h.tx).1
  omega

/-- The two blocks, under their numbers. -/
def edgeBlocks (n : UInt64) : Option (FinalBlock edgeAlloy) :=
  if n = 9223372036854775807 then some lastBlock
  else if n = 9223372036854775808 then some nextBlock
  else none

/-- There is one transaction. -/
theorem edgeBlocks_at {n : UInt64} {b : FinalBlock edgeAlloy} {i : ℕ} {tx : edgeAlloy.Tx}
    {trace : Bytes} {receipt : edgeAlloy.Receipt} (hb : edgeBlocks n = some b)
    (hat : b.At i tx trace receipt) : n = 9223372036854775807 ∧ i = 0 := by
  rw [edgeBlocks] at hb
  split_ifs at hb with hlast hnext
  · cases hb
    exact ⟨hlast, lastBlock_at hat⟩
  · cases hb
    exact absurd hat nextBlock_at

/-- The chain of the two blocks. -/
def edgeChain : Chain edgeAlloy where
  block := edgeBlocks
  number := by
    intro n b hb
    rw [edgeBlocks] at hb
    split_ifs at hb with hlast hnext
    · cases hb
      exact hlast.symm
    · cases hb
      exact hnext.symm
  hashes := by
    intro n b i tx trace receipt hb hat n' b' i' tx' trace' receipt' hb' hat' _
    obtain ⟨hn, hi⟩ := edgeBlocks_at hb hat
    obtain ⟨hn', hi'⟩ := edgeBlocks_at hb' hat'
    exact ⟨hn.trans hn'.symm, hi.trans hi'.symm⟩

/-- An archive of the blocks of a chain. -/
def archiveOf (chain : Chain alloy) : ArchiveKey → Option Bytes
  | .block n => (chain.block n).map fun b => (BlockStorageRepr.v1 b.block).encode
  | .receipts n => (chain.block n).map fun b => (ReceiptStorageRepr.v1 b.receipts).encode
  | .traces n => (chain.block n).map fun b => alloy.trace.vec.encode b.traces
  | _ => none

theorem holds_archiveOf {chain : Chain alloy} {n : UInt64} {b : FinalBlock alloy}
    (h : chain.block n = some b) :
    Holds (archiveOf chain) n (.marked (.v1 b.block)) (.marked (.v1 b.receipts)) b.traces :=
  ⟨by simp [archiveOf, h]; rfl, by simp [archiveOf, h]; rfl, by simp [archiveOf, h]⟩

/-- The puts for the one transaction. -/
def edgePuts : List (B256 × Bytes) :=
  [(⟨toBe 32 300, length_toBe 32 300⟩,
    encodeRecord edgeAlloy 1000
      (lastBlock.record 0 ⟨edgeSender, (300 : UInt64)⟩ []
        ⟨(21000 : UInt64), 0⟩) none)]

theorem edgeBlocks_last : edgeChain.block 9223372036854775807 = some lastBlock := rfl

theorem edgeBlocks_next : edgeChain.block 9223372036854775808 = some nextBlock := rfl

theorem edgePuts_eq : Archive.indexBlock 1000 lastBlock.block lastBlock.traces lastBlock.receipts
    none = .ok edgePuts := by
  decide +kernel

/-- The collection after the first block was indexed. -/
def edgeFirst : Collection :=
  (edgePuts.foldl Collection.putRecord .empty).indexBlock
    (TxLogsIndexDocument.fromReceipts lastBlock.block lastBlock.receipts)

/-- The collection after both blocks were indexed. -/
def edgeCollection : Collection :=
  (([] : List (B256 × Bytes)).foldl Collection.putRecord edgeFirst).indexBlock
    (TxLogsIndexDocument.fromReceipts nextBlock.block nextBlock.receipts)

theorem edgePuts_uncut : ∀ record ∈ edgePuts, ¬ Mongo.IsCut record.2 := by
  have hlen : ∀ record ∈ edgePuts, record.2.length < 1000 := by
    decide +kernel
  intro record hrecord
  have hshort := hlen record hrecord
  have hchunk : 1000 < Mongo.chunkSize := by
    unfold Mongo.chunkSize
    norm_num
  rw [Mongo.IsCut]
  omega

theorem edgeCollection_run :
    IndexRun edgeChain [9223372036854775808, 9223372036854775807] edgeCollection := by
  have hlast : IndexesBlock edgeChain .empty 9223372036854775807 edgeFirst :=
    .mk lastBlock 1000 none edgePuts edgePuts _ edgeBlocks_last edgePuts_eq edgePuts_uncut
      (.refl _) (.refl _)
  have hnext : IndexesBlock edgeChain edgeFirst 9223372036854775808 edgeCollection :=
    .mk nextBlock 1000 none [] [] _ edgeBlocks_next rfl (by simp) (.refl _) (.refl _)
  exact .block (.block .start (by simp) hlast) (by decide) hnext

/-- The blocks from the last before the crossing to the first behind it are these two. -/
theorem mem_edge {n : UInt64} (hfrom : 9223372036854775807 ≤ n)
    (hto : n ≤ 9223372036854775808) : n ∈ [9223372036854775808, 9223372036854775807] := by
  rw [UInt64.le_iff_toNat_le] at hfrom hto
  have hmax : (9223372036854775807 : UInt64).toNat = 9223372036854775807 := rfl
  have hmin : (9223372036854775808 : UInt64).toNat = 9223372036854775808 := rfl
  have hcases : n.toNat = 9223372036854775808 ∨ n.toNat = 9223372036854775807 := by
    omega
  rcases hcases with h | h
  · have hnum : n = 9223372036854775808 := UInt64.toNat_inj.mp (h.trans hmin.symm)
    simp [hnum]
  · have hnum : n = 9223372036854775807 := UInt64.toNat_inj.mp (h.trans hmax.symm)
    simp [hnum]

theorem archived_edge {fromBlock toBlock : UInt64} (hfrom : 9223372036854775807 ≤ fromBlock)
    (hto : toBlock ≤ 9223372036854775808) :
    Archived edgeChain (archiveOf edgeChain) fromBlock toBlock := by
  intro n hn hn'
  have hmem := mem_edge (UInt64.le_trans hfrom hn) (UInt64.le_trans hn' hto)
  rw [List.mem_cons, List.mem_singleton] at hmem
  rcases hmem with rfl | rfl
  · exact ⟨nextBlock, edgeBlocks_next, holds_archiveOf edgeBlocks_next⟩
  · exact ⟨lastBlock, edgeBlocks_last, holds_archiveOf edgeBlocks_last⟩

theorem edgeCollection_indexed {fromBlock toBlock : UInt64}
    (hfrom : 9223372036854775807 ≤ fromBlock) (hto : toBlock ≤ 9223372036854775808) :
    edgeCollection.Indexed edgeChain fromBlock toBlock :=
  edgeCollection_run.indexed fun _ hn hn' =>
    mem_edge (UInt64.le_trans hfrom hn) (UInt64.le_trans hn' hto)

theorem bloomCovers_edge : BloomCovers (fun _ _ => true) edgeChain := by
  intro n b _ receipt _ log _
  exact ⟨rfl, fun _ _ => rfl⟩

/-- The block before the crossing by itself, for the address of its log. -/
theorem index_eq_scan_iff_edge :
    Agree (fun _ _ => true) (fun n => if n = 9223372036854775807 then some lastBlock else none)
      edgeCollection (archiveOf edgeChain) true (.ok (some 9223372036854775808))
      9223372036854775807 9223372036854775807 ⟨[⟨toBe 20 9, length_toBe 20 9⟩], []⟩ :=
  (index_eq_scan_iff (fun _ _ => true) edgeChain
    (fun n => if n = 9223372036854775807 then some lastBlock else none) edgeCollection
    (archiveOf edgeChain) true (.ok (some 9223372036854775808)) 9223372036854775807
    9223372036854775807 (UInt64.le_refl _) bloomCovers_edge
    (by
      intro n b hb
      split_ifs at hb with hn
      cases hb
      rw [hn]
      exact edgeBlocks_last)
    (archived_edge (UInt64.le_refl _) (by decide))
    (edgeCollection_indexed (UInt64.le_refl _) (by decide))).mpr (.inr (.inl (by decide))) _

/-- **A range that crosses is lost to the index**: the two blocks are archived and indexed, but
for a filter on the address of the log in the first, the index finds nothing without an error,
and the scan finds the log. -/
theorem index_loses_range :
    Archived edgeChain (archiveOf edgeChain) 9223372036854775807 9223372036854775808 ∧
      edgeCollection.Indexed edgeChain 9223372036854775807 9223372036854775808 ∧
      BloomCovers (fun _ _ => true) edgeChain ∧
      ∃ filter, ¬ Agree (fun _ _ => true) (fun _ => (none : Option (FinalBlock edgeAlloy)))
        edgeCollection (archiveOf edgeChain) true (.ok (some 9223372036854775808))
        9223372036854775807 9223372036854775808 filter := by
  have harchived := archived_edge (UInt64.le_refl 9223372036854775807)
    (UInt64.le_refl 9223372036854775808)
  refine ⟨harchived, edgeCollection_indexed (UInt64.le_refl _) (UInt64.le_refl _),
    bloomCovers_edge, ?_⟩
  refine not_agree_of_crosses bloomCovers_edge (by simp) harchived (by simp [checkIndexed])
    (by decide) ?_
  exact ⟨9223372036854775807, lastBlock, by decide, by decide, edgeBlocks_last, _,
    List.mem_singleton_self _, by simp [edgeAlloy]⟩

end Rpc

end MonadServices
