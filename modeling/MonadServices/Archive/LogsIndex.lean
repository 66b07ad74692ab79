import MonadServices.Archive.Mongo
import MonadServices.Archive.TxIndex

/-!
# The index of logs

The documents of indexed transactions are enriched with two fields: the number of the block,
and for each log of the transaction the first four bytes of its address and of its topics
(`MonadServices.Archive.LogsIndex.Fields`). A query asks for the documents in a range of
blocks of which **some log** has one of the addresses of a filter, and for each topic
position some log, not always the same, has one of the topics there. So it finds every
transaction with a matching log, and others besides
(`MonadServices.Archive.LogsIndex.holds_of_passes`).

Numbers in the collection are signed. A block number from `2 ^ 63` on is stored as a negative
one, and a range of blocks that crosses `2 ^ 63` is empty to the query
(`MonadServices.Archive.LogsIndex.asI64_le_iff`,
`MonadServices.Archive.LogsIndex.not_holds_of_crosses`).
-/

namespace MonadServices

namespace Archive

variable {alloy : Alloy}

/-! ### Filters -/

/-- What `eth_getLogs` asks for: the addresses, and for each position the topics, of which one
has to be there. None at all means that any will do. -/
structure Filter where
  address : List Address
  topics : List (List B256)

/-- `FilterSet::matches`. -/
def filterSetMatches {α : Type} [DecidableEq α] (set : List α) (value : α) : Bool :=
  set.isEmpty || decide (value ∈ set)

/-- `filter_address`. -/
def Filter.filterAddress (filter : Filter) (address : Address) : Bool :=
  filterSetMatches filter.address address

/-- `filter_topics`: the topics of a log against the positions of a filter. -/
def filterTopics : List (List B256) → List B256 → Bool
  | [], _ => true
  -- The topics of the log are exhausted.
  | set :: sets, [] => set.isEmpty && filterTopics sets []
  | set :: sets, topic :: topics => filterSetMatches set topic && filterTopics sets topics

/-- The log passes the filter. -/
def Filter.passes (filter : Filter) (log : Log) : Bool :=
  filter.filterAddress log.address && filterTopics filter.topics log.topics

/-- A position at which topics are asked for is one of the log's. -/
theorem mem_of_filterTopics {sets : List (List B256)} {topics : List B256}
    (h : filterTopics sets topics = true) {i : ℕ} {set : List B256} (hi : sets[i]? = some set)
    (hset : set ≠ []) : ∃ topic ∈ set, topics[i]? = some topic := by
  induction sets generalizing topics i with
  | nil => simp at hi
  | cons first sets ih =>
    cases topics with
    | nil =>
      simp only [filterTopics, Bool.and_eq_true, List.isEmpty_iff] at h
      cases i with
      | zero =>
        simp only [List.getElem?_cons_zero, Option.some.injEq] at hi
        exact absurd (hi ▸ h.1) hset
      | succ i =>
        obtain ⟨topic, -, hnone⟩ := ih h.2 (by simpa using hi)
        simp at hnone
    | cons topic topics =>
      simp only [filterTopics, filterSetMatches, Bool.and_eq_true, Bool.or_eq_true,
        List.isEmpty_iff, decide_eq_true_eq] at h
      cases i with
      | zero =>
        simp only [List.getElem?_cons_zero, Option.some.injEq] at hi
        subst hi
        exact ⟨topic, h.1.resolve_left hset, rfl⟩
      | succ i =>
        obtain ⟨t, ht, htopic⟩ := ih h.2 (by simpa using hi)
        exact ⟨t, ht, by simpa using htopic⟩

namespace LogsIndex

/-! ### Documents -/

/-- `as i64`. -/
def asI64 (n : UInt64) : ℤ := if n.toNat < 2 ^ 63 then n.toNat else n.toNat - 2 ^ 64

/-- `fb_to_bson`: the first four bytes. -/
def fbToBson {n : ℕ} (fb : FixedBytes n) : Bytes := fb.1.take 4

/-- The document of a log: its address and its topics, in `topic_0`, `topic_1` and so on. -/
structure LogDocument where
  address : Bytes
  topics : List Bytes
  deriving DecidableEq

/-- `logs_to_doc`. -/
def logsToDoc (logs : List Log) : List LogDocument :=
  logs.map fun log => ⟨fbToBson log.address, log.topics.map fbToBson⟩

/-- A digit of a hexadecimal number. -/
def hexDigit (n : ℕ) : Char := Nat.digitChar n

/-- `encode_hex`. -/
def encodeHex (bytes : Bytes) : Mongo.Key :=
  bytes.flatMap fun b => [hexDigit (b.toNat / 16), hexDigit (b.toNat % 16)]

theorem hexDigit_injOn {a b : ℕ} (ha : a < 16) (hb : b < 16) (h : hexDigit a = hexDigit b) :
    a = b := by
  have hall : ∀ a < 16, ∀ b < 16, hexDigit a = hexDigit b → a = b := by
    decide
  exact hall a ha b hb h

/-- Different byte strings have different texts. -/
theorem encodeHex_injective : Function.Injective encodeHex := by
  intro xs
  induction xs with
  | nil =>
    intro ys h
    cases ys with
    | nil => rfl
    | cons y ys => simp [encodeHex] at h
  | cons x xs ih =>
    intro ys h
    cases ys with
    | nil => simp [encodeHex] at h
    | cons y ys =>
      simp only [encodeHex, List.flatMap_cons, List.cons_append, List.nil_append,
        List.cons.injEq] at h
      have hx := x.toNat_lt
      have hy := y.toNat_lt
      have hhigh := hexDigit_injOn (by omega) (by omega) h.1
      have hlow := hexDigit_injOn (by omega) (by omega) h.2.1
      have hbyte : x = y := UInt8.toNat_inj.mp (by omega)
      rw [hbyte, ih h.2.2]

/-- The key of a transaction. -/
def txKey (tx : alloy.Tx) : Mongo.Key := encodeHex (alloy.txHash tx.tx).1

/-- What is indexed of a transaction. -/
structure TxLogsIndexDocument where
  id : Mongo.Key
  blockNumber : UInt64
  logs : List LogDocument

/-- `from_receipts`. -/
def TxLogsIndexDocument.fromReceipts (block : alloy.Block) (receipts : List alloy.Receipt) :
    List TxLogsIndexDocument :=
  (receipts.zip block.transactions).map fun (receipt, tx) =>
    { id := txKey tx
      blockNumber := alloy.number block.header
      logs := logsToDoc (alloy.logs receipt.receipt) }

/-- The two fields that a document is enriched with. -/
structure Fields where
  logs : List LogDocument
  blockNumber : ℤ
  deriving DecidableEq

/-- The collection of the index: its documents, and the fields of those that were enriched. -/
structure Collection where
  kv : Mongo.Collection
  fields : Mongo.Key → Option Fields

/-- Nothing is stored yet. -/
def Collection.empty : Collection := ⟨∅, fun _ => none⟩

/-- A put of the transaction index. It does not clobber, and a new document has no fields. -/
def Collection.putRecord (c : Collection) (record : B256 × Bytes) : Collection :=
  match Mongo.put c.kv (encodeHex record.1.1) record.2 .noClobber with
  | (kv, .written) => ⟨kv, Function.update c.fields (encodeHex record.1.1) none⟩
  | (kv, .skipped) => ⟨kv, c.fields⟩

/-- `update_one`, without `upsert`. -/
def Collection.updateOne (c : Collection) (tx : TxLogsIndexDocument) : Collection :=
  if Mongo.isThere c.kv tx.id then
    { c with fields := Function.update c.fields tx.id (some ⟨tx.logs, asI64 tx.blockNumber⟩) }
  else c

/-- `index_block`: the updates in the order in which they happen to run. -/
def Collection.indexBlock (c : Collection) (txs : List TxLogsIndexDocument) : Collection :=
  txs.foldl Collection.updateOne c

/-! ### The query -/

/-- A condition of a query. -/
inductive Condition where
  | blockNumber (gte lte : ℤ)
  | address (isIn : List Bytes)
  | topic (i : ℕ) (isIn : List Bytes)

/-- Whether a condition holds of a document. One on a field of the logs holds if it holds of
one of them; a log without that field is none. -/
def Condition.holds (fields : Fields) : Condition → Bool
  | .blockNumber gte lte => decide (gte ≤ fields.blockNumber ∧ fields.blockNumber ≤ lte)
  | .address isIn => fields.logs.any fun log => decide (log.address ∈ isIn)
  | .topic i isIn => fields.logs.any fun log => log.topics[i]?.any (decide <| · ∈ isIn)

/-- The query of `query_logs`. -/
def query (fromBlock toBlock : UInt64) (filter : Filter) : List Condition :=
  .blockNumber (asI64 fromBlock) (asI64 toBlock) ::
    ((if filter.address.isEmpty then [] else [.address (filter.address.map fbToBson)]) ++
      filter.topics.zipIdx.filterMap fun (topic, i) =>
        if topic.isEmpty then none else some (.topic i (topic.map fbToBson)))

/-- A document is found by a query: only one that was enriched can be. -/
def Collection.found (c : Collection) (q : List Condition) (key : Mongo.Key) : Bool :=
  (c.fields key).any fun fields => q.all (Condition.holds fields)

/-- **What a query returns**: the documents it finds, each once, in an order of which only
that of the block numbers is fixed. -/
structure Collection.Answers (c : Collection) (q : List Condition)
    (cursor : List (Σ _ : Mongo.Key, Mongo.KeyValueDocument)) : Prop where
  perm : cursor.Perm (c.kv.entries.filter fun doc => c.found q doc.1)
  sorted : cursor.Pairwise fun a b => ∀ f ∈ c.fields a.1, ∀ g ∈ c.fields b.1,
    f.blockNumber ≤ g.blockNumber

/-! ### What the query finds -/

/-- A range of blocks crosses the largest number that is stored as it is. -/
def Crosses (fromBlock toBlock : UInt64) : Prop :=
  fromBlock.toNat < 2 ^ 63 ∧ 2 ^ 63 ≤ toBlock.toNat

instance (fromBlock toBlock : UInt64) : Decidable (Crosses fromBlock toBlock) :=
  inferInstanceAs (Decidable (_ ∧ _))

/-- The order of block numbers is that of their signed numbers on either side of the
crossing. -/
theorem asI64_le_iff {a b : UInt64} (h : a.toNat < 2 ^ 63 ↔ b.toNat < 2 ^ 63) :
    asI64 a ≤ asI64 b ↔ a ≤ b := by
  have ha := a.toNat_lt
  have hb := b.toNat_lt
  rw [UInt64.le_iff_toNat_le, asI64, asI64]
  split_ifs <;> omega

/-- **A range that does not cross is found as it is**: it takes the blocks between its
ends. -/
theorem asI64_mem_iff {fromBlock toBlock n : UInt64} (h : ¬ Crosses fromBlock toBlock)
    (hle : fromBlock ≤ toBlock) :
    asI64 fromBlock ≤ asI64 n ∧ asI64 n ≤ asI64 toBlock ↔ fromBlock ≤ n ∧ n ≤ toBlock := by
  have hf := fromBlock.toNat_lt
  have ht := toBlock.toNat_lt
  have hn := n.toNat_lt
  rw [UInt64.le_iff_toNat_le] at hle
  rw [UInt64.le_iff_toNat_le, UInt64.le_iff_toNat_le, asI64, asI64, asI64]
  rw [Crosses] at h
  split_ifs <;> omega

/-- A range that crosses is empty. -/
theorem not_holds_of_crosses {fromBlock toBlock : UInt64} (h : Crosses fromBlock toBlock)
    (fields : Fields) :
    (Condition.blockNumber (asI64 fromBlock) (asI64 toBlock)).holds fields = false := by
  have ht := toBlock.toNat_lt
  obtain ⟨hfrom, hto⟩ := h
  have hlt : asI64 toBlock < asI64 fromBlock := by
    rw [asI64, asI64, if_pos hfrom, if_neg (by omega)]
    omega
  simp only [Condition.holds, decide_eq_false_iff_not]
  omega

/-- The fields of a transaction of block `n` with these logs. -/
def fieldsOf (n : UInt64) (logs : List Log) : Fields := ⟨logsToDoc logs, asI64 n⟩

/-- **The query finds every transaction with a matching log**: it looks at beginnings only,
and at each position for itself. -/
theorem holds_of_passes {filter : Filter} {fromBlock toBlock n : UInt64} {logs : List Log}
    {log : Log} (hlog : log ∈ logs) (hpasses : filter.passes log = true)
    (hrange : asI64 fromBlock ≤ asI64 n ∧ asI64 n ≤ asI64 toBlock) :
    (query fromBlock toBlock filter).all (Condition.holds (fieldsOf n logs)) = true := by
  simp only [Filter.passes, Filter.filterAddress, Bool.and_eq_true] at hpasses
  obtain ⟨haddress, htopics⟩ := hpasses
  have hdoc : ⟨fbToBson log.address, log.topics.map fbToBson⟩ ∈ logsToDoc logs :=
    List.mem_map_of_mem hlog
  rw [List.all_eq_true]
  intro cond hcond
  simp only [query, List.mem_cons, List.mem_append] at hcond
  rcases hcond with rfl | hcond | hcond
  · exact decide_eq_true hrange
  · -- The address of the log is one of those asked for.
    split_ifs at hcond with hempty
    · simp at hcond
    · rw [List.mem_singleton] at hcond
      subst hcond
      have hin : log.address ∈ filter.address := by
        simpa [filterSetMatches, hempty] using haddress
      simp only [Condition.holds, fieldsOf, List.any_eq_true, decide_eq_true_eq]
      exact ⟨_, hdoc, List.mem_map_of_mem hin⟩
  · obtain ⟨⟨topic, i⟩, hi, hsome⟩ := List.mem_filterMap.mp hcond
    dsimp only at hsome
    split_ifs at hsome with hempty
    cases hsome
    obtain ⟨t, ht, hlogTopic⟩ := mem_of_filterTopics htopics
      (List.mem_zipIdx_iff_getElem?.mp hi) (by simpa using hempty)
    simp only [Condition.holds, fieldsOf, List.any_eq_true]
    refine ⟨_, hdoc, ?_⟩
    simp only [List.getElem?_map, hlogTopic, Option.map_some, Option.any_some,
      decide_eq_true_eq]
    exact List.mem_map_of_mem ht

/-! ### Reading what was found -/

/-- How a document that was found fails to give a record. -/
inductive QueryFault where
  /-- `Failed to resolve logs index`. -/
  | resolve (e : Mongo.ReadFault)
  /-- `Failed to decode TxIndexedData when querying logs`. -/
  | decode (e : Fault)

/-- `resolve_from_bytes`. -/
def resolveFromBytes (archive : ArchiveKey → Option Bytes) (bytes : Bytes) :
    Except Fault (TxIndexedData alloy) := do
  let repr ← IndexDataStorageRepr.decode bytes
  repr.convert archive

/-- An item of the stream of `query_logs`. -/
def Collection.item (c : Collection) (archive : ArchiveKey → Option Bytes)
    (doc : Σ _ : Mongo.Key, Mongo.KeyValueDocument) :
    Except QueryFault (TxIndexedData alloy) := do
  let (_, bytes) ← (Mongo.resolveFound c.kv doc.1 doc.2).mapError .resolve
  (resolveFromBytes archive bytes).mapError .decode

/-! ### The chain -/

/-- A finalized block with its receipts and traces. What is stored of it are vectors of bytes,
so their lengths fit `isize`. -/
structure FinalBlock (alloy : Alloy) where
  block : alloy.Block
  receipts : List alloy.Receipt
  traces : List Bytes
  numReceipts : receipts.length = block.transactions.length
  numTraces : traces.length = block.transactions.length
  blockLen : (BlockStorageRepr.v1 block).encode.length < 2 ^ 63
  receiptsLen : (ReceiptStorageRepr.v1 receipts).encode.length < 2 ^ 63
  tracesLen : (alloy.trace.vec.encode traces).length < 2 ^ 63

namespace FinalBlock

variable (b : FinalBlock alloy)

/-- The transaction at a place, with its trace and its receipt. -/
structure At (i : ℕ) (tx : alloy.Tx) (trace : Bytes) (receipt : alloy.Receipt) : Prop where
  tx : b.block.transactions[i]? = some tx
  trace : b.traces[i]? = some trace
  receipt : b.receipts[i]? = some receipt

/-- The record of the transaction at a place. -/
def record (i : ℕ) (tx : alloy.Tx) (trace : Bytes) (receipt : alloy.Receipt) :
    TxIndexedData alloy :=
  recordAt b.block b.receipts i tx trace receipt

variable {b}

/-- Every place below the number of transactions has all three. -/
theorem exists_at {i : ℕ} (h : i < b.block.transactions.length) :
    ∃ tx trace receipt, b.At i tx trace receipt :=
  ⟨_, _, _, List.getElem?_eq_getElem h, List.getElem?_eq_getElem (b.numTraces ▸ h),
    List.getElem?_eq_getElem (b.numReceipts ▸ h)⟩

/-- The place of a transaction in its block fits a word. -/
theorem At.toNat_ofNat {i : ℕ} {tx : alloy.Tx} {trace : Bytes} {receipt : alloy.Receipt}
    (h : b.At i tx trace receipt) : (UInt64.ofNat i).toNat = i := by
  have hlt := (List.getElem?_eq_some_iff.mp h.tx).1
  have hcount := length_transactions_le b.block
  have hlen : (alloy.block.encode b.block).length + 2 < 2 ^ 63 := b.blockLen
  exact UInt64.toNat_ofNat_of_lt' (show i < 2 ^ 64 by omega)

end FinalBlock

/-- **A finalized chain**: blocks under their numbers, in which no transaction occurs
twice. -/
structure Chain (alloy : Alloy) where
  block : UInt64 → Option (FinalBlock alloy)
  number : ∀ n b, block n = some b → alloy.number b.block.header = n
  hashes : ∀ n b i tx trace receipt, block n = some b → b.At i tx trace receipt →
    ∀ n' b' i' tx' trace' receipt', block n' = some b' → b'.At i' tx' trace' receipt' →
    alloy.txHash tx.tx = alloy.txHash tx'.tx → n = n' ∧ i = i'

/-- The blocks of a range are archived. -/
def Archived (chain : Chain alloy) (archive : ArchiveKey → Option Bytes)
    (fromBlock toBlock : UInt64) : Prop :=
  ∀ n, fromBlock ≤ n → n ≤ toBlock → ∃ b, chain.block n = some b ∧
    Holds archive n (.marked (.v1 b.block)) (.marked (.v1 b.receipts)) b.traces

/-- A document holds the record of the transaction at a place, inline or by reference, and is
not cut into chunks. -/
def Collection.HoldsRecord (c : Collection) (b : FinalBlock alloy) (i : ℕ) (tx : alloy.Tx)
    (trace : Bytes) (receipt : alloy.Receipt) : Prop :=
  ∃ max offsets,
    ¬ Mongo.IsCut (encodeRecord alloy max (b.record i tx trace receipt) offsets) ∧
    c.kv.lookup (txKey tx) =
      some ⟨some (encodeRecord alloy max (b.record i tx trace receipt) offsets), none⟩

/-- **The blocks of a range are indexed, with their logs**: the document of each of their
transactions holds its record and has its fields. Besides, a document has the fields only if
it is that of a transaction of the chain. -/
structure Collection.Indexed (c : Collection) (chain : Chain alloy)
    (fromBlock toBlock : UInt64) : Prop where
  record : ∀ n b i tx trace receipt, fromBlock ≤ n → n ≤ toBlock → chain.block n = some b →
    b.At i tx trace receipt → c.HoldsRecord b i tx trace receipt
  fields : ∀ n b i tx trace receipt, fromBlock ≤ n → n ≤ toBlock → chain.block n = some b →
    b.At i tx trace receipt → c.fields (txKey tx) = some (fieldsOf n (alloy.logs receipt.receipt))
  enriched : ∀ key f, c.fields key = some f → ∃ n b i tx trace receipt,
    chain.block n = some b ∧ b.At i tx trace receipt ∧ key = txKey tx ∧
      f = fieldsOf n (alloy.logs receipt.receipt)

section Read

variable {archive : ArchiveKey → Option Bytes} {b : FinalBlock alloy} {i : ℕ} {tx : alloy.Tx}
  {trace : Bytes} {receipt : alloy.Receipt}

theorem resolveFromBytes_encode {r : IndexDataStorageRepr alloy}
    (h64 : r.toRlp.encode.length < 2 ^ 64) :
    resolveFromBytes archive r.encode = r.readBack.convert archive := by
  rw [resolveFromBytes, r.decode_encode h64]
  rfl

/-- A reference is resolved in the archive. -/
theorem convert_reference {reference : ReferenceV0}
    (hholds : Holds archive reference.headerSubset.blockNumber (.marked (.v1 b.block))
      (.marked (.v1 b.receipts)) b.traces) (hat : b.At i tx trace receipt)
    (hplace : reference.headerSubset.txIndex.toNat = i) :
    (IndexDataStorageRepr.referenceV0 reference).convert archive =
      .ok ⟨tx, trace, receipt, reference.headerSubset⟩ := by
  have hblock : (alloy.block.encode b.block).length + 2 < 2 ^ 63 := b.blockLen
  have hreceipts : (alloy.receiptWithLogIndex.vec.encode b.receipts).length + 2 < 2 ^ 63 :=
    b.receiptsLen
  have htraces := b.tracesLen
  obtain ⟨block', hget, htxs⟩ := getBlockByNumber_eq hholds (by omega)
  have hgetReceipts := getBlockReceipts_eq hholds (by omega)
  have hgetTraces := getBlockTraces_eq hholds (by omega)
  have htx := hat.tx
  rw [← htxs] at htx
  simp only [IndexDataStorageRepr.convert, bind, Except.bind, hget, hgetReceipts, hgetTraces,
    hplace, ensureLen_eq htx, ensureLen_eq hat.trace, ensureLen_eq hat.receipt,
    swapRemove_eq htx, swapRemove_eq hat.trace, swapRemove_eq hat.receipt]
  rfl

/-- A record is read back, inline or by reference, but for a base fee of zero. -/
theorem resolveFromBytes_encodeRecord {max : ℕ} {offsets : Option Offsets}
    (hholds : Holds archive (alloy.number b.block.header) (.marked (.v1 b.block))
      (.marked (.v1 b.receipts)) b.traces) (hat : b.At i tx trace receipt)
    (hlen : (encodeRecord alloy max (b.record i tx trace receipt) offsets).length < 2 ^ 64) :
    resolveFromBytes archive (encodeRecord alloy max (b.record i tx trace receipt) offsets) =
      .ok (b.record i tx trace receipt).readBack := by
  rw [encodeRecord] at hlen ⊢
  split_ifs at hlen ⊢ with hlong
  · refine (resolveFromBytes_encode ?_).trans (convert_reference hholds hat hat.toNat_ofNat)
    exact (length_reference_le _).trans_lt (by norm_num)
  · have h64 : (b.record i tx trace receipt).toRlp.encode.length + 2 < 2 ^ 64 := hlen
    refine (resolveFromBytes_encode ?_).trans rfl
    exact (Nat.le_add_right _ 2).trans_lt h64

/-- **What is read of a document that was found** is the record of its transaction. -/
theorem Collection.HoldsRecord.item {c : Collection} (h : c.HoldsRecord b i tx trace receipt)
    (hholds : Holds archive (alloy.number b.block.header) (.marked (.v1 b.block))
      (.marked (.v1 b.receipts)) b.traces) (hat : b.At i tx trace receipt)
    {doc : Mongo.KeyValueDocument} (hdoc : c.kv.lookup (txKey tx) = some doc) :
    c.item archive ⟨txKey tx, doc⟩ = .ok (b.record i tx trace receipt).readBack := by
  obtain ⟨max, offsets, huncut, hlookup⟩ := h
  rw [hdoc] at hlookup
  cases hlookup
  have hlen : (encodeRecord alloy max (b.record i tx trace receipt) offsets).length < 2 ^ 64 :=
    (not_lt.mp huncut).trans_lt Mongo.chunkSize_lt
  simp only [Collection.item, Mongo.resolveFound, Mongo.resolve, Except.mapError, bind,
    Except.bind, resolveFromBytes_encodeRecord hholds hat hlen]

end Read

/-! ### What the indexers do -/

section Indexers

variable {c : Collection}

theorem putRecord_of_absent {record : B256 × Bytes} (hcut : ¬ Mongo.IsCut record.2)
    (h : c.kv.lookup (encodeHex record.1.1) = none) :
    c.putRecord record =
      ⟨c.kv.insert (encodeHex record.1.1) ⟨some record.2, none⟩,
        Function.update c.fields (encodeHex record.1.1) none⟩ := by
  have hput : Mongo.put c.kv (encodeHex record.1.1) record.2 .noClobber =
      (c.kv.insert (encodeHex record.1.1) ⟨some record.2, none⟩, .written) := by
    simp [Mongo.put, Mongo.mainDoc, Mongo.isThere, hcut, h]
  rw [Collection.putRecord, hput]

/-- The puts for transactions that have no document yet, in any order. -/
theorem foldl_putRecord (records : List (B256 × Bytes))
    (hcut : ∀ r ∈ records, ¬ Mongo.IsCut r.2) (hkeys : (records.map Prod.fst).Nodup)
    (habsent : ∀ r ∈ records, c.kv.lookup (encodeHex r.1.1) = none) :
    (∀ r ∈ records, (records.foldl Collection.putRecord c).kv.lookup (encodeHex r.1.1) =
      some ⟨some r.2, none⟩) ∧
    ∀ key, (∀ r ∈ records, encodeHex r.1.1 ≠ key) →
      (records.foldl Collection.putRecord c).kv.lookup key = c.kv.lookup key ∧
      (records.foldl Collection.putRecord c).fields key = c.fields key := by
  induction records generalizing c with
  | nil => exact ⟨by simp, fun key _ => ⟨rfl, rfl⟩⟩
  | cons r rest ih =>
    rw [List.map_cons, List.nodup_cons] at hkeys
    have hput := putRecord_of_absent (hcut r (by simp)) (habsent r (by simp))
    -- The keys of the other records are others.
    have hne : ∀ r' ∈ rest, encodeHex r'.1.1 ≠ encodeHex r.1.1 := by
      intro r' hr' heq
      refine hkeys.1 (List.mem_map.mpr ⟨r', hr', ?_⟩)
      exact Subtype.ext (encodeHex_injective heq)
    obtain ⟨hthere, hother⟩ := ih (c := c.putRecord r)
      (fun r' hr' => hcut r' (List.mem_cons_of_mem r hr')) hkeys.2 (fun r' hr' => by
        rw [hput, AList.lookup_insert_ne (hne r' hr')]
        exact habsent r' (List.mem_cons_of_mem r hr'))
    rw [List.foldl_cons]
    refine ⟨?_, ?_⟩
    · intro r' hr'
      rcases List.mem_cons.mp hr' with rfl | hr'
      · rw [(hother _ hne).1, hput, AList.lookup_insert]
      · exact hthere r' hr'
    · intro key hkey
      have hfirst := (hkey r (by simp)).symm
      obtain ⟨hkv, hfields⟩ := hother key fun r' hr' => hkey r' (List.mem_cons_of_mem r hr')
      rw [hkv, hfields, hput]
      exact ⟨AList.lookup_insert_ne hfirst, Function.update_of_ne hfirst ..⟩

/-- The updates for transactions that have a document, in any order. -/
theorem indexBlock_spec (txs : List TxLogsIndexDocument)
    (hids : (txs.map TxLogsIndexDocument.id).Nodup)
    (hthere : ∀ tx ∈ txs, Mongo.isThere c.kv tx.id = true) :
    (c.indexBlock txs).kv = c.kv ∧
      (∀ tx ∈ txs, (c.indexBlock txs).fields tx.id =
        some ⟨tx.logs, asI64 tx.blockNumber⟩) ∧
      ∀ key, (∀ tx ∈ txs, tx.id ≠ key) → (c.indexBlock txs).fields key = c.fields key := by
  induction txs generalizing c with
  | nil => exact ⟨rfl, by simp, fun key _ => rfl⟩
  | cons tx rest ih =>
    rw [List.map_cons, List.nodup_cons] at hids
    have hne : ∀ tx' ∈ rest, tx'.id ≠ tx.id := fun tx' htx' heq =>
      hids.1 (List.mem_map.mpr ⟨tx', htx', heq⟩)
    have hupdate : c.updateOne tx =
        ⟨c.kv, Function.update c.fields tx.id (some ⟨tx.logs, asI64 tx.blockNumber⟩)⟩ :=
      if_pos (hthere tx (by simp))
    obtain ⟨hkv, hset, hother⟩ := ih (c := c.updateOne tx) hids.2 (fun tx' htx' => by
      rw [hupdate]
      exact hthere tx' (List.mem_cons_of_mem tx htx'))
    have hcons : c.indexBlock (tx :: rest) = (c.updateOne tx).indexBlock rest := rfl
    rw [hcons]
    refine ⟨hkv.trans (by rw [hupdate]), ?_, ?_⟩
    · intro tx' htx'
      rcases List.mem_cons.mp htx' with rfl | htx'
      · rw [hother _ hne, hupdate]
        exact Function.update_self ..
      · exact hset tx' htx'
    · intro key hkey
      rw [hother key fun tx' htx' => hkey tx' (List.mem_cons_of_mem tx htx'), hupdate]
      exact Function.update_of_ne (hkey tx (by simp)).symm ..

/-- What the transaction index has put for a block. -/
theorem FinalBlock.puts_eq {b : FinalBlock alloy} {max : ℕ} {offsets : Option (List Offsets)}
    {puts : List (B256 × Bytes)}
    (h : Archive.indexBlock max b.block b.traces b.receipts offsets = .ok puts) :
    puts.map Prod.fst = b.block.transactions.map (fun tx => alloy.txHash tx.tx) ∧
      ∀ i tx trace receipt, b.At i tx trace receipt →
        (alloy.txHash tx.tx, encodeRecord alloy max (b.record i tx trace receipt)
          (offsets.bind fun v => v[i]?)) ∈ puts := by
  have hok := h
  rw [Archive.indexBlock] at hok
  split_ifs at hok with hcounts
  rw [not_or, not_or] at hcounts
  have hoffsets : ∀ v ∈ offsets, v.length = b.block.transactions.length := by
    intro v hv
    by_contra hne
    exact hcounts.2.2 ⟨v, hv, fun heq => hne (heq.symm.trans b.numReceipts)⟩
  -- The gas of the receipts does not decrease, or the indexing would have failed.
  have hgas := (isChain_of_indexRequests hok).tail
  have hzip : (b.block.transactions.zip (b.traces.zip b.receipts)).map (fun x => x.2.2) =
      b.receipts := by
    have hsnd : (b.block.transactions.zip (b.traces.zip b.receipts)).map Prod.snd =
        b.traces.zip b.receipts :=
      List.map_snd_zip (by rw [List.length_zip, b.numTraces, b.numReceipts]; simp)
    have hmap := congrArg (List.map Prod.snd) hsnd
    rw [List.map_map, List.map_snd_zip (by rw [b.numTraces, b.numReceipts])] at hmap
    exact hmap
  have hreceipts : (b.receipts.map fun r => alloy.cumulativeGasUsed r.receipt).IsChain
      (· ≤ ·) := by
    rw [← hzip, List.map_map]
    exact hgas
  obtain ⟨puts', hputs', hkeys, hmem⟩ :=
    indexBlock_eq_ok b.numTraces b.numReceipts hoffsets hreceipts max
  rw [h] at hputs'
  cases hputs'
  exact ⟨hkeys, fun i tx trace receipt hat => hmem i tx trace receipt hat.tx hat.trace
    hat.receipt⟩

/-- **The indexer indexes a block**: the records of its transactions, none of which is cut into
chunks, and then the fields, each in any order. -/
inductive IndexesBlock (chain : Chain alloy) (c : Collection) (n : UInt64) : Collection → Prop
  | mk (b : FinalBlock alloy) (max : ℕ) (offsets : Option (List Offsets))
      (puts order : List (B256 × Bytes)) (updates : List TxLogsIndexDocument)
      (hblock : chain.block n = some b)
      (hputs : Archive.indexBlock max b.block b.traces b.receipts offsets = .ok puts)
      (hcut : ∀ record ∈ puts, ¬ Mongo.IsCut record.2) (horder : order.Perm puts)
      (hupdates : updates.Perm (TxLogsIndexDocument.fromReceipts b.block b.receipts)) :
      IndexesBlock chain c n ((order.foldl Collection.putRecord c).indexBlock updates)

/-- The collection after the indexer has indexed the blocks `done` of a chain, in some
order. -/
inductive IndexRun (chain : Chain alloy) : List UInt64 → Collection → Prop
  | start : IndexRun chain [] .empty
  | block {done : List UInt64} {c c' : Collection} {n : UInt64} (h : IndexRun chain done c)
      (hn : n ∉ done) (hc : IndexesBlock chain c n c') : IndexRun chain (n :: done) c'

/-- What holds when the blocks `done` are indexed: as wanted for these, and the transactions of
the other blocks have no documents yet. -/
structure Progress (chain : Chain alloy) (done : List UInt64) (c : Collection) : Prop where
  record : ∀ n b i tx trace receipt, n ∈ done → chain.block n = some b →
    b.At i tx trace receipt → c.HoldsRecord b i tx trace receipt
  fields : ∀ n b i tx trace receipt, n ∈ done → chain.block n = some b →
    b.At i tx trace receipt → c.fields (txKey tx) = some (fieldsOf n (alloy.logs receipt.receipt))
  enriched : ∀ key f, c.fields key = some f → ∃ n b i tx trace receipt,
    chain.block n = some b ∧ b.At i tx trace receipt ∧ key = txKey tx ∧
      f = fieldsOf n (alloy.logs receipt.receipt)
  absent : ∀ n b i tx trace receipt, n ∉ done → chain.block n = some b →
    b.At i tx trace receipt → c.kv.lookup (txKey tx) = none

/-- The hashes of the transactions of a block are distinct. -/
theorem Chain.nodup_hashes (chain : Chain alloy) {n : UInt64} {b : FinalBlock alloy}
    (hb : chain.block n = some b) :
    (b.block.transactions.map fun tx => alloy.txHash tx.tx).Nodup := by
  rw [List.nodup_iff_getElem?_ne_getElem?]
  intro i j hij hj heq
  rw [List.length_map] at hj
  obtain ⟨tx, trace, receipt, hat⟩ := FinalBlock.exists_at (b := b) (i := i) (by omega)
  obtain ⟨tx', trace', receipt', hat'⟩ := FinalBlock.exists_at hj
  rw [List.getElem?_map, List.getElem?_map, hat.tx, hat'.tx] at heq
  have := (chain.hashes _ _ _ _ _ _ hb hat _ _ _ _ _ _ hb hat' (by simpa using heq)).2
  omega

/-- The documents for the logs of a block are those of its transactions. -/
theorem mem_fromReceipts {b : FinalBlock alloy} {doc : TxLogsIndexDocument} :
    doc ∈ TxLogsIndexDocument.fromReceipts b.block b.receipts ↔
      ∃ i tx trace receipt, b.At i tx trace receipt ∧
        doc = ⟨txKey tx, alloy.number b.block.header, logsToDoc (alloy.logs receipt.receipt)⟩ := by
  rw [TxLogsIndexDocument.fromReceipts, List.mem_map]
  constructor
  · rintro ⟨⟨receipt, tx⟩, hmem, rfl⟩
    obtain ⟨i, hi⟩ := List.mem_iff_getElem?.mp hmem
    rw [List.getElem?_zip_eq_some] at hi
    obtain ⟨tx', trace, receipt', hat⟩ := FinalBlock.exists_at (b := b) (i := i)
      (List.getElem?_eq_some_iff.mp hi.2).1
    exact ⟨i, tx, trace, receipt, ⟨hi.2, hat.trace, hi.1⟩, rfl⟩
  · rintro ⟨i, tx, trace, receipt, hat, rfl⟩
    refine ⟨(receipt, tx), List.mem_iff_getElem?.mpr ⟨i, ?_⟩, rfl⟩
    rw [List.getElem?_zip_eq_some]
    exact ⟨hat.receipt, hat.tx⟩

theorem map_id_fromReceipts (b : FinalBlock alloy) :
    (TxLogsIndexDocument.fromReceipts b.block b.receipts).map TxLogsIndexDocument.id =
      (b.block.transactions.map fun tx => alloy.txHash tx.tx).map fun hash => encodeHex hash.1 := by
  have hzip : (b.receipts.zip b.block.transactions).map Prod.snd = b.block.transactions :=
    List.map_snd_zip b.numReceipts.ge
  conv_rhs => rw [← hzip]
  simp [TxLogsIndexDocument.fromReceipts, txKey, Function.comp_def]

/-- Transactions of different blocks have different keys. -/
theorem Chain.txKey_ne (chain : Chain alloy) {m n : UInt64} {b b' : FinalBlock alloy} {i i' : ℕ}
    {tx tx' : alloy.Tx} {trace trace' : Bytes} {receipt receipt' : alloy.Receipt}
    (hb : chain.block n = some b) (hb' : chain.block m = some b') (hne : m ≠ n)
    (hat : b.At i tx trace receipt)
    (hat' : b'.At i' tx' trace' receipt') : txKey tx ≠ txKey tx' := by
  intro heq
  have hhash := Subtype.ext (encodeHex_injective heq)
  exact hne (chain.hashes _ _ _ _ _ _ hb hat _ _ _ _ _ _ hb' hat' hhash).1.symm

/-- **What indexing a block adds**: the documents and the fields of its transactions. The other
keys keep theirs. -/
structure Adds (n : UInt64) (b : FinalBlock alloy) (c c' : Collection) : Prop where
  record : ∀ i tx trace receipt, b.At i tx trace receipt → c'.HoldsRecord b i tx trace receipt
  fields : ∀ i tx trace receipt, b.At i tx trace receipt →
    c'.fields (txKey tx) = some (fieldsOf n (alloy.logs receipt.receipt))
  frame : ∀ key, (∀ i tx trace receipt, b.At i tx trace receipt → txKey tx ≠ key) →
    c'.kv.lookup key = c.kv.lookup key ∧ c'.fields key = c.fields key

/-- The keys of the puts for a block are those of its transactions. -/
theorem FinalBlock.exists_of_mem_puts {b : FinalBlock alloy} {max : ℕ}
    {offsets : Option (List Offsets)} {puts : List (B256 × Bytes)}
    (hputs : Archive.indexBlock max b.block b.traces b.receipts offsets = .ok puts)
    {record : B256 × Bytes} (hrecord : record ∈ puts) :
    ∃ i tx trace receipt, b.At i tx trace receipt ∧ record.1 = alloy.txHash tx.tx := by
  have hin : record.1 ∈ b.block.transactions.map fun tx => alloy.txHash tx.tx := by
    rw [← (FinalBlock.puts_eq hputs).1]
    exact List.mem_map_of_mem hrecord
  obtain ⟨tx, htx, heq⟩ := List.mem_map.mp hin
  obtain ⟨i, hi⟩ := List.mem_iff_getElem?.mp htx
  obtain ⟨tx', trace, receipt, hat⟩ := FinalBlock.exists_at (List.getElem?_eq_some_iff.mp hi).1
  exact ⟨i, tx, trace, receipt, ⟨hi, hat.trace, hat.receipt⟩, heq.symm⟩

/-- **The indexer adds a block** whose transactions have no documents yet. -/
theorem IndexesBlock.adds {chain : Chain alloy} {c c' : Collection} {n : UInt64}
    (hc : IndexesBlock chain c n c') (habsent : ∀ b i tx trace receipt, chain.block n = some b →
      b.At i tx trace receipt → c.kv.lookup (txKey tx) = none) :
    ∃ b, chain.block n = some b ∧ Adds n b c c' := by
  obtain ⟨b, max, offsets, puts, order, updates, hb, hputs, hcut, horder, hupdates⟩ := hc
  obtain ⟨hkeys, hmem⟩ := FinalBlock.puts_eq hputs
  have hnodup := chain.nodup_hashes hb
  have hplace : ∀ record ∈ order, ∃ i tx trace receipt, b.At i tx trace receipt ∧
      record.1 = alloy.txHash tx.tx :=
    fun _ hrecord => FinalBlock.exists_of_mem_puts hputs (horder.mem_iff.mp hrecord)
  obtain ⟨hthere, hother⟩ := foldl_putRecord (c := c) order
    (fun record hrecord => hcut record (horder.mem_iff.mp hrecord))
    ((horder.map Prod.fst).nodup_iff.mpr (hkeys ▸ hnodup))
    (fun record hrecord => by
      obtain ⟨i, tx, trace, receipt, hat, heq⟩ := hplace record hrecord
      rw [heq]
      exact habsent b i tx trace receipt hb hat)
  -- The records are put first, and their documents are there when the fields are set.
  have hlookup : ∀ i tx trace receipt, b.At i tx trace receipt →
      (order.foldl Collection.putRecord c).kv.lookup (txKey tx) = some ⟨some (encodeRecord alloy
        max (b.record i tx trace receipt) (offsets.bind fun v => v[i]?)), none⟩ :=
    fun i tx trace receipt hat => hthere _ (horder.mem_iff.mpr (hmem i tx trace receipt hat))
  obtain ⟨hkv, hset, hkept⟩ := indexBlock_spec (c := order.foldl Collection.putRecord c) updates
    (((hupdates.map _).nodup_iff.mpr (by
      rw [map_id_fromReceipts]
      exact hnodup.map fun x y hxy => Subtype.ext (encodeHex_injective hxy))))
    (fun doc hdoc => by
      obtain ⟨i, tx, trace, receipt, hat, rfl⟩ := mem_fromReceipts.mp (hupdates.mem_iff.mp hdoc)
      rw [Mongo.isThere, hlookup i tx trace receipt hat]
      rfl)
  refine ⟨b, hb, fun i tx trace receipt hat => ?_, fun i tx trace receipt hat => ?_,
    fun key hkey => ?_⟩
  · refine ⟨max, _, hcut _ (hmem i tx trace receipt hat), ?_⟩
    rw [hkv]
    exact hlookup i tx trace receipt hat
  · have hdoc := hset _ (hupdates.mem_iff.mpr
      (mem_fromReceipts.mpr ⟨i, tx, trace, receipt, hat, rfl⟩))
    rw [chain.number n b hb] at hdoc
    exact hdoc
  · -- A key that is not of this block keeps its document and its fields.
    obtain ⟨hlook, hfields⟩ := hother key fun record hrecord heq => by
      obtain ⟨i, tx, trace, receipt, hat, hhash⟩ := hplace record hrecord
      exact hkey i tx trace receipt hat (by rw [← heq, hhash, txKey])
    rw [hkv, hlook, ← hfields]
    refine ⟨rfl, hkept key fun doc hdoc heq => ?_⟩
    obtain ⟨i, tx, trace, receipt, hat, rfl⟩ := mem_fromReceipts.mp (hupdates.mem_iff.mp hdoc)
    exact hkey i tx trace receipt hat heq

/-- **Indexing a block keeps what is indexed, and adds the block.** -/
theorem Progress.step {chain : Chain alloy} {done : List UInt64} {c c' : Collection}
    {n : UInt64} (h : Progress chain done c) (hn : n ∉ done) (hc : IndexesBlock chain c n c') :
    Progress chain (n :: done) c' := by
  obtain ⟨b, hb, hadds⟩ := hc.adds fun b i tx trace receipt => h.absent n b i tx trace receipt hn
  have hframe : ∀ m b' i' tx' trace' receipt', m ≠ n → chain.block m = some b' →
      b'.At i' tx' trace' receipt' → c'.kv.lookup (txKey tx') = c.kv.lookup (txKey tx') ∧
        c'.fields (txKey tx') = c.fields (txKey tx') :=
    fun m b' i' tx' trace' receipt' hm hb' hat' => hadds.frame _
      fun i tx trace receipt hat => chain.txKey_ne hb hb' hm hat hat'
  -- A block is the one that is added, or one whose keys are not touched.
  constructor
  · intro m b' i tx trace receipt hm hb' hat
    by_cases hmn : m = n
    · subst hmn
      obtain rfl := Option.some.inj (hb'.symm.trans hb)
      exact hadds.record i tx trace receipt hat
    · obtain ⟨max', offsets', hcut', hlook⟩ := h.record m b' i tx trace receipt
        ((List.mem_cons.mp hm).resolve_left hmn) hb' hat
      refine ⟨max', offsets', hcut', ?_⟩
      rw [(hframe m b' i tx trace receipt hmn hb' hat).1]
      exact hlook
  · intro m b' i tx trace receipt hm hb' hat
    by_cases hmn : m = n
    · subst hmn
      obtain rfl := Option.some.inj (hb'.symm.trans hb)
      exact hadds.fields i tx trace receipt hat
    · rw [(hframe m b' i tx trace receipt hmn hb' hat).2]
      exact h.fields m b' i tx trace receipt ((List.mem_cons.mp hm).resolve_left hmn) hb' hat
  · intro key f hf
    by_cases hkey : ∃ i tx trace receipt, b.At i tx trace receipt ∧ txKey tx = key
    · obtain ⟨i, tx, trace, receipt, hat, rfl⟩ := hkey
      rw [hadds.fields i tx trace receipt hat] at hf
      cases hf
      exact ⟨n, b, i, tx, trace, receipt, hb, hat, rfl, rfl⟩
    · rw [(hadds.frame key fun i tx trace receipt hat heq =>
        hkey ⟨i, tx, trace, receipt, hat, heq⟩).2] at hf
      exact h.enriched key f hf
  · intro m b' i tx trace receipt hm hb' hat
    rw [List.mem_cons, not_or] at hm
    rw [(hframe m b' i tx trace receipt hm.1 hb' hat).1]
    exact h.absent m b' i tx trace receipt hm.2 hb' hat

/-- **What the indexer has indexed is indexed**: after a run over blocks among which are those
of a range, the range can be queried. -/
theorem IndexRun.indexed {chain : Chain alloy} {done : List UInt64} {c : Collection}
    (h : IndexRun chain done c) {fromBlock toBlock : UInt64}
    (hdone : ∀ n, fromBlock ≤ n → n ≤ toBlock → n ∈ done) :
    c.Indexed chain fromBlock toBlock := by
  have hprogress : Progress chain done c := by
    clear hdone
    induction h with
    | start =>
      constructor
      · simp
      · simp
      · simp [Collection.empty]
      · intro n b i tx trace receipt _ _ _
        simp [Collection.empty]
    | block h hn hc ih => exact ih.step hn hc
  exact ⟨fun n b i tx trace receipt hfrom hto => hprogress.record n b i tx trace receipt
      (hdone n hfrom hto),
    fun n b i tx trace receipt hfrom hto => hprogress.fields n b i tx trace receipt
      (hdone n hfrom hto), hprogress.enriched⟩

end Indexers

end LogsIndex

end Archive

end MonadServices
