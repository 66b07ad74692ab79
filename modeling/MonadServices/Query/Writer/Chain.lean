import MonadServices.Query.Record
import MonadServices.Query.Writer.Basic

/-!
# What the tables are for

The abstract side of the writer. A finalized chain is a list of blocks with
consecutive numbers (`MonadServices.Query.Chain`), and a block is, family by
family, a list of records (`MonadServices.Query.QueryWriterBlock.records`). The
records of a family are numbered through the chain, without gaps, from a first id
that depends on the family only: this is what a primary id is.

From the numbering alone follows what the tables should hold once the first `n`
blocks are committed, `MonadServices.Query.Chain.view`. A table row belongs to a
record, a block, a page of ids or a blob, and `view` says which records, blocks and
ids it is made from; no batch, no order of writes and no failure occurs in it. The
writer is then compared with it.
-/

namespace MonadServices

namespace Query

/-! ### Blocks and blobs -/

/-- The blob that holds the given records. -/
def blobOf (ext : Externals) (es : List (Record × ℕ)) : Bytes :=
  es.flatMap fun e => ext.compress (e.1.encode ext)

/-- The records of a family in a block, in the order of their ids. -/
def QueryWriterBlock.records (block : QueryWriterBlock) : Family → List Record
  | .blockHeader => [.blockHeader block.header]
  | .transaction => block.txs.map fun tx => .transaction tx.envelope
  | .log => block.logs.map .log
  | .trace => block.txs.flatMap fun tx => (fromTraces tx.traces).map .trace

/-! ### Chains -/

/-- **A finalized chain** from its start block on. -/
structure Chain where
  start : ℕ
  blocks : List QueryWriterBlock
  /-- The start is a `u64`. -/
  start_lt : start < 2 ^ 64
  /-- The blocks are numbered from the start on. -/
  number_eq : ∀ i block, blocks[i]? = some block → block.blockNumber = start + i

/-- A block without transactions, for examples. -/
def QueryWriterBlock.sample (number : ℕ) (miner : ℕ) : QueryWriterBlock where
  header := ⟨{ parentHash := if number = 0 then word 0 else
                 Externals.sample.hashSlow ⟨word 0, ⟨toBe 20 0, length_toBe 20 0⟩,
                   UInt64.ofNat (number - 1), 0, none, []⟩
               beneficiary := ⟨toBe 20 miner, length_toBe 20 miner⟩
               number := UInt64.ofNat number
               timestamp := 0
               baseFeePerGas := none
               rest := [] }⟩
  txs := []

/-- The chain of such blocks with the given miners. -/
def Chain.sample (start : ℕ) (miners : List ℕ) (h : start + miners.length < 2 ^ 64) : Chain where
  start := start
  blocks := miners.zipIdx.map fun p => QueryWriterBlock.sample (start + p.2) p.1
  start_lt := by omega
  number_eq i block hb := by
    rw [List.getElem?_map, Option.map_eq_some_iff] at hb
    obtain ⟨⟨miner, j⟩, hj, rfl⟩ := hb
    rw [List.getElem?_zipIdx, Option.map_eq_some_iff] at hj
    obtain ⟨_, hget, heq⟩ := hj
    have hi := (List.getElem?_eq_some_iff.mp hget).1
    obtain ⟨-, rfl⟩ := Prod.mk.inj heq
    simp only [QueryWriterBlock.blockNumber, QueryWriterBlock.sample, UInt64.toNat_ofNat']
    rw [Nat.mod_eq_of_lt (by omega), Nat.zero_add]

namespace Chain

variable (chain : Chain)

/-- The records of a family in the first `n` blocks. -/
def records (family : Family) (n : ℕ) : List Record :=
  (chain.blocks.take n).flatMap fun block => block.records family

/-- The first id of a family: blocks keep their number, the other ids start at zero. -/
def base : Family → ℕ
  | .blockHeader => chain.start
  | _ => 0

theorem base_blockHeader : chain.base .blockHeader = chain.start := rfl

theorem base_eq_zero {family : Family} (h : family ≠ .blockHeader) : chain.base family = 0 := by
  cases family with
  | blockHeader => exact absurd rfl h
  | transaction => rfl
  | log => rfl
  | trace => rfl

/-- The first id of a family that is not in the first `n` blocks. -/
def frontier (family : Family) (n : ℕ) : ℕ := chain.base family + (chain.records family n).length

/-- The records of a family in the first `n` blocks, with their ids. -/
def entries (family : Family) (n : ℕ) : List (Record × ℕ) :=
  (chain.records family n).zipIdx (chain.base family)

/-- The record under an id. -/
def recordAt (family : Family) (id : ℕ) : Option Record :=
  if chain.base family ≤ id then
    (chain.records family chain.blocks.length)[id - chain.base family]?
  else none

/-- The state that commits the first `n` blocks. -/
def stateAt (n : ℕ) : StateIndex where
  indexedStart := some chain.start
  nextBlockId := chain.start + n
  nextLogId := chain.frontier .log n
  nextTxId := chain.frontier .transaction n
  nextTraceId := chain.frontier .trace n

/-! ### The view -/

variable (ext : Externals)

/-- The records in a payload blob. -/
def blobEntries (key : PayloadKey) (n : ℕ) : List (Record × ℕ) :=
  (chain.entries key.family n).filter fun e => PayloadKey.fromId key.family e.2 = key

/-- Where the payload of an id ends in its blob. -/
def payloadEnd (family : Family) (id n : ℕ) : ℕ :=
  (blobOf ext ((chain.blobEntries (PayloadKey.fromId family id) n).filter (·.2 ≤ id))).length

/-- The positions in a bitmap page. -/
def bits (key : BitmapIndexKey) (n : ℕ) : Finset ℕ :=
  (((chain.entries key.family n).filter fun e =>
    pageOf e.2 = key.page ∧ key.filter ∈ e.1.filters ext).map fun e => e.2 - key.page).toFinset

/-- The number of the block that has `id` as the first id of its records, among the
first `n` blocks. -/
def blockOfFirst (family : Family) (id n : ℕ) : Option ℕ :=
  ((List.range n).find? fun i =>
    chain.frontier family i = id ∧ id < chain.frontier family (i + 1)).map (chain.start + ·)

/-- The block with a number, among the first `n` blocks. -/
def blockAt (height n : ℕ) : Option QueryWriterBlock :=
  if chain.start ≤ height then (chain.blocks.take n)[height - chain.start]? else none

/-- The ids of a family in a block. -/
def rangeAt (family : Family) (height : ℕ) (block : QueryWriterBlock) : FamilyMetadata :=
  ⟨chain.frontier family (height - chain.start), (block.records family).length⟩

/-- **What the tables hold once the first `n` blocks are committed.** -/
def view (n : ℕ) : Tables
  | .bitmapIndex key =>
    if chain.bits ext key n = ∅ then none
    else some (.ok ⟨key.page, (key.page + pageSpan) % 2 ^ 64, chain.bits ext key n⟩)
  | .pageStats key =>
    if chain.bits ext key n = ∅ then none
    else some (.ok ((chain.bits ext key n).card % 2 ^ 32))
  | .blockHash height =>
    (chain.blockAt height n).map fun block => .ok (block.blockHash ext)
  | .family family height =>
    (chain.blockAt height n).map fun block => .ok (chain.rangeAt family height block)
  | .familyBlockIndex family id => (chain.blockOfFirst family id n).map .ok
  | .payload key =>
    if chain.blobEntries key n = [] then none
    else some (.ok (blobOf ext (chain.blobEntries key n)))
  | .payloadLocation family id =>
    if chain.base family ≤ id ∧ id < chain.frontier family n then
      some (.ok (chain.payloadEnd ext family id n))
    else none
  | .stateIndex => if n = 0 then none else some (.ok (chain.stateAt n).columns)

/-! ### The numbering -/

section Numbering

variable {chain} {family : Family} {m n : ℕ}

/-- The blocks from `m` to `n`. -/
def segment (chain : Chain) (m n : ℕ) : List QueryWriterBlock := (chain.blocks.take n).drop m

theorem records_eq_append (h : m ≤ n) : chain.records family n =
    chain.records family m ++ (chain.segment m n).flatMap fun block => block.records family := by
  unfold records segment
  rw [← List.flatMap_append]
  congr 1
  conv_lhs => rw [← List.take_append_drop m (chain.blocks.take n)]
  rw [List.take_take, min_eq_left h]

theorem segment_cons (h : m < n) {block : QueryWriterBlock} (hb : chain.blocks[m]? = some block) :
    chain.segment m n = block :: chain.segment (m + 1) n := by
  unfold segment
  obtain ⟨hm, rfl⟩ := List.getElem?_eq_some_iff.mp hb
  rw [List.drop_eq_getElem_cons (by simp; omega)]
  simp

theorem segment_of_le (h : n ≤ m) : chain.segment m n = [] := by
  simp [segment]
  omega

/-- The ids from `m` on continue those before it. -/
theorem entries_eq_append (h : m ≤ n) : chain.entries family n = chain.entries family m ++
    ((chain.segment m n).flatMap fun block => block.records family).zipIdx
      (chain.frontier family m) := by
  unfold entries frontier
  rw [records_eq_append h, List.zipIdx_append]

theorem frontier_succ {block : QueryWriterBlock} (hb : chain.blocks[n]? = some block) :
    chain.frontier family (n + 1) = chain.frontier family n + (block.records family).length := by
  have hseg : chain.segment n (n + 1) = [block] := by
    rw [segment_cons (Nat.lt_succ_self n) hb, segment_of_le le_rfl]
  unfold frontier
  rw [records_eq_append (Nat.le_succ n), hseg]
  simp [Nat.add_assoc]

theorem frontier_mono (chain : Chain) (family : Family) (h : m ≤ n) :
    chain.frontier family m ≤ chain.frontier family n := by
  unfold frontier
  rw [records_eq_append h, List.length_append]
  omega

@[simp] theorem frontier_zero : chain.frontier family 0 = chain.base family := by
  simp [frontier, records]

/-- Blocks keep their number. -/
theorem frontier_blockHeader (h : n ≤ chain.blocks.length) :
    chain.frontier .blockHeader n = chain.start + n := by
  simp [frontier, base, records, QueryWriterBlock.records, h]

theorem mem_entries {r : Record} {id : ℕ} : (r, id) ∈ chain.entries family n ↔
    chain.base family ≤ id ∧ (chain.records family n)[id - chain.base family]? = some r :=
  List.mem_zipIdx_iff_le_and_getElem?_sub

theorem lt_frontier {e : Record × ℕ} (h : e ∈ chain.entries family n) :
    e.2 < chain.frontier family n := by
  obtain ⟨hle, hget⟩ := mem_entries.mp h
  have := (List.getElem?_eq_some_iff.mp hget).1
  unfold frontier
  omega

/-- Every id before the frontier has a record. -/
theorem exists_mem_entries {id : ℕ} (hbase : chain.base family ≤ id)
    (h : id < chain.frontier family n) : ∃ r, (r, id) ∈ chain.entries family n := by
  have hlt : id - chain.base family < (chain.records family n).length := by
    unfold frontier at h
    omega
  exact ⟨_, mem_entries.mpr ⟨hbase, List.getElem?_eq_getElem hlt⟩⟩

/-- The records before a frontier are the records whose ids are before it. -/
theorem mem_entries_iff (h : m ≤ n) {e : Record × ℕ} : e ∈ chain.entries family m ↔
    e ∈ chain.entries family n ∧ e.2 < chain.frontier family m := by
  constructor
  · intro he
    exact ⟨by rw [entries_eq_append h]; exact List.mem_append_left _ he, lt_frontier he⟩
  · rintro ⟨he, hlt⟩
    rw [entries_eq_append h, List.mem_append] at he
    rcases he with he | he
    · exact he
    · have := List.le_snd_of_mem_zipIdx he
      omega

theorem entries_pairwise : (chain.entries family n).Pairwise (·.2 < ·.2) :=
  (List.pairwise_map (f := Prod.snd)).mp (by
    rw [entries, List.zipIdx_map_snd]
    exact List.pairwise_lt_range')

/-- The record of an entry is the record of its id. -/
theorem recordAt_eq {r : Record} {id : ℕ} (h : (r, id) ∈ chain.entries family n) :
    chain.recordAt family id = some r := by
  have hmem : (r, id) ∈ chain.entries family chain.blocks.length := by
    rcases le_total n chain.blocks.length with hn | hn
    · exact ((mem_entries_iff hn).mp h).1
    · simpa [entries, records, List.take_of_length_le hn] using h
  obtain ⟨hle, hget⟩ := mem_entries.mp hmem
  rw [recordAt, if_pos hle, hget]

end Numbering

end Chain

end Query

end MonadServices
