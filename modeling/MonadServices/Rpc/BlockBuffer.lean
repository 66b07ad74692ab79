import MonadServices.Primitives
import Mathlib.Data.List.Nodup

/-!
# The block buffer of the RPC server

The RPC server keeps the last blocks it was told of: a ring of heights, the blocks by height, the
heights by block hash, and the transactions by hash with their receipts. One task inserts; the
lookups go through the three maps without it. So an insertion is given by the list of its writes
to the maps, each of which is atomic (`MonadServices.Rpc.Buffer.State.insertWrites`). What a write
depends on was returned by an earlier one and is known when the insertion begins, since nobody
else writes.

A block is taken out of the maps by the keys it has in them, and nothing tells whether an entry
under such a key is its own. Two buffered blocks that share a transaction therefore spoil one
another: the receipts of the older one are those of the newer one, and when one goes the other's
transaction is lost. **Without such a pair the maps agree**
(`MonadServices.Rpc.Buffer.run_consistent`).
-/

namespace MonadServices

namespace Rpc

namespace Buffer

/-! ### Blocks and events -/

/-- What the buffer reads of headers, transactions and receipts. -/
structure Kinds where
  Header : Type
  Tx : Type
  Receipt : Type
  number : Header → UInt64
  hash : Header → B256
  txHash : Tx → B256
  transactionHash : Receipt → B256

/-- A transaction with its receipt, as an executed block lists them. -/
structure Executed (K : Kinds) where
  tx : K.Tx
  receipt : K.Receipt
  hash_eq : K.transactionHash receipt = K.txHash tx

/-- An executed block. -/
structure ExecutedBlock (K : Kinds) where
  header : K.Header
  transactions : List (Executed K)

/-- A block as it is buffered: its receipts are kept with the transactions. -/
structure Block (K : Kinds) where
  header : K.Header
  transactions : List K.Tx

inductive BlockCommitState where
  | proposed
  | voted
  | finalized
  | verified
  deriving DecidableEq

/-- What the event server sends. -/
inductive Event (K : Kinds) where
  | gap
  | block (commitState : BlockCommitState) (b : ExecutedBlock K)

/-- Where a transaction is. -/
structure TxLoc where
  blockHeight : UInt64
  txIdx : ℕ
  deriving DecidableEq

variable {K : Kinds}

namespace ExecutedBlock

/-- The height of a block. -/
def number (b : ExecutedBlock K) : UInt64 := K.number b.header

/-- The hash of a block. -/
def hash (b : ExecutedBlock K) : B256 := K.hash b.header

/-- The block without its receipts. -/
def toBlock (b : ExecutedBlock K) : Block K := ⟨b.header, b.transactions.map Executed.tx⟩

/-- The receipts of a block, in order. -/
def receipts (b : ExecutedBlock K) : List K.Receipt := b.transactions.map Executed.receipt

/-- The hashes of a block's transactions, in order. -/
def txHashes (b : ExecutedBlock K) : List B256 := b.transactions.map fun e => K.txHash e.tx

end ExecutedBlock

/-- The hashes of a buffered block's transactions, in order. -/
def Block.txHashes (b : Block K) : List B256 := b.transactions.map K.txHash

@[simp] theorem ExecutedBlock.txHashes_toBlock (b : ExecutedBlock K) :
    b.toBlock.txHashes = b.txHashes :=
  List.map_map

/-! ### The maps and their lookups -/

/-- The maps that the buffer shares with its views. -/
structure Maps (K : Kinds) where
  blockByHeight : UInt64 → Option (Block K)
  blockHeightByHash : B256 → Option UInt64
  txByHash : B256 → Option (TxLoc × K.Receipt)

namespace Maps

/-- Nothing is buffered. -/
def empty : Maps K := ⟨fun _ => none, fun _ => none, fun _ => none⟩

/-- The block at a height. -/
def getBlockByHeight (m : Maps K) (height : UInt64) : Option (Block K) := m.blockByHeight height

/-- The block with a hash. -/
def getBlockByHash (m : Maps K) (h : B256) : Option (Block K) := do
  let height ← m.blockHeightByHash h
  m.blockByHeight height

/-- The receipt of a transaction. -/
def getReceiptByTxHash (m : Maps K) (t : B256) : Option K.Receipt := (m.txByHash t).map Prod.snd

/-- The receipts of the block at a height. -/
def getReceiptsByBlockHeight (m : Maps K) (height : UInt64) : Option (List K.Receipt) := do
  let b ← m.blockByHeight height
  b.txHashes.mapM m.getReceiptByTxHash

/-- The transaction at a place. -/
def getTransactionByLocation (m : Maps K) (height : UInt64) (idx : ℕ) : Option K.Tx := do
  let b ← m.blockByHeight height
  b.transactions[idx]?

/-- The transaction with a hash. -/
def getTransactionByHash (m : Maps K) (t : B256) : Option K.Tx := do
  let (loc, _) ← m.txByHash t
  m.getTransactionByLocation loc.blockHeight loc.txIdx

end Maps

/-- An atomic write to one of the maps. -/
inductive Write (K : Kinds) where
  | putBlock (height : UInt64) (b : Block K)
  | removeBlock (height : UInt64)
  | putHash (h : B256) (height : UInt64)
  | removeHash (h : B256)
  | putTx (t : B256) (loc : TxLoc) (r : K.Receipt)
  | removeTx (t : B256)

namespace Maps

/-- The maps after a write. -/
def write (m : Maps K) : Write K → Maps K
  | .putBlock height b =>
    { m with blockByHeight := Function.update m.blockByHeight height (some b) }
  | .removeBlock height => { m with blockByHeight := Function.update m.blockByHeight height none }
  | .putHash h height =>
    { m with blockHeightByHash := Function.update m.blockHeightByHash h (some height) }
  | .removeHash h => { m with blockHeightByHash := Function.update m.blockHeightByHash h none }
  | .putTx t loc r => { m with txByHash := Function.update m.txByHash t (some (loc, r)) }
  | .removeTx t => { m with txByHash := Function.update m.txByHash t none }

/-- The maps after a list of writes. -/
def writes (m : Maps K) (ws : List (Write K)) : Maps K := ws.foldl write m

/-- The transactions of a block leave their map. -/
def unindexWrites (b : Block K) : List (Write K) :=
  b.txHashes.map .removeTx

/-- What is done with the block that another one replaced. -/
def replaceWrites : Option (Block K) → List (Write K)
  | none => []
  | some old => .removeHash (K.hash old.header) :: unindexWrites old

/-- The entries of the transactions of a block, from the index `i` on. -/
def txWrites (height : UInt64) : ℕ → List (Executed K) → List (Write K)
  | _, [] => []
  | i, e :: es =>
    .putTx (K.transactionHash e.receipt) ⟨height, i⟩ e.receipt :: txWrites height (i + 1) es

/-- **A block is stored** in the place of the one at its height. -/
def storeWrites (m : Maps K) (b : ExecutedBlock K) : List (Write K) :=
  .putBlock b.number b.toBlock :: replaceWrites (m.blockByHeight b.number) ++
    .putHash b.hash b.number :: txWrites b.number 0 b.transactions

/-- **The block at a height is evicted**, if there is one. -/
def evictWrites (m : Maps K) (height : UInt64) : List (Write K) :=
  .removeBlock height ::
    match m.blockByHeight height with
    | none => []
    | some b => unindexWrites b ++ [.removeHash (K.hash b.header)]

/-- The evictions of a ring, given from its back, until it is no longer than the capacity. -/
def evictLoop (capacity : ℕ) : List UInt64 → Maps K → List (Write K)
  | [], _ => []
  | height :: back, m =>
    if capacity < (height :: back).length then
      m.evictWrites height ++ evictLoop capacity back (m.writes (m.evictWrites height))
    else []

end Maps

/-! ### The buffer -/

/-- The highest blocks of the commit states. -/
structure BlockStates where
  voted : UInt64
  finalized : UInt64
  proposed : UInt64

/-- `AtomicU64::fetch_max` for the commit state of an event. -/
def BlockStates.update (s : BlockStates) (height : UInt64) : BlockCommitState → BlockStates
  | .verified => s
  | .finalized => { s with finalized := max s.finalized height }
  | .voted => { s with voted := max s.voted height }
  | .proposed => { s with proposed := max s.proposed height }

/-- **The buffer.** The front of the ring is its head. -/
structure State (K : Kinds) where
  blockStates : BlockStates
  blockHeights : List UInt64
  capacity : ℕ
  maps : Maps K

namespace State

/-- An empty buffer. -/
def new (capacity : ℕ) : State K := ⟨⟨0, 0, 0⟩, [], capacity, Maps.empty⟩

/-- The block of an event that is not passed over. A verified block was buffered when it was
finalized, and a voted or finalized one may have been when it was proposed. -/
def stored (s : State K) : Event K → Option (ExecutedBlock K)
  | .gap => none
  | .block .verified _ => none
  | .block .proposed b => some b
  | .block .voted b | .block .finalized b =>
    if s.maps.blockHeightByHash b.hash = none then some b else none

/-- The commit states after an event. -/
def nextStates (s : State K) : Event K → BlockStates
  | .gap => s.blockStates
  | .block commitState b => s.blockStates.update b.number commitState

/-- **The writes of an insertion.** -/
def insertWrites (s : State K) (e : Event K) : List (Write K) :=
  match s.stored e with
  | none => []
  | some b =>
    s.maps.storeWrites b ++
      Maps.evictLoop s.capacity (b.number :: s.blockHeights).reverse
        (s.maps.writes (s.maps.storeWrites b))

/-- The ring after an insertion: the height at its front, and what is over at its back gone. -/
def nextHeights (s : State K) (e : Event K) : List UInt64 :=
  match s.stored e with
  | none => s.blockHeights
  | some b => (b.number :: s.blockHeights).take s.capacity

/-- **Inserts an event.** -/
def insert (s : State K) (e : Event K) : State K where
  blockStates := s.nextStates e
  blockHeights := s.nextHeights e
  capacity := s.capacity
  maps := s.maps.writes (s.insertWrites e)

end State

/-- The buffer after a sequence of events. -/
def run (capacity : ℕ) (events : List (Event K)) : State K :=
  events.foldl State.insert (State.new capacity)

/-! ### What a list of writes does -/

namespace Maps

@[simp] theorem writes_nil (m : Maps K) : m.writes [] = m := rfl

@[simp] theorem writes_cons (m : Maps K) (w : Write K) (ws : List (Write K)) :
    m.writes (w :: ws) = (m.write w).writes ws := rfl

@[simp] theorem writes_append (m : Maps K) (ws ws' : List (Write K)) :
    m.writes (ws ++ ws') = (m.writes ws).writes ws' :=
  List.foldl_append

/-- Removing transactions changes no other map, and leaves the other transactions. -/
theorem writes_removeTx (m : Maps K) (ts : List B256) :
    (m.writes (ts.map .removeTx)).blockByHeight = m.blockByHeight ∧
      (m.writes (ts.map .removeTx)).blockHeightByHash = m.blockHeightByHash ∧
      ∀ t, (m.writes (ts.map .removeTx)).txByHash t = if t ∈ ts then none else m.txByHash t := by
  induction ts generalizing m with
  | nil => simp
  | cons u ts ih =>
    obtain ⟨hblock, hhash, htx⟩ := ih (m.write (.removeTx u))
    refine ⟨hblock, hhash, fun t => (htx t).trans ?_⟩
    change (if t ∈ ts then none else Function.update m.txByHash u none t) = _
    by_cases hu : t = u
    · simp [hu]
    · simp [hu]

/-- The entries of transactions change no other map, and leave the other transactions. -/
theorem writes_txWrites (m : Maps K) (height : UInt64) (i : ℕ) (es : List (Executed K)) :
    (m.writes (txWrites height i es)).blockByHeight = m.blockByHeight ∧
      (m.writes (txWrites height i es)).blockHeightByHash = m.blockHeightByHash ∧
      ∀ t, t ∉ es.map (fun e => K.txHash e.tx) →
        (m.writes (txWrites height i es)).txByHash t = m.txByHash t := by
  induction es generalizing m i with
  | nil => simp [txWrites]
  | cons e es ih =>
    obtain ⟨hblock, hhash, htx⟩ :=
      ih (m.write (.putTx (K.transactionHash e.receipt) ⟨height, i⟩ e.receipt)) (i + 1)
    refine ⟨hblock, hhash, fun t ht => ?_⟩
    rw [List.map_cons, List.mem_cons, not_or] at ht
    refine (htx t ht.2).trans (Function.update_of_ne ?_ _ _)
    rw [e.hash_eq]
    exact ht.1

/-- Each transaction gets its place and its receipt. -/
theorem txByHash_txWrites (m : Maps K) (height : UInt64) {es : List (Executed K)}
    (hnodup : (es.map fun e => K.txHash e.tx).Nodup) (i j : ℕ) {e : Executed K}
    (he : es[j]? = some e) :
    (m.writes (txWrites height i es)).txByHash (K.txHash e.tx) =
      some (⟨height, i + j⟩, e.receipt) := by
  induction es generalizing m i j with
  | nil => simp at he
  | cons f es ih =>
    rw [List.map_cons, List.nodup_cons] at hnodup
    cases j with
    | zero =>
      obtain rfl : f = e := by simpa using he
      -- the entry is written first, and the other transactions are not written over it
      refine ((writes_txWrites _ height (i + 1) es).2.2 _ hnodup.1).trans ?_
      change Function.update m.txByHash (K.transactionHash f.receipt) _ (K.txHash f.tx) = _
      rw [f.hash_eq, Function.update_self]
      rfl
    | succ j =>
      have hstep := ih (m.write (.putTx (K.transactionHash f.receipt) ⟨height, i⟩ f.receipt))
        hnodup.2 (i + 1) j (by simpa using he)
      rw [show i + (j + 1) = i + 1 + j by omega]
      exact hstep

/-- What the index maps keep when the block `b`, if any, leaves them. -/
structure Drops (m m' : Maps K) (b : Option (Block K)) : Prop where
  hash : ∀ h height, m'.blockHeightByHash h = some height ↔
    m.blockHeightByHash h = some height ∧ ∀ old, b = some old → K.hash old.header ≠ h
  tx : ∀ t v, m'.txByHash t = some v ↔
    m.txByHash t = some v ∧ ∀ old, b = some old → t ∉ old.txHashes

theorem drops_none (m m' : Maps K) (hhash : m'.blockHeightByHash = m.blockHeightByHash)
    (htx : m'.txByHash = m.txByHash) : Drops m m' none where
  hash h height := by simp [hhash]
  tx t v := by simp [htx]

theorem drops_some (m m' : Maps K) (b : Block K)
    (hhash : ∀ h, m'.blockHeightByHash h =
      if h = K.hash b.header then none else m.blockHeightByHash h)
    (htx : ∀ t, m'.txByHash t = if t ∈ b.txHashes then none else m.txByHash t) :
    Drops m m' (some b) where
  hash h height := by
    rw [hhash]
    split
    · next heq => simp [heq]
    · next hne => simp [Ne.symm hne]
  tx t v := by
    rw [htx]
    split
    · next hmem => simp [hmem]
    · next hnot => simp [hnot]

/-- A replaced block leaves the index maps. -/
theorem drops_replaceWrites (m : Maps K) (b : Option (Block K)) :
    (m.writes (replaceWrites b)).blockByHeight = m.blockByHeight ∧
      Drops m (m.writes (replaceWrites b)) b := by
  cases b with
  | none => exact ⟨rfl, drops_none _ _ rfl rfl⟩
  | some b =>
    obtain ⟨hblock, hhash, htx⟩ :=
      writes_removeTx (m.write (.removeHash (K.hash b.header))) b.txHashes
    refine ⟨hblock, drops_some _ _ b (fun h => ?_) htx⟩
    refine (congrFun hhash h).trans ?_
    exact Function.update_apply ..

/-- An evicted block leaves all maps. -/
theorem drops_evictWrites (m : Maps K) (height : UInt64) :
    (∀ n, (m.writes (m.evictWrites height)).blockByHeight n =
      if n = height then none else m.blockByHeight n) ∧
      Drops m (m.writes (m.evictWrites height)) (m.blockByHeight height) := by
  unfold evictWrites
  cases m.blockByHeight height with
  | none => exact ⟨fun n => Function.update_apply .., drops_none _ _ rfl rfl⟩
  | some b =>
    obtain ⟨hblock, hhash, htx⟩ := writes_removeTx (m.write (.removeBlock height)) b.txHashes
    rw [writes_cons, writes_append]
    refine ⟨fun n => (congrFun hblock n).trans (Function.update_apply ..),
      drops_some _ _ b (fun h => ?_) htx⟩
    change Function.update (writes _ _).blockHeightByHash (K.hash b.header) none h = _
    rw [Function.update_apply]
    split
    · rfl
    · exact congrFun hhash h

section Store

variable (m : Maps K) (b : ExecutedBlock K)

theorem writes_storeWrites :
    m.writes (m.storeWrites b) =
      (((m.write (.putBlock b.number b.toBlock)).writes
        (replaceWrites (m.blockByHeight b.number))).write (.putHash b.hash b.number)).writes
        (txWrites b.number 0 b.transactions) := by
  rw [storeWrites, List.cons_append, writes_cons, writes_append, writes_cons]

/-- A stored block is at its height, and the other heights are as before. -/
theorem blockByHeight_storeWrites (n : UInt64) :
    (m.writes (m.storeWrites b)).blockByHeight n =
      if n = b.number then some b.toBlock else m.blockByHeight n := by
  rw [writes_storeWrites, (writes_txWrites ..).1]
  change (writes _ _).blockByHeight n = _
  rw [(drops_replaceWrites ..).1]
  exact Function.update_apply ..

theorem blockHeightByHash_storeWrites_self :
    (m.writes (m.storeWrites b)).blockHeightByHash b.hash = some b.number := by
  rw [writes_storeWrites, (writes_txWrites ..).2.1]
  exact Function.update_self ..

/-- The other hashes are as before, except the one of the replaced block. -/
theorem blockHeightByHash_storeWrites_of_ne {h : B256} (hne : h ≠ b.hash) (height : UInt64) :
    (m.writes (m.storeWrites b)).blockHeightByHash h = some height ↔
      m.blockHeightByHash h = some height ∧
        ∀ old, m.blockByHeight b.number = some old → K.hash old.header ≠ h := by
  rw [writes_storeWrites, (writes_txWrites ..).2.1]
  change Function.update (writes _ _).blockHeightByHash b.hash (some b.number) h = _ ↔ _
  rw [Function.update_of_ne hne, (drops_replaceWrites ..).2.hash]
  rfl

/-- The transactions of a stored block are found. -/
theorem txByHash_storeWrites_self (hnodup : b.txHashes.Nodup) {i : ℕ} {e : Executed K}
    (he : b.transactions[i]? = some e) :
    (m.writes (m.storeWrites b)).txByHash (K.txHash e.tx) =
      some (⟨b.number, i⟩, e.receipt) := by
  rw [writes_storeWrites, txByHash_txWrites _ _ hnodup 0 i he, Nat.zero_add]

/-- The other transactions are as before, except those of the replaced block. -/
theorem txByHash_storeWrites_of_notMem {t : B256} (ht : t ∉ b.txHashes)
    (v : TxLoc × K.Receipt) :
    (m.writes (m.storeWrites b)).txByHash t = some v ↔
      m.txByHash t = some v ∧
        ∀ old, m.blockByHeight b.number = some old → t ∉ old.txHashes := by
  rw [writes_storeWrites, (writes_txWrites ..).2.2 t ht]
  change (writes _ _).txByHash t = _ ↔ _
  rw [(drops_replaceWrites ..).2.tx]
  rfl

end Store

end Maps

/-! ### Agreement of the maps -/

/-- A block with its entries in the three maps. -/
structure Maps.Holds (m : Maps K) (b : ExecutedBlock K) : Prop where
  block : m.blockByHeight b.number = some b.toBlock
  hash : m.blockHeightByHash b.hash = some b.number
  tx : ∀ i e, b.transactions[i]? = some e →
    m.txByHash (K.txHash e.tx) = some (⟨b.number, i⟩, e.receipt)

/-- **The maps agree**: a buffered block is one of the blocks `known` and has all its entries, and
every entry is of a buffered block. -/
structure Maps.Agree (known : ExecutedBlock K → Prop) (m : Maps K) : Prop where
  held : ∀ n b, m.blockByHeight n = some b →
    ∃ eb, known eb ∧ eb.number = n ∧ eb.toBlock = b ∧ m.Holds eb
  hash : ∀ h n, m.blockHeightByHash h = some n → ∃ b, m.blockByHeight n = some b ∧
    K.hash b.header = h
  tx : ∀ t v, m.txByHash t = some v → ∃ b, m.blockByHeight v.1.blockHeight = some b ∧
    b.transactions[v.1.txIdx]?.map K.txHash = some t

namespace Maps

variable {m : Maps K} {known : ExecutedBlock K → Prop}

theorem Agree.empty : Agree known (empty : Maps K) where
  held n b h := by simp [Maps.empty] at h
  hash h n hn := by simp [Maps.empty] at hn
  tx t v hv := by simp [Maps.empty] at hv

theorem Agree.mono (hm : Agree known m) {known' : ExecutedBlock K → Prop}
    (hle : ∀ b, known b → known' b) : Agree known' m :=
  { hm with
    held := fun n b hb => by
      obtain ⟨eb, hk, hrest⟩ := hm.held n b hb
      exact ⟨eb, hle eb hk, hrest⟩ }

/-- The hash of a buffered block leads to its height. -/
theorem Agree.blockHeightByHash_eq (hm : Agree known m) {n : UInt64} {b : Block K}
    (hb : m.blockByHeight n = some b) : m.blockHeightByHash (K.hash b.header) = some n := by
  obtain ⟨eb, -, rfl, rfl, hheld⟩ := hm.held n b hb
  exact hheld.hash

/-- A transaction of a buffered block leads to its height. -/
theorem Agree.txByHash_eq (hm : Agree known m) {n : UInt64} {b : Block K}
    (hb : m.blockByHeight n = some b) {t : B256} (ht : t ∈ b.txHashes) :
    ∃ i r, m.txByHash t = some (⟨n, i⟩, r) := by
  obtain ⟨eb, -, rfl, rfl, hheld⟩ := hm.held n b hb
  rw [ExecutedBlock.txHashes_toBlock, ExecutedBlock.txHashes] at ht
  obtain ⟨e, he, rfl⟩ := List.mem_map.mp ht
  obtain ⟨i, hi⟩ := List.mem_iff_getElem?.mp he
  exact ⟨i, e.receipt, hheld.tx i e hi⟩

/-- Blocks at different heights have different hashes. -/
theorem Agree.hash_ne (hm : Agree known m) {n n' : UInt64} {b b' : Block K}
    (hb : m.blockByHeight n = some b) (hb' : m.blockByHeight n' = some b') (hne : n ≠ n') :
    K.hash b.header ≠ K.hash b'.header := by
  intro heq
  have hn := hm.blockHeightByHash_eq hb
  rw [heq, hm.blockHeightByHash_eq hb'] at hn
  exact hne (Option.some.inj hn).symm

/-- Blocks at different heights share no transaction. -/
theorem Agree.disjoint (hm : Agree known m) {n n' : UInt64} {b b' : Block K}
    (hb : m.blockByHeight n = some b) (hb' : m.blockByHeight n' = some b') (hne : n ≠ n')
    {t : B256} (ht : t ∈ b.txHashes) : t ∉ b'.txHashes := by
  intro ht'
  obtain ⟨i, r, hn⟩ := hm.txByHash_eq hb ht
  obtain ⟨i', r', hn'⟩ := hm.txByHash_eq hb' ht'
  rw [hn', Option.some.injEq, Prod.mk.injEq, TxLoc.mk.injEq] at hn
  exact hne hn.1.1.symm

/-- The transaction under a hash is in the block at its height. -/
theorem Agree.mem_txHashes (hm : Agree known m) {t : B256} {v : TxLoc × K.Receipt}
    (hv : m.txByHash t = some v) :
    ∃ b, m.blockByHeight v.1.blockHeight = some b ∧ t ∈ b.txHashes := by
  obtain ⟨b, hb, hidx⟩ := hm.tx t v hv
  obtain ⟨tx, htx, rfl⟩ := Option.map_eq_some_iff.mp hidx
  exact ⟨b, hb, List.mem_map_of_mem (List.mem_of_getElem? htx)⟩

/-- **A block keeps its entries when the block at another height leaves the index maps.** -/
theorem Agree.keep (hm : Agree known m) {m' : Maps K} {n : UInt64} {eb : ExecutedBlock K}
    (heb : m.Holds eb) (hne : eb.number ≠ n)
    (hblock : m'.blockByHeight eb.number = m.blockByHeight eb.number)
    (hhash : ∀ height, m'.blockHeightByHash eb.hash = some height ↔
      m.blockHeightByHash eb.hash = some height ∧
        ∀ old, m.blockByHeight n = some old → K.hash old.header ≠ eb.hash)
    (htx : ∀ t ∈ eb.txHashes, ∀ v, m'.txByHash t = some v ↔
      m.txByHash t = some v ∧ ∀ old, m.blockByHeight n = some old → t ∉ old.txHashes) :
    m'.Holds eb where
  block := hblock.trans heb.block
  hash := (hhash _).mpr ⟨heb.hash, fun _ hold => hm.hash_ne hold heb.block hne.symm⟩
  tx i e he := by
    have hmem : K.txHash e.tx ∈ eb.txHashes := List.mem_map_of_mem (List.mem_of_getElem? he)
    refine (htx _ hmem _).mpr ⟨heb.tx i e he, fun old hold => ?_⟩
    exact hm.disjoint heb.block hold hne (by rwa [ExecutedBlock.txHashes_toBlock])

/-- An eviction keeps the maps in agreement. -/
theorem Agree.evict (hm : Agree known m) (height : UInt64) :
    Agree known (m.writes (m.evictWrites height)) := by
  obtain ⟨hblock, hdrops⟩ := drops_evictWrites m height
  refine ⟨fun n b hb => ?_, fun h n hn => ?_, fun t v hv => ?_⟩
  · rw [hblock] at hb
    split at hb
    · exact absurd hb.symm (Option.some_ne_none b)
    · next hne =>
      obtain ⟨eb, hk, rfl, rfl, heb⟩ := hm.held n b hb
      refine ⟨eb, hk, rfl, rfl, hm.keep heb hne ?_ (hdrops.hash _) fun t _ => hdrops.tx t⟩
      rw [hblock, if_neg hne]
  · obtain ⟨hn, hold⟩ := (hdrops.hash h n).mp hn
    obtain ⟨b, hb, rfl⟩ := hm.hash h n hn
    refine ⟨b, ?_, rfl⟩
    rw [hblock, if_neg]
    · exact hb
    · rintro rfl
      exact hold b hb rfl
  · obtain ⟨hv, hold⟩ := (hdrops.tx t v).mp hv
    obtain ⟨b, hb, ht⟩ := hm.mem_txHashes hv
    obtain ⟨b', hb', hidx⟩ := hm.tx t v hv
    refine ⟨b', ?_, hidx⟩
    rw [hblock, if_neg]
    · exact hb'
    · intro heq
      exact hold b (heq ▸ hb) ht

theorem Agree.evictLoop (hm : Agree known m) (capacity : ℕ) (back : List UInt64) :
    Agree known (m.writes (Maps.evictLoop capacity back m)) := by
  induction back generalizing m with
  | nil => exact hm
  | cons height back ih =>
    rw [Maps.evictLoop]
    split
    · rw [writes_append]
      exact ih (hm.evict height)
    · exact hm

/-- **Storing a block keeps the maps in agreement** if it shares no transaction with a block at
another height. -/
theorem Agree.store (hm : Agree known m) {b : ExecutedBlock K} (hb : known b)
    (hnodup : b.txHashes.Nodup) (hinj : ∀ eb, known eb → eb.hash = b.hash → eb = b)
    (hapart : ∀ n old, m.blockByHeight n = some old → n ≠ b.number →
      ∀ t ∈ b.txHashes, t ∉ old.txHashes) :
    Agree known (m.writes (m.storeWrites b)) := by
  refine ⟨fun n c hc => ?_, fun h n hn => ?_, fun t v hv => ?_⟩
  · rw [blockByHeight_storeWrites] at hc
    split at hc
    · next heq =>
      obtain rfl := Option.some.inj hc
      refine ⟨b, hb, heq.symm, rfl, ?_, blockHeightByHash_storeWrites_self m b, fun i e he =>
        txByHash_storeWrites_self m b hnodup he⟩
      rw [blockByHeight_storeWrites, if_pos rfl]
    · next hne =>
      obtain ⟨eb, hk, rfl, rfl, heb⟩ := hm.held n c hc
      have hhash : eb.hash ≠ b.hash := fun heq => hne (congrArg _ (hinj eb hk heq))
      refine ⟨eb, hk, rfl, rfl, hm.keep heb hne ?_
        (blockHeightByHash_storeWrites_of_ne m b hhash) fun t ht => ?_⟩
      · rw [blockByHeight_storeWrites, if_neg hne]
      · refine txByHash_storeWrites_of_notMem m b fun ht' => ?_
        exact hapart _ _ heb.block hne t ht' (by rwa [ExecutedBlock.txHashes_toBlock])
  · by_cases hh : h = b.hash
    · subst hh
      rw [blockHeightByHash_storeWrites_self] at hn
      obtain rfl := Option.some.inj hn
      refine ⟨b.toBlock, ?_, rfl⟩
      rw [blockByHeight_storeWrites, if_pos rfl]
    · obtain ⟨hn, hold⟩ := (blockHeightByHash_storeWrites_of_ne m b hh n).mp hn
      obtain ⟨c, hc, rfl⟩ := hm.hash h n hn
      refine ⟨c, ?_, rfl⟩
      rw [blockByHeight_storeWrites, if_neg]
      · exact hc
      · rintro rfl
        exact hold c hc rfl
  · by_cases ht : t ∈ b.txHashes
    · obtain ⟨e, he, rfl⟩ := List.mem_map.mp ht
      obtain ⟨i, hi⟩ := List.mem_iff_getElem?.mp he
      rw [txByHash_storeWrites_self m b hnodup hi] at hv
      obtain rfl := Option.some.inj hv
      refine ⟨b.toBlock, ?_, ?_⟩
      · rw [blockByHeight_storeWrites, if_pos rfl]
      · simp [ExecutedBlock.toBlock, hi]
    · obtain ⟨hv, hold⟩ := (txByHash_storeWrites_of_notMem m b ht v).mp hv
      obtain ⟨c, hc, hmem⟩ := hm.mem_txHashes hv
      obtain ⟨c', hc', hidx⟩ := hm.tx t v hv
      refine ⟨c', ?_, hidx⟩
      rw [blockByHeight_storeWrites, if_neg]
      · exact hc'
      · intro heq
        exact hold c (heq ▸ hc) hmem

/-- The receipts of a block that has its entries are found, in order. -/
theorem Holds.getReceiptsByBlockHeight {b : ExecutedBlock K} (hb : m.Holds b) :
    m.getReceiptsByBlockHeight b.number = some b.receipts := by
  have hreceipt : ∀ e ∈ b.transactions,
      m.getReceiptByTxHash (K.txHash e.tx) = some e.receipt := by
    intro e he
    obtain ⟨i, hi⟩ := List.mem_iff_getElem?.mp he
    rw [getReceiptByTxHash, hb.tx i e hi, Option.map_some]
  rw [Maps.getReceiptsByBlockHeight, hb.block, Option.bind_eq_bind, Option.bind_some,
    ExecutedBlock.txHashes_toBlock, ExecutedBlock.txHashes, ExecutedBlock.receipts]
  clear hb
  generalize b.transactions = es at hreceipt ⊢
  induction es with
  | nil => rfl
  | cons e es ih =>
    obtain ⟨hhead, htail⟩ := List.forall_mem_cons.mp hreceipt
    rw [List.map_cons, List.mapM_cons, hhead, ih htail]
    rfl

/-- The transactions of a block that has its entries are found. -/
theorem Holds.getTransactionByHash {b : ExecutedBlock K} (hb : m.Holds b) {e : Executed K}
    (he : e ∈ b.transactions) : m.getTransactionByHash (K.txHash e.tx) = some e.tx := by
  obtain ⟨i, hi⟩ := List.mem_iff_getElem?.mp he
  simp [Maps.getTransactionByHash, Maps.getTransactionByLocation, hb.tx i e hi, hb.block,
    ExecutedBlock.toBlock, hi]

end Maps

/-! ### Sequences of events -/

/-- The block of an event. -/
def Event.block? : Event K → Option (ExecutedBlock K)
  | .gap => none
  | .block _ b => some b

/-- A block of one of the events. -/
def Known (events : List (Event K)) (b : ExecutedBlock K) : Prop := ∃ e ∈ events, e.block? = some b

/-- **Events of one chain of execution**: a hash determines its block, and the transactions of a
block are distinct. -/
structure Coherent (events : List (Event K)) : Prop where
  hash_inj : ∀ b b', Known events b → Known events b' → b.hash = b'.hash → b = b'
  nodup : ∀ b, Known events b → b.txHashes.Nodup

/-- The block of an event, if it is stored, shares no transaction with a block that is buffered at
another height. -/
def State.Apart (s : State K) (e : Event K) : Prop :=
  ∀ b, s.stored e = some b → ∀ n old, s.maps.blockByHeight n = some old → n ≠ b.number →
    ∀ t ∈ b.txHashes, t ∉ old.txHashes

theorem Known.mono {events events' : List (Event K)} (hsub : ∀ e ∈ events, e ∈ events')
    {b : ExecutedBlock K} (hb : Known events b) : Known events' b := by
  obtain ⟨e, he, hblock⟩ := hb
  exact ⟨e, hsub e he, hblock⟩

theorem Coherent.mono {events events' : List (Event K)} (hsub : ∀ e ∈ events, e ∈ events')
    (hco : Coherent events') : Coherent events where
  hash_inj b b' hb hb' := hco.hash_inj b b' (hb.mono hsub) (hb'.mono hsub)
  nodup b hb := hco.nodup b (hb.mono hsub)

/-- What is stored is the event's block. -/
theorem State.block?_of_stored {s : State K} {e : Event K} {b : ExecutedBlock K}
    (hstored : s.stored e = some b) : e.block? = some b := by
  unfold State.stored at hstored
  split at hstored
  · exact absurd hstored.symm (Option.some_ne_none b)
  · exact absurd hstored.symm (Option.some_ne_none b)
  · exact hstored
  · split at hstored
    · exact hstored
    · exact absurd hstored.symm (Option.some_ne_none b)
  · split at hstored
    · exact hstored
    · exact absurd hstored.symm (Option.some_ne_none b)

@[simp] theorem run_nil (capacity : ℕ) : run capacity ([] : List (Event K)) = .new capacity := rfl

@[simp] theorem run_concat (capacity : ℕ) (events : List (Event K)) (e : Event K) :
    run capacity (events ++ [e]) = (run capacity events).insert e := by
  rw [run, List.foldl_append]
  rfl

/-- One insertion. -/
theorem State.agree_insert {s : State K} {events : List (Event K)} (hco : Coherent events)
    (hs : s.maps.Agree (Known events)) {e : Event K} (he : e ∈ events) (hapart : s.Apart e) :
    (s.insert e).maps.Agree (Known events) := by
  change (s.maps.writes (s.insertWrites e)).Agree (Known events)
  unfold State.insertWrites
  cases hstored : s.stored e with
  | none => exact hs
  | some b =>
    have hb : Known events b := ⟨e, he, State.block?_of_stored hstored⟩
    rw [Maps.writes_append]
    refine Maps.Agree.evictLoop ?_ _ _
    exact hs.store hb (hco.nodup b hb) (fun eb heb heq => hco.hash_inj eb b heb hb heq)
      (hapart b hstored)

/-- A sequence of insertions. -/
theorem agree_run (capacity : ℕ) {events : List (Event K)} (hco : Coherent events)
    (hapart : ∀ pre e, pre ++ [e] <+: events → (run capacity pre).Apart e) :
    (run capacity events).maps.Agree (Known events) := by
  induction events using List.reverseRecOn with
  | nil => exact .empty
  | append_singleton events e ih =>
    have hsub : ∀ f ∈ events, f ∈ events ++ [e] := fun f hf => List.mem_append_left _ hf
    have hs := ih (hco.mono hsub) fun pre f hpre => hapart pre f (hpre.trans ⟨[e], rfl⟩)
    rw [run_concat]
    exact State.agree_insert hco (hs.mono fun b hb => hb.mono hsub) (by simp)
      (hapart events e (List.prefix_refl _))

/-- **Consistency of the buffer**, in terms of its lookups: a buffered block is one of the events'
blocks, its hash leads to its height, its receipts and its transactions are found; and every entry
of the index maps leads to a buffered block that has it. -/
structure Maps.Consistent (events : List (Event K)) (m : Maps K) : Prop where
  block : ∀ n b, m.getBlockByHeight n = some b → ∃ eb, Known events eb ∧ eb.toBlock = b ∧
    m.blockHeightByHash (K.hash b.header) = some n ∧
    m.getReceiptsByBlockHeight n = some eb.receipts ∧
    ∀ tx ∈ b.transactions, m.getTransactionByHash (K.txHash tx) = some tx
  hash : ∀ h n, m.blockHeightByHash h = some n →
    ∃ b, m.getBlockByHeight n = some b ∧ K.hash b.header = h
  tx : ∀ t loc r, m.txByHash t = some (loc, r) →
    ∃ b, m.getBlockByHeight loc.blockHeight = some b ∧
      b.transactions[loc.txIdx]?.map K.txHash = some t

theorem Maps.Agree.consistent {m : Maps K} {events : List (Event K)}
    (hm : m.Agree (Known events)) : m.Consistent events where
  block n b hb := by
    obtain ⟨eb, hk, rfl, rfl, heb⟩ := hm.held n b hb
    refine ⟨eb, hk, rfl, heb.hash, heb.getReceiptsByBlockHeight, fun tx htx => ?_⟩
    obtain ⟨e, he, rfl⟩ := List.mem_map.mp htx
    exact heb.getTransactionByHash he
  hash := hm.hash
  tx t loc r hv := hm.tx t (loc, r) hv

/-- **The buffer is consistent after every event** if no stored block shares a transaction with a
block that is buffered at another height. -/
theorem run_consistent (capacity : ℕ) (events : List (Event K)) (hco : Coherent events)
    (hapart : ∀ pre e, pre ++ [e] <+: events → (run capacity pre).Apart e) :
    ∀ pre, pre <+: events → (run capacity pre).maps.Consistent pre := by
  intro pre hpre
  have hsub : ∀ e ∈ pre, e ∈ events := fun e he => hpre.subset he
  refine (agree_run capacity (hco.mono hsub) fun pre' e hpre' => ?_).consistent
  exact hapart pre' e (hpre'.trans hpre)

/-! ### The blocks that were stored -/

/-- The blocks that were stored, the last one first. -/
def storedBlocks (capacity : ℕ) (events : List (Event K)) : List (ExecutedBlock K) :=
  (events.foldl (fun p e => (p.1.insert e, (p.1.stored e).toList ++ p.2))
    (State.new capacity, ([] : List (ExecutedBlock K)))).2

theorem foldl_fst (capacity : ℕ) (events : List (Event K)) :
    (events.foldl (fun p e => (p.1.insert e, (p.1.stored e).toList ++ p.2))
      (State.new capacity, ([] : List (ExecutedBlock K)))).1 = run capacity events := by
  induction events using List.reverseRecOn with
  | nil => rfl
  | append_singleton events e ih => rw [List.foldl_append, List.foldl_cons, List.foldl_nil, ih,
      run_concat]

@[simp] theorem storedBlocks_nil (capacity : ℕ) :
    storedBlocks capacity ([] : List (Event K)) = [] := rfl

@[simp] theorem storedBlocks_concat (capacity : ℕ) (events : List (Event K)) (e : Event K) :
    storedBlocks capacity (events ++ [e]) =
      ((run capacity events).stored e).toList ++ storedBlocks capacity events := by
  rw [storedBlocks, List.foldl_append, List.foldl_cons, List.foldl_nil, foldl_fst]
  rfl

/-- What was stored stays stored. -/
theorem storedBlocks_subset {capacity : ℕ} {pre events : List (Event K)} (hpre : pre <+: events) :
    storedBlocks capacity pre ⊆ storedBlocks capacity events := by
  obtain ⟨post, rfl⟩ := hpre
  induction post using List.reverseRecOn with
  | nil => simp
  | append_singleton post e ih =>
    rw [← List.append_assoc, storedBlocks_concat]
    exact fun b hb => List.mem_append_right _ (ih hb)

/-- What is stored is a block of the events. -/
theorem known_of_mem_storedBlocks {capacity : ℕ} {events : List (Event K)} {b : ExecutedBlock K}
    (hb : b ∈ storedBlocks capacity events) : Known events b := by
  induction events using List.reverseRecOn with
  | nil => simp at hb
  | append_singleton events e ih =>
    rw [storedBlocks_concat, List.mem_append, Option.mem_toList] at hb
    rcases hb with hb | hb
    · exact ⟨e, by simp, State.block?_of_stored hb⟩
    · exact (ih hb).mono fun f hf => List.mem_append_left _ hf

/-! ### Where entries come from -/

/-- A block has a transaction with its receipt at a place. -/
def ExecutedBlock.Has (b : ExecutedBlock K) (t : B256) (v : TxLoc × K.Receipt) : Prop :=
  b.number = v.1.blockHeight ∧
    ∃ e, b.transactions[v.1.txIdx]? = some e ∧ K.txHash e.tx = t ∧ e.receipt = v.2

/-- **Every entry is of one of the blocks `known`.** Unlike agreement this holds between any two
writes. -/
structure Maps.From (known : ExecutedBlock K → Prop) (m : Maps K) : Prop where
  block : ∀ n b, m.blockByHeight n = some b → ∃ eb, known eb ∧ eb.number = n ∧ eb.toBlock = b
  hash : ∀ h n, m.blockHeightByHash h = some n → ∃ eb, known eb ∧ eb.number = n ∧ eb.hash = h
  tx : ∀ t v, m.txByHash t = some v → ∃ eb, known eb ∧ eb.Has t v

/-- What is put is of one of the blocks `known`. -/
def Write.From (known : ExecutedBlock K → Prop) : Write K → Prop
  | .putBlock n b => ∃ eb, known eb ∧ eb.number = n ∧ eb.toBlock = b
  | .putHash h n => ∃ eb, known eb ∧ eb.number = n ∧ eb.hash = h
  | .putTx t loc r => ∃ eb, known eb ∧ eb.Has t (loc, r)
  | .removeBlock _ | .removeHash _ | .removeTx _ => True

theorem Write.From.mono {known known' : ExecutedBlock K → Prop} (hle : ∀ b, known b → known' b)
    {w : Write K} (hw : w.From known) : w.From known' := by
  cases w with
  | putBlock n b => exact hw.imp fun eb => And.imp_left (hle eb)
  | putHash h n => exact hw.imp fun eb => And.imp_left (hle eb)
  | putTx t loc r => exact hw.imp fun eb => And.imp_left (hle eb)
  | removeBlock n => trivial
  | removeHash h => trivial
  | removeTx t => trivial

namespace Maps

variable {m : Maps K} {known : ExecutedBlock K → Prop}

theorem From.empty : From known (empty : Maps K) where
  block n b h := by simp [Maps.empty] at h
  hash h n hn := by simp [Maps.empty] at hn
  tx t v hv := by simp [Maps.empty] at hv

theorem From.mono (hm : From known m) {known' : ExecutedBlock K → Prop}
    (hle : ∀ b, known b → known' b) : From known' m where
  block n b hb := (hm.block n b hb).imp fun eb => And.imp_left (hle eb)
  hash h n hn := (hm.hash h n hn).imp fun eb => And.imp_left (hle eb)
  tx t v hv := (hm.tx t v hv).imp fun eb => And.imp_left (hle eb)

/-- A property of the values of a map is kept by an update with such a value, or with none. -/
theorem forall_update {α β : Type} [DecidableEq α] {f : α → Option β} {P : α → β → Prop}
    (hf : ∀ a b, f a = some b → P a b) (a : α) {v : Option β} (hv : ∀ b, v = some b → P a b) :
    ∀ x b, Function.update f a v x = some b → P x b := by
  intro x b hb
  rw [Function.update_apply] at hb
  split at hb
  · next heq => exact heq ▸ hv b hb
  · exact hf x b hb

theorem From.write (hm : From known m) {w : Write K} (hw : w.From known) :
    From known (m.write w) := by
  cases w with
  | putBlock n b =>
    exact { hm with block := forall_update hm.block n fun c hc => Option.some.inj hc ▸ hw }
  | putHash h n =>
    exact { hm with hash := forall_update hm.hash h fun c hc => Option.some.inj hc ▸ hw }
  | putTx t loc r =>
    exact { hm with tx := forall_update hm.tx t fun c hc => Option.some.inj hc ▸ hw }
  | removeBlock n => exact { hm with block := forall_update hm.block n fun c hc => by simp at hc }
  | removeHash h => exact { hm with hash := forall_update hm.hash h fun c hc => by simp at hc }
  | removeTx t => exact { hm with tx := forall_update hm.tx t fun c hc => by simp at hc }

theorem From.writes (hm : From known m) {ws : List (Write K)} (hws : ∀ w ∈ ws, w.From known) :
    From known (m.writes ws) := by
  induction ws generalizing m with
  | nil => exact hm
  | cons w ws ih =>
    obtain ⟨hw, hws⟩ := List.forall_mem_cons.mp hws
    exact ih (hm.write hw) hws

theorem from_unindexWrites (b : Block K) {w : Write K} (hw : w ∈ unindexWrites b) :
    w.From known := by
  obtain ⟨t, -, rfl⟩ := List.mem_map.mp hw
  trivial

theorem from_replaceWrites (old : Option (Block K)) {w : Write K} (hw : w ∈ replaceWrites old) :
    w.From known := by
  cases old with
  | none => simp [replaceWrites] at hw
  | some b =>
    rcases List.mem_cons.mp hw with rfl | hw
    · trivial
    · exact from_unindexWrites b hw

theorem from_txWrites {b : ExecutedBlock K} (hb : known b) (pre es : List (Executed K))
    (hsplit : b.transactions = pre ++ es) {w : Write K}
    (hw : w ∈ txWrites b.number pre.length es) : w.From known := by
  induction es generalizing pre with
  | nil => simp [txWrites] at hw
  | cons e es ih =>
    rcases List.mem_cons.mp hw with rfl | hw
    · refine ⟨b, hb, rfl, e, ?_, e.hash_eq.symm, rfl⟩
      simp [hsplit]
    · refine ih (pre ++ [e]) (by simp [hsplit]) ?_
      rwa [List.length_append, List.length_singleton]

/-- A stored block puts its own entries. -/
theorem from_storeWrites (m : Maps K) {b : ExecutedBlock K} (hb : known b) {w : Write K}
    (hw : w ∈ m.storeWrites b) : w.From known := by
  rw [storeWrites, List.cons_append, List.mem_cons, List.mem_append, List.mem_cons] at hw
  rcases hw with rfl | hw | rfl | hw
  · exact ⟨b, hb, rfl, rfl⟩
  · exact from_replaceWrites _ hw
  · exact ⟨b, hb, rfl, rfl⟩
  · exact from_txWrites hb [] b.transactions rfl hw

theorem from_evictWrites (m : Maps K) (height : UInt64) {w : Write K}
    (hw : w ∈ m.evictWrites height) : w.From known := by
  rcases List.mem_cons.mp hw with rfl | hw
  · trivial
  · split at hw
    · simp at hw
    · next b hb =>
      rcases List.mem_append.mp hw with hw | hw
      · exact from_unindexWrites b hw
      · rw [List.mem_singleton.mp hw]
        trivial

theorem from_evictLoop (capacity : ℕ) (back : List UInt64) (m : Maps K) {w : Write K}
    (hw : w ∈ evictLoop capacity back m) : w.From known := by
  induction back generalizing m with
  | nil => simp [evictLoop] at hw
  | cons height back ih =>
    rw [evictLoop] at hw
    split at hw
    · rcases List.mem_append.mp hw with hw | hw
      · exact from_evictWrites m height hw
      · exact ih _ hw
    · simp at hw

end Maps

/-- **An insertion puts nothing but the entries of the block it stores.** -/
theorem State.from_insertWrites (s : State K) (e : Event K) {w : Write K}
    (hw : w ∈ s.insertWrites e) : w.From fun b => s.stored e = some b := by
  unfold State.insertWrites at hw
  split at hw
  · simp at hw
  · next b hb =>
    rcases List.mem_append.mp hw with hw | hw
    · exact Maps.from_storeWrites _ hb hw
    · exact Maps.from_evictLoop _ _ _ hw

/-- What is buffered was stored. -/
theorem from_run (capacity : ℕ) (events : List (Event K)) :
    (run capacity events).maps.From (· ∈ storedBlocks capacity events) := by
  induction events using List.reverseRecOn with
  | nil => exact .empty
  | append_singleton events e ih =>
    rw [run_concat, storedBlocks_concat]
    refine (ih.mono fun b hb => List.mem_append_right _ hb).writes fun w hw => ?_
    refine (State.from_insertWrites _ e hw).mono fun b hb => ?_
    exact List.mem_append_left _ (Option.mem_toList.mpr hb)

/-- Blocks that share no transaction across heights are apart whenever they are stored. -/
theorem apart_of_disjoint (capacity : ℕ) {events : List (Event K)}
    (hdisjoint : ∀ b b', Known events b → Known events b' → b.number ≠ b'.number →
      ∀ t ∈ b.txHashes, t ∉ b'.txHashes) (pre : List (Event K)) (e : Event K)
    (hpre : pre ++ [e] <+: events) : (run capacity pre).Apart e := by
  intro b hb n old hold hne t ht
  obtain ⟨eb, hk, rfl, rfl⟩ := (from_run capacity pre).block n old hold
  rw [ExecutedBlock.txHashes_toBlock]
  refine hdisjoint b eb ⟨e, hpre.subset (by simp), State.block?_of_stored hb⟩ ?_ hne.symm t ht
  exact (known_of_mem_storedBlocks hk).mono fun f hf => hpre.subset (List.mem_append_left _ hf)

/-! ### Small blocks -/

/-- Headers of a number and a byte for the hash, transactions of a byte, and receipts that name
their block and their transaction. -/
def smallKinds : Kinds where
  Header := UInt64 × UInt8
  Tx := UInt8
  Receipt := UInt8 × UInt8
  number := Prod.fst
  hash header := word header.2
  txHash := word
  transactionHash r := word r.2

/-- The block with the given number, hash and transactions. -/
def smallBlock (number : UInt64) (hash : UInt8) (txs : List UInt8) : ExecutedBlock smallKinds where
  header := (number, hash)
  transactions := txs.map fun t => ⟨t, (hash, t), rfl⟩

/-- Two blocks without a common transaction, the second one twice. -/
def apartEvents : List (Event smallKinds) :=
  [.block .proposed (smallBlock 1 1 [1, 2]), .block .proposed (smallBlock 2 2 [3]),
    .block .finalized (smallBlock 2 2 [3])]

/-- The receipts of the two blocks are found. -/
theorem run_consistent_apart :
    Coherent apartEvents ∧ (run 2 apartEvents).maps.Consistent apartEvents := by
  have hknown : ∀ b, Known apartEvents b → b = smallBlock 1 1 [1, 2] ∨ b = smallBlock 2 2 [3] := by
    rintro b ⟨e, he, hb⟩
    simp only [apartEvents, List.mem_cons, List.not_mem_nil, or_false] at he
    rcases he with rfl | rfl | rfl
    · exact .inl (Option.some.inj hb).symm
    · exact .inr (Option.some.inj hb).symm
    · exact .inr (Option.some.inj hb).symm
  have hco : Coherent apartEvents := by
    refine ⟨fun b b' hb hb' heq => ?_, fun b hb => ?_⟩
    · rcases hknown b hb with rfl | rfl <;> rcases hknown b' hb' with rfl | rfl
      · rfl
      · exact absurd heq (by decide)
      · exact absurd heq (by decide)
      · rfl
    · rcases hknown b hb with rfl | rfl <;> decide
  refine ⟨hco, run_consistent 2 apartEvents hco ?_ _ (List.prefix_refl _)⟩
  refine apart_of_disjoint 2 fun b b' hb hb' hne => ?_
  rcases hknown b hb with rfl | rfl <;> rcases hknown b' hb' with rfl | rfl
  · exact absurd rfl hne
  · decide
  · decide
  · exact absurd rfl hne

/-- A fork: a block and its child, another block of the first one's height with the child's
transaction, and then the first block is finalized. -/
def forkEvents : List (Event smallKinds) :=
  [.block .proposed (smallBlock 1 1 []), .block .proposed (smallBlock 2 2 [7]),
    .block .proposed (smallBlock 1 3 [7]), .block .finalized (smallBlock 1 1 [])]

/-- The block that leaves takes the entry of the child's transaction with it. -/
theorem fork_loses_transaction :
    Coherent forkEvents ∧ ¬(run 5 forkEvents).maps.Consistent forkEvents := by
  have hknown : ∀ b, Known forkEvents b →
      b ∈ [smallBlock 1 1 [], smallBlock 2 2 [7], smallBlock 1 3 [7]] := by
    rintro b ⟨e, he, hb⟩
    simp only [forkEvents, List.mem_cons, List.not_mem_nil, or_false] at he ⊢
    rcases he with rfl | rfl | rfl | rfl
    · exact .inl (Option.some.inj hb).symm
    · exact .inr (.inl (Option.some.inj hb).symm)
    · exact .inr (.inr (Option.some.inj hb).symm)
    · exact .inl (Option.some.inj hb).symm
  refine ⟨⟨fun b b' hb hb' heq => ?_, fun b hb => ?_⟩, fun hcon => ?_⟩
  · have hb := hknown b hb
    have hb' := hknown b' hb'
    simp only [List.mem_cons, List.not_mem_nil, or_false] at hb hb'
    rcases hb with rfl | rfl | rfl <;> rcases hb' with rfl | rfl | rfl
    all_goals first | rfl | exact absurd heq (by decide)
  · have hb := hknown b hb
    simp only [List.mem_cons, List.not_mem_nil, or_false] at hb
    rcases hb with rfl | rfl | rfl <;> decide
  · -- the child is buffered, and its transaction is not found
    have hchild : (run 5 forkEvents).maps.getBlockByHeight 2 =
        some (smallBlock 2 2 [7]).toBlock := rfl
    have hlost : (run 5 forkEvents).maps.getTransactionByHash (word 7) = none := rfl
    obtain ⟨eb, -, -, -, -, htx⟩ := hcon.block 2 _ hchild
    have hfound := htx (7 : UInt8) (List.mem_singleton_self _)
    rw [show smallKinds.txHash (7 : UInt8) = word 7 from rfl, hlost] at hfound
    exact Option.some_ne_none _ hfound.symm

end Buffer

end Rpc

end MonadServices
