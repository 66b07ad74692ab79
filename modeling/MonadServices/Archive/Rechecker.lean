import MonadServices.Archive.ArchiveWorker
import MonadServices.Archive.FaultChunks
import MonadServices.Lib.Action
import MonadServices.Lib.Extend

/-!
# The rechecker

The rechecker compares the replicas in a chunk once more and looks whether the result differs from
what is stored. Only then it keeps a copy of what was stored and stores the new faults of each
replica and the new good blocks; a replica without faults loses its row.

Any operation on the store may fail, and then the rest is not done. A recheck that succeeds leaves
what was computed, a further recheck of the same data changes nothing, and neither does a dry run
(`MonadServices.Archive.Rechecker.recheck_exact`).
-/

namespace MonadServices

namespace Archive

namespace Rechecker

open Checker (BlockData Commitments DataByBlockNum FaultKind ReplicaMap Results processBlocks)
open CheckerWorker (chunkSize)
open FaultChunks (faultsChunkKey goodBlocksKey)

/-! ### The store -/

/-- Where a copy of the faults of a replica is kept. -/
def oldFaultsChunkKey (replica : String) (start : ℕ) : String :=
  s!"old_faults_chunk/{replica}/{start}"

/-- Where a copy of the good blocks is kept. -/
def oldGoodBlocksKey (start : ℕ) : String := s!"old_good_blocks/{start}"

/-- A hash map from replicas to their faults. -/
abbrev FaultMap := AList fun _ : String => List Checker.Fault

/-- A hash map from blocks to the replicas that have the good version. -/
abbrev GoodBlockMap := AList fun _ : UInt64 => String

/-- What is stored under a key. -/
inductive Row where
  | faults (faults : List Checker.Fault)
  | goodBlocks (goodBlocks : GoodBlockMap)

/-- The store, and the keys that were written or deleted. -/
structure Store where
  rows : String → Option Row
  writes : List String

inductive RecheckError where
  /-- The error of an operation on the store. -/
  | store
  | context (message : String)
  | panic (panic : Panic)

/-- The operations of a recheck on the store. -/
inductive Operation where
  | getFaults (replica : String)
  | getGoodBlocks
  | backupFaults (replica : String)
  | backupGoodBlocks
  | setFaults (replica : String)
  /-- The faults of a replica without new ones are read again before they are deleted. -/
  | getCleared (replica : String)
  | deleteFaults (replica : String)
  | setGoodBlocks

/-- The faults that are stored for a replica and a chunk. -/
def Store.faultsChunk (store : Store) (replica : String) (start : UInt64) :
    Except RecheckError (List Checker.Fault) :=
  match store.rows (faultsChunkKey replica start.toNat) with
  | none => .ok []
  | some (.faults faults) => .ok faults
  | some (.goodBlocks _) => .error (.context "Failed to deserialize faults")

/-- The good blocks that are stored for a chunk. -/
def Store.goodBlocks (store : Store) (start : UInt64) : Except RecheckError GoodBlockMap :=
  match store.rows (goodBlocksKey start.toNat) with
  | none => .ok ∅
  | some (.goodBlocks good) => .ok good
  | some (.faults _) => .error (.context "Failed to deserialize good blocks")

/-- Reads from the store. -/
def read {α : Type} (outcome : WriteOutcome) (f : Store → Except RecheckError α) :
    Action RecheckError Store α := do
  if outcome.isOk then
    match f (← get) with
    | .ok a => return a
    | .error e => throw e
  else throw .store

/-- Writes or deletes a row. -/
def write (outcome : WriteOutcome) (error : RecheckError) (key : String) (row : Option Row) :
    Action RecheckError Store PUnit := do
  modify fun store =>
    ⟨if outcome.applied then Function.update store.rows key row else store.rows,
      store.writes ++ [key]⟩
  if outcome.isOk then return ⟨⟩ else throw error

def getFaultsChunk (outcome : WriteOutcome) (replica : String) (start : UInt64) :
    Action RecheckError Store (List Checker.Fault) :=
  read outcome (·.faultsChunk replica start)

def getGoodBlocks (outcome : WriteOutcome) (start : UInt64) :
    Action RecheckError Store GoodBlockMap :=
  read outcome (·.goodBlocks start)

def setFaultsChunk (outcome : WriteOutcome) (replica : String) (start : UInt64)
    (faults : List Checker.Fault) : Action RecheckError Store PUnit :=
  write outcome (.context "Failed to set faults chunk") (faultsChunkKey replica start.toNat)
    (some (.faults faults))

def deleteFaultsChunk (outcome : WriteOutcome) (replica : String) (start : UInt64) :
    Action RecheckError Store PUnit :=
  write outcome .store (faultsChunkKey replica start.toNat) none

def setGoodBlocks (outcome : WriteOutcome) (start : UInt64) (good : GoodBlockMap) :
    Action RecheckError Store PUnit :=
  write outcome (.context "Failed to set good blocks") (goodBlocksKey start.toNat)
    (some (.goodBlocks good))

/-! ### The results of a chunk -/

/-- **What a recheck starts from**: the replicas, in the order in which the process goes through
them, and what they have of each block. -/
structure CheckerModel (alloy : Alloy) where
  commitments : Commitments alloy
  replicas : List String
  nodup : replicas.Nodup
  /-- Nothing if a part of the block is missing or cannot be read. -/
  fetchBlockDataForReplica : UInt64 → String → Option (BlockData alloy)
  orders : UInt64 → IterOrder (String × BlockData alloy)
  overflowChecks : Bool

variable {alloy : Alloy} (model : CheckerModel alloy)

namespace CheckerModel

/-- The last block of a chunk. -/
def endBlock (start : UInt64) : Except Panic ℕ := do
  let sum ← addU64 model.overflowChecks start.toNat chunkSize
  subtractU64 model.overflowChecks sum 1

/-- The data of all replicas for a range of blocks. -/
def fetchBlockData (startBlock endBlock : UInt64) : DataByBlockNum alloy := fun n =>
  if n ∈ rangeInclusive startBlock endBlock then
    some ⟨model.replicas.map fun r => (r, model.fetchBlockDataForReplica n r), by
      rw [List.map_map]
      exact (List.map_id _).symm ▸ model.nodup⟩
  else none

variable [DecidableEq alloy.Header] [DecidableEq alloy.TxEnvelope]
  [DecidableEq alloy.ReceiptEnvelope] [DecidableEq alloy.Withdrawal]

/-- What the comparison of the replicas gives. -/
def results (startBlock endBlock : UInt64) : Results :=
  processBlocks model.commitments model.orders (model.fetchBlockData startBlock endBlock)
    startBlock endBlock

end CheckerModel

/-- The faults of the replicas that have some, as a hash map. -/
def faultMap (replicas : List String) (hnodup : replicas.Nodup)
    (faults : String → List Checker.Fault) : FaultMap where
  entries := (replicas.filter (faults · ≠ [])).map fun r => ⟨r, faults r⟩
  nodupKeys := by
    rw [List.NodupKeys, List.keys, List.map_map]
    exact (List.map_id _).symm ▸ hnodup.filter _

/-- The good blocks of a range, as a hash map. -/
def goodBlockMap (startBlock endBlock : UInt64) (good : Checker.GoodBlocks) : GoodBlockMap where
  entries := (rangeInclusive startBlock endBlock).filterMap fun n => (good n).map (⟨n, ·⟩)
  nodupKeys := by
    rw [List.NodupKeys, List.keys, List.map_filterMap]
    refine nodup_rangeInclusive.filterMap fun n n' k hk hk' => ?_
    obtain ⟨e, he, rfl⟩ := Option.mem_map.mp hk
    obtain ⟨e', he', heq⟩ := Option.mem_map.mp hk'
    obtain ⟨g, -, rfl⟩ := Option.mem_map.mp he
    obtain ⟨g', -, rfl⟩ := Option.mem_map.mp he'
    exact heq.symm

/-! ### A recheck -/

/-- The faults of a list, without the replicas that they name. -/
def faultSet (faults : List Checker.Fault) : Finset (UInt64 × FaultKind) :=
  (faults.map fun f => (f.blockNum, f.fault)).toFinset

/-- Whether the old and the new faults of a replica are told apart. -/
def faultsDiffer (old new : List Checker.Fault) : Bool :=
  old.length ≠ new.length || faultSet old \ faultSet new ≠ ∅ || faultSet new \ faultSet old ≠ ∅

/-- The faults of a replica in a map. -/
def FaultMap.of (faults : FaultMap) (replica : String) : List Checker.Fault :=
  (faults.lookup replica).getD []

/-- **Whether there are changes.** -/
def logRecheckDifferencesDetailed (oldFaults newFaults : FaultMap)
    (oldGood newGood : GoodBlockMap) : Bool :=
  (oldFaults.keys ++ newFaults.keys).any (fun r => faultsDiffer (oldFaults.of r) (newFaults.of r))
    || oldGood.entries.toFinset ≠ newGood.entries.toFinset

variable (outcomes : Operation → WriteOutcome)

/-- The old faults of all replicas. -/
def getFaultsChunksAllReplicas (start : UInt64) : Action RecheckError Store FaultMap := do
  let results ← model.replicas.mapM fun r => getFaultsChunk (outcomes (.getFaults r)) r start
  return extend ∅ (List.zipWith Sigma.mk model.replicas results)

/-- Keeps a copy of what a recheck replaces. -/
def backupOldResults (order : IterOrder (Σ _ : String, List Checker.Fault)) (start : UInt64)
    (oldFaults : FaultMap) (oldGood : GoodBlockMap) : Action RecheckError Store PUnit := do
  (order.order oldFaults.entries).forM fun e => do
    if e.2 ≠ [] then
      write (outcomes (.backupFaults e.1)) .store (oldFaultsChunkKey e.1 start.toNat)
        (some (.faults e.2))
  if oldGood.entries ≠ [] then
    write (outcomes .backupGoodBlocks) .store (oldGoodBlocksKey start.toNat)
      (some (.goodBlocks oldGood))

/-- Deletes the faults of a replica that has none any more. -/
def clearFaults (start : UInt64) (r : String) : Action RecheckError Store PUnit := do
  let old ← getFaultsChunk (outcomes (.getCleared r)) r start
  if old ≠ [] then deleteFaultsChunk (outcomes (.deleteFaults r)) r start

/-- **Stores the results of a chunk.** -/
def storeCheckingResults (start : UInt64) (faults : FaultMap) (good : GoodBlockMap) :
    Action RecheckError Store PUnit := do
  model.replicas.forM fun r =>
    match faults.lookup r with
    | some (f :: fs) => setFaultsChunk (outcomes (.setFaults r)) r start (f :: fs)
    | _ => clearFaults outcomes start r
  setGoodBlocks (outcomes .setGoodBlocks) start good

/-- The new results of a chunk next to the old ones. -/
structure Comparison where
  newFaults : FaultMap
  newGood : GoodBlockMap
  oldFaults : FaultMap
  oldGood : GoodBlockMap
  hasChanges : Bool

section Recheck

variable [DecidableEq alloy.Header] [DecidableEq alloy.TxEnvelope]
  [DecidableEq alloy.ReceiptEnvelope] [DecidableEq alloy.Withdrawal]

/-- Processes a chunk from scratch, and compares the results with what is stored. -/
def compareChunk (start : UInt64) : Action RecheckError Store Comparison := do
  match model.endBlock start with
  | .error panic => throw (.panic panic)
  | .ok endBlock =>
    let results := model.results start (.ofNat endBlock)
    let newFaults := faultMap model.replicas model.nodup results.faults
    let newGood := goodBlockMap start (.ofNat endBlock) results.goodBlocks
    let oldFaults ← getFaultsChunksAllReplicas model outcomes start
    let oldGood ← getGoodBlocks (outcomes .getGoodBlocks) start
    return ⟨newFaults, newGood, oldFaults, oldGood,
      logRecheckDifferencesDetailed oldFaults newFaults oldGood newGood⟩

/-- **Rechecks a chunk**, and returns the new and the old faults. -/
def recheckChunkFromScratch (order : IterOrder (Σ _ : String, List Checker.Fault))
    (start : UInt64) (dryRun : Bool) : Action RecheckError Store (FaultMap × FaultMap) := do
  let c ← compareChunk model outcomes start
  if !dryRun && c.hasChanges then
    backupOldResults outcomes order start c.oldFaults c.oldGood
    storeCheckingResults model outcomes start c.newFaults c.newGood
  return (c.newFaults, c.oldFaults)

end Recheck

/-! ### The keys -/

theorem faultsChunkKey_injective {r r' : String} {n : ℕ}
    (h : faultsChunkKey r n = faultsChunkKey r' n) : r = r' := by
  have hlist := congrArg String.toList h
  rw [FaultChunks.toList_faultsChunkKey, FaultChunks.toList_faultsChunkKey] at hlist
  have hnames := (List.cons.inj (List.append_cancel_left hlist)).2
  exact String.toList_injective (List.append_cancel_right hnames)

section Heads

variable (r : String) (n : ℕ)

theorem head?_faultsChunkKey : (faultsChunkKey r n).toList.head? = some 'f' := by
  rw [FaultChunks.toList_faultsChunkKey]
  rfl

theorem head?_goodBlocksKey : (goodBlocksKey n).toList.head? = some 'g' := by
  have hkey : goodBlocksKey n = "good_blocks/" ++ n.repr := rfl
  rw [hkey, String.toList_append]
  rfl

theorem head?_oldFaultsChunkKey : (oldFaultsChunkKey r n).toList.head? = some 'o' := by
  have hkey : oldFaultsChunkKey r n = "old_faults_chunk/" ++ r ++ "/" ++ n.repr := rfl
  rw [hkey, String.toList_append, String.toList_append, String.toList_append]
  rfl

theorem head?_oldGoodBlocksKey : (oldGoodBlocksKey n).toList.head? = some 'o' := by
  have hkey : oldGoodBlocksKey n = "old_good_blocks/" ++ n.repr := rfl
  rw [hkey, String.toList_append]
  rfl

end Heads

/-- Keys that begin with different letters are different. -/
theorem ne_of_head? {key key' : String} {c c' : Char} (h : key.toList.head? = some c)
    (h' : key'.toList.head? = some c') (hne : c ≠ c') : key ≠ key' := by
  rintro rfl
  exact hne (Option.some.inj (h.symm.trans h'))

/-! ### The rows of a chunk -/

namespace Store

variable {store : Store}

/-- The store after a row was written. -/
def set (store : Store) (key : String) (row : Option Row) : Store :=
  ⟨Function.update store.rows key row, store.writes ++ [key]⟩

variable {r : String} {start : UInt64} {key : String} {row : Option Row}

theorem faultsChunk_set_of_ne (h : faultsChunkKey r start.toNat ≠ key) :
    (store.set key row).faultsChunk r start = store.faultsChunk r start := by
  simp only [faultsChunk, set, Function.update_of_ne h]

theorem goodBlocks_set_of_ne (h : goodBlocksKey start.toNat ≠ key) :
    (store.set key row).goodBlocks start = store.goodBlocks start := by
  simp only [goodBlocks, set, Function.update_of_ne h]

theorem faultsChunk_set_faults (faults : List Checker.Fault) :
    (store.set (faultsChunkKey r start.toNat) (some (.faults faults))).faultsChunk r start =
      .ok faults := by
  simp only [faultsChunk, set, Function.update_self]

theorem faultsChunk_set_none :
    (store.set (faultsChunkKey r start.toNat) none).faultsChunk r start = .ok [] := by
  simp only [faultsChunk, set, Function.update_self]

theorem goodBlocks_set (good : GoodBlockMap) :
    (store.set (goodBlocksKey start.toNat) (some (.goodBlocks good))).goodBlocks start =
      .ok good := by
  simp only [goodBlocks, set, Function.update_self]

end Store

/-! ### The operations -/

section Operations

variable {outcome : WriteOutcome} {P E : Store → Prop}

/-- **Reading leaves the store.** -/
theorem read_spec {α : Type} {f : Store → Except RecheckError α}
    (hE : ∀ store, P store → (outcome.isOk = true → ∃ e, f store = .error e) → E store) :
    (read outcome f).Triple P (fun a store => P store ∧ f store = .ok a) E := by
  unfold read
  cases hok : outcome.isOk with
  | false => exact Action.Triple.throw fun store hs => hE store hs (by simp [hok])
  | true =>
    rw [if_pos rfl]
    have hget : (get : Action RecheckError Store Store).Triple P
        (fun seen store => P store ∧ seen = store) E := Action.Triple.get fun _ hs => ⟨hs, rfl⟩
    refine hget.bind fun seen => ?_
    cases hf : f seen with
    | error e =>
      exact Action.Triple.throw fun store hs => hE store hs.1 fun _ => ⟨e, hs.2 ▸ hf⟩
    | ok a => exact Action.Triple.pure fun store hs => ⟨hs.1, hs.2 ▸ hf⟩

/-- **A write that succeeds was applied.** -/
theorem write_spec {error : RecheckError} {key : String} {row : Option Row}
    {Q : PUnit → Store → Prop} (h : ∀ store, P store → Q ⟨⟩ (store.set key row))
    (hE : outcome.isOk = false → ∀ store, E store) :
    (write outcome error key row).Triple P Q E := by
  unfold write
  cases hok : outcome.isOk with
  | false =>
    exact (Action.Triple.modify (Q := fun _ _ => True) fun _ _ => trivial).bind fun _ =>
      Action.Triple.throw fun store _ => hE hok store
  | true =>
    rw [if_pos rfl]
    simp only [WriteOutcome.applied_of_isOk hok]
    exact (Action.Triple.modify h).bind fun _ => Action.Triple.pure fun _ h => h

end Operations

/-! ### The comparison -/

theorem faultsDiffer_eq_false {old new : List Checker.Fault} :
    faultsDiffer old new = false ↔ old.length = new.length ∧ faultSet old = faultSet new := by
  simp only [faultsDiffer, Bool.or_eq_false_iff, decide_eq_false_iff_not, not_not,
    Finset.sdiff_eq_empty_iff_subset, and_assoc]
  rw [Finset.Subset.antisymm_iff]

theorem FaultMap.of_eq_nil {faults : FaultMap} {r : String} (h : r ∉ faults.keys) :
    faults.of r = [] := by
  rw [FaultMap.of, AList.lookup_eq_none.mpr h, Option.getD_none]

/-- **No change is found** when the numbers of faults, the sets of faults and the good blocks are
the same. -/
theorem logRecheckDifferencesDetailed_eq_false {oldFaults newFaults : FaultMap}
    {oldGood newGood : GoodBlockMap} :
    logRecheckDifferencesDetailed oldFaults newFaults oldGood newGood = false ↔
      (∀ r, (oldFaults.of r).length = (newFaults.of r).length ∧
        faultSet (oldFaults.of r) = faultSet (newFaults.of r)) ∧
      oldGood.entries.toFinset = newGood.entries.toFinset := by
  simp only [logRecheckDifferencesDetailed, Bool.or_eq_false_iff, decide_eq_false_iff_not, not_not,
    List.any_eq_false, Bool.not_eq_true, faultsDiffer_eq_false, List.mem_append]
  refine and_congr_left fun _ => ⟨fun h r => ?_, fun h r _ => h r⟩
  by_cases hr : r ∈ oldFaults.keys ∨ r ∈ newFaults.keys
  · exact h r hr
  · rw [not_or] at hr
    rw [FaultMap.of_eq_nil hr.1, FaultMap.of_eq_nil hr.2]
    exact ⟨rfl, rfl⟩

theorem of_faultMap {replicas : List String} (hnodup : replicas.Nodup)
    (faults : String → List Checker.Fault) (r : String) :
    (faultMap replicas hnodup faults).of r = if r ∈ replicas then faults r else [] := by
  by_cases hr : r ∈ replicas ∧ faults r ≠ []
  · have hmem : faults r ∈ (faultMap replicas hnodup faults).lookup r :=
      AList.mem_lookup_iff.mpr (List.mem_map_of_mem (List.mem_filter.mpr
        ⟨hr.1, decide_eq_true hr.2⟩))
    rw [FaultMap.of, Option.mem_def.mp hmem, Option.getD_some, if_pos hr.1]
  · have hnot : r ∉ (faultMap replicas hnodup faults).keys := by
      rintro hmem
      obtain ⟨e, he, rfl⟩ := List.mem_map.mp hmem
      obtain ⟨r', hr', rfl⟩ := List.mem_map.mp he
      obtain ⟨hmem, hne⟩ := List.mem_filter.mp hr'
      exact hr ⟨hmem, of_decide_eq_true hne⟩
    rw [FaultMap.of_eq_nil hnot]
    split
    · rename_i hmem
      exact (not_not.mp fun hne => hr ⟨hmem, hne⟩).symm
    · rfl

theorem mem_goodBlockMap {startBlock endBlock : UInt64} {good : Checker.GoodBlocks} {n : UInt64}
    {g : String} : ⟨n, g⟩ ∈ (goodBlockMap startBlock endBlock good).entries ↔
      n ∈ rangeInclusive startBlock endBlock ∧ good n = some g := by
  simp only [goodBlockMap, List.mem_filterMap, Option.map_eq_some_iff]
  constructor
  · rintro ⟨n', hn', g', hg', heq⟩
    cases heq
    exact ⟨hn', hg'⟩
  · rintro ⟨hn, hg⟩
    exact ⟨n, hn, g, hg, rfl⟩

/-- What is stored of a chunk can be read. -/
structure Decodable (store : Store) (start : UInt64) : Prop where
  faults : ∀ r ∈ model.replicas, ∃ stored, store.faultsChunk r start = .ok stored
  goodBlocks : ∃ stored, store.goodBlocks start = .ok stored

/-- All operations on the store succeed. -/
def Calm : Prop := ∀ op, (outcomes op).isOk = true

variable {outcomes}

/-- The rows of all replicas are read. -/
theorem getFaultsChunksAllReplicas_spec {store : Store} {start : UInt64} :
    (getFaultsChunksAllReplicas model outcomes start).Triple (· = store)
      (fun old store' => store' = store ∧
        (∀ r ∈ model.replicas, store.faultsChunk r start = .ok (old.of r)) ∧
        ∀ r ∉ model.replicas, old.of r = [])
      (fun store' => store' = store ∧ (Calm outcomes → ¬Decodable model store start)) := by
  have hread : ∀ r ∈ model.replicas,
      (getFaultsChunk (outcomes (.getFaults r)) r start).Triple (· = store)
        (fun stored store' => store' = store ∧ store.faultsChunk r start = .ok stored)
        (fun store' => store' = store ∧ (Calm outcomes → ¬Decodable model store start)) := by
    intro r hr
    refine (read_spec ?_).weaken (fun _ h => h) ?_ fun _ h => h
    · rintro _ rfl hfail
      refine ⟨rfl, fun hcalm hdecodable => ?_⟩
      obtain ⟨e, he⟩ := hfail (hcalm _)
      obtain ⟨stored, hstored⟩ := hdecodable.faults r hr
      rw [hstored] at he
      cases he
    · rintro stored _ ⟨rfl, hstored⟩
      exact ⟨rfl, hstored⟩
  refine (Action.Triple.mapM hread).bind fun results => Action.Triple.pure fun store' hs => ?_
  obtain ⟨hstore, hresults⟩ := hs
  have hlookup := lookup_extend_zipWith hresults model.nodup
  refine ⟨hstore, fun r hr => ?_, fun r hr => ?_⟩
  · obtain ⟨stored, hsome, hstored⟩ := (hlookup r).1 hr
    rw [FaultMap.of, hsome, hstored, Option.getD_some]
  · rw [FaultMap.of, (hlookup r).2 hr, Option.getD_none]

/-- The copies leave what can be read. -/
theorem backupOldResults_spec {order : IterOrder (Σ _ : String, List Checker.Fault)}
    {start : UInt64} {oldFaults : FaultMap} {oldGood : GoodBlockMap} :
    (backupOldResults outcomes order start oldFaults oldGood).Triple
      (Decodable model · start) (fun _ => (Decodable model · start))
      (fun _ => ¬Calm outcomes) := by
  have hset : ∀ (store : Store) (key : String) (row : Option Row),
      key.toList.head? = some 'o' → Decodable model store start →
      Decodable model (store.set key row) start := by
    intro store key row hkey hstore
    constructor
    · intro r hr
      rw [Store.faultsChunk_set_of_ne (ne_of_head? (head?_faultsChunkKey _ _) hkey (by decide))]
      exact hstore.faults r hr
    · rw [Store.goodBlocks_set_of_ne (ne_of_head? (head?_goodBlocksKey _) hkey (by decide))]
      exact hstore.goodBlocks
  refine Action.Triple.bind (Q := fun _ => (Decodable model · start))
    (Action.Triple.forM (I := fun _ => (Decodable model · start)) ?_) fun _ => ?_
  · rintro pre e post -
    split
    · exact write_spec (fun store => hset store _ _ (head?_oldFaultsChunkKey _ _))
        fun hfail _ hcalm => by simp [hcalm _] at hfail
    · exact Action.Triple.pure fun _ h => h
  · split
    · exact write_spec (fun store => hset store _ _ (head?_oldGoodBlocksKey _))
        fun hfail _ hcalm => by simp [hcalm _] at hfail
    · exact Action.Triple.pure fun _ h => h

/-- The rows of the replicas that are done are as given, and the others can be read. -/
structure StoredFor (start : UInt64) (faults : FaultMap) (done : List String) (store : Store) :
    Prop where
  done : ∀ r ∈ done, store.faultsChunk r start = .ok (faults.of r)
  rest : ∀ r ∈ model.replicas, ∃ stored, store.faultsChunk r start = .ok stored

variable {model} in
/-- Writing the row of a replica does not touch the others. -/
theorem StoredFor.set {start : UInt64} {faults : FaultMap} {done : List String} {store : Store}
    (h : StoredFor model start faults done store) {r : String} {row : Option Row}
    (hrow : (store.set (faultsChunkKey r start.toNat) row).faultsChunk r start =
      .ok (faults.of r)) :
    StoredFor model start faults (done ++ [r])
      (store.set (faultsChunkKey r start.toNat) row) := by
  have hother : ∀ r' ≠ r, (store.set (faultsChunkKey r start.toNat) row).faultsChunk r' start =
      store.faultsChunk r' start := fun r' hne =>
    Store.faultsChunk_set_of_ne fun heq => hne (faultsChunkKey_injective heq)
  constructor
  · intro r' hr'
    by_cases heq : r' = r
    · rw [heq, hrow]
    · rw [hother r' heq]
      exact h.done r' ((List.mem_append.mp hr').resolve_right fun hmem =>
        heq (List.mem_singleton.mp hmem))
  · intro r' hr'
    by_cases heq : r' = r
    · rw [heq]
      exact ⟨_, hrow⟩
    · rw [hother r' heq]
      exact h.rest r' hr'

/-- A replica without new faults has no old ones any more. -/
theorem clearFaults_spec {start : UInt64} {faults : FaultMap} {done : List String} {r : String}
    (hr : r ∈ model.replicas) (hnil : faults.of r = []) :
    (clearFaults outcomes start r).Triple (StoredFor model start faults done)
      (fun _ => StoredFor model start faults (done ++ [r])) (fun _ => ¬Calm outcomes) := by
  refine Action.Triple.bind (read_spec ?_) fun old => ?_
  · intro store h hfail hcalm
    obtain ⟨e, he⟩ := hfail (hcalm _)
    obtain ⟨stored, hstored⟩ := h.rest r hr
    rw [hstored] at he
    cases he
  · split
    · exact write_spec (fun store h => h.1.set (Store.faultsChunk_set_none.trans (hnil ▸ rfl)))
        fun hfail _ hcalm => by simp [hcalm _] at hfail
    · rename_i hold
      refine Action.Triple.pure fun store ⟨h, hstored⟩ => ⟨fun r' hr' => ?_, h.rest⟩
      rcases List.mem_append.mp hr' with hr' | hr'
      · exact h.done r' hr'
      · rw [List.mem_singleton.mp hr', hstored, not_not.mp hold, hnil]

/-- **What is stored is read back**, also where a row was deleted or left. -/
theorem storeCheckingResults_spec {start : UInt64} {faults : FaultMap} {good : GoodBlockMap} :
    (storeCheckingResults model outcomes start faults good).Triple (Decodable model · start)
      (fun _ store => (∀ r ∈ model.replicas, store.faultsChunk r start = .ok (faults.of r)) ∧
        store.goodBlocks start = .ok good)
      (fun _ => ¬Calm outcomes) := by
  have hreplica : ∀ pre r post, model.replicas = pre ++ r :: post →
      Action.Triple (StoredFor model start faults pre)
        (match faults.lookup r with
          | some (f :: fs) => setFaultsChunk (outcomes (.setFaults r)) r start (f :: fs)
          | _ => clearFaults outcomes start r)
        (fun _ => StoredFor model start faults (pre ++ [r])) (fun _ => ¬Calm outcomes) := by
    intro pre r post hl
    have hr : r ∈ model.replicas := hl ▸ List.mem_append_right _ List.mem_cons_self
    cases hlookup : faults.lookup r with
    | none =>
      exact clearFaults_spec model hr (by rw [FaultMap.of, hlookup, Option.getD_none])
    | some new =>
      have hof : faults.of r = new := by rw [FaultMap.of, hlookup, Option.getD_some]
      cases new with
      | nil => exact clearFaults_spec model hr hof
      | cons f fs =>
        exact write_spec
          (fun store h => h.set ((Store.faultsChunk_set_faults _).trans (hof ▸ rfl)))
          fun hfail _ hcalm => by simp [hcalm _] at hfail
  refine Action.Triple.bind ((Action.Triple.forM hreplica).weaken
    (fun store h => ⟨fun r hr => (by cases hr), h.faults⟩) (fun _ _ h => h) fun _ h => h)
    fun _ => ?_
  refine write_spec (fun store h => ⟨fun r hr => ?_, Store.goodBlocks_set good⟩)
    fun hfail _ hcalm => by simp [hcalm _] at hfail
  rw [Store.faultsChunk_set_of_ne (ne_of_head? (head?_faultsChunkKey _ _)
    (head?_goodBlocksKey _) (by decide))]
  exact h.done r hr

section Exact

variable [DecidableEq alloy.Header] [DecidableEq alloy.TxEnvelope]
  [DecidableEq alloy.ReceiptEnvelope] [DecidableEq alloy.Withdrawal]

variable {model} in
/-- Only replicas that are compared have faults. -/
theorem results_faults_eq_nil {startBlock endBlock : UInt64} {r : String}
    (hr : r ∉ model.replicas) : (model.results startBlock endBlock).faults r = [] := by
  have hprocessed : Checker.Processed model.commitments _ _ _ := Checker.processBlocks_partition
    model.orders (model.fetchBlockData startBlock endBlock) startBlock endBlock
  rw [List.eq_nil_iff_forall_not_mem]
  intro f hf
  obtain ⟨-, hrange, -⟩ := hprocessed.faults r f hf
  have hpartition := hprocessed.partition f.blockNum hrange _ (if_pos hrange)
  have habsent := hpartition.absent r (by simpa [Function.comp_def] using hr)
  exact List.filter_eq_nil_iff.mp habsent f hf (decide_eq_true rfl)

variable {model} in
/-- Only blocks of the range are good. -/
theorem lookup_eq_goodBlocks {startBlock endBlock : UInt64} {good : GoodBlockMap}
    (h : good.entries.toFinset = (goodBlockMap startBlock endBlock
      (model.results startBlock endBlock).goodBlocks).entries.toFinset) (n : UInt64) :
    good.lookup n = (model.results startBlock endBlock).goodBlocks n := by
  have hprocessed : Checker.Processed model.commitments _ _ _ := Checker.processBlocks_partition
    model.orders (model.fetchBlockData startBlock endBlock) startBlock endBlock
  ext g
  rw [← Option.mem_def, AList.mem_lookup_iff, ← List.mem_toFinset, h, List.mem_toFinset,
    mem_goodBlockMap]
  exact and_iff_right_of_imp fun hg => (hprocessed.goodBlocks n (hg ▸ Option.some_ne_none g)).1

/-- The new faults of a chunk. -/
abbrev CheckerModel.newFaults (startBlock endBlock : UInt64) : FaultMap :=
  faultMap model.replicas model.nodup (model.results startBlock endBlock).faults

/-- The new good blocks of a chunk. -/
abbrev CheckerModel.newGood (startBlock endBlock : UInt64) : GoodBlockMap :=
  goodBlockMap startBlock endBlock (model.results startBlock endBlock).goodBlocks

variable {model} in
/-- The map of the new faults has all of them. -/
theorem of_newFaults (startBlock endBlock : UInt64) (r : String) :
    (model.newFaults startBlock endBlock).of r = (model.results startBlock endBlock).faults r := by
  rw [of_faultMap]
  split
  · rfl
  · rename_i hr
    exact (results_faults_eq_nil hr).symm

/-- **What is stored of a chunk is what the comparison of the replicas gives**, as far as a recheck
looks. -/
structure UpToDate (store : Store) (startBlock endBlock : UInt64) : Prop where
  faults : ∀ r ∈ model.replicas, ∃ stored, store.faultsChunk r startBlock = .ok stored ∧
    stored.length = ((model.results startBlock endBlock).faults r).length ∧
    faultSet stored = faultSet ((model.results startBlock endBlock).faults r)
  goodBlocks : ∃ stored, store.goodBlocks startBlock = .ok stored ∧
    stored.entries.toFinset = (model.newGood startBlock endBlock).entries.toFinset

/-- What a comparison says of a store. -/
structure Compared (store : Store) (start : UInt64) (c : Comparison) (e : ℕ) : Prop where
  endBlock : model.endBlock start = .ok e
  newFaults : c.newFaults = model.newFaults start (.ofNat e)
  newGood : c.newGood = model.newGood start (.ofNat e)
  hasChanges : c.hasChanges = false ↔ UpToDate model store start (.ofNat e)

/-- **Comparing leaves the store**, and finds changes if what is stored is not up to date. -/
theorem compareChunk_spec {store : Store} {start : UInt64} :
    (compareChunk model outcomes start).Triple (· = store)
      (fun c store' => store' = store ∧ Decodable model store start ∧
        ∃ e, Compared model store start c e)
      (fun store' => store' = store ∧ (Calm outcomes → Decodable model store start →
        ∀ e, model.endBlock start ≠ .ok e)) := by
  unfold compareChunk
  cases hend : model.endBlock start with
  | error panic => exact Action.Triple.throw fun store' hs => ⟨hs, fun _ _ e he => by cases he⟩
  | ok e =>
    refine Action.Triple.bind ((getFaultsChunksAllReplicas_spec model).weaken (fun _ h => h)
      (fun _ _ h => h) fun _ h => ⟨h.1, fun hcalm hdecodable => absurd hdecodable (h.2 hcalm)⟩)
      fun oldFaults => ?_
    refine Action.Triple.bind (read_spec ?_) fun oldGood => Action.Triple.pure ?_
    · rintro store' ⟨rfl, -, -⟩ hfail
      refine ⟨rfl, fun hcalm hdecodable => ?_⟩
      obtain ⟨e, he⟩ := hfail (hcalm _)
      obtain ⟨stored, hstored⟩ := hdecodable.goodBlocks
      rw [hstored] at he
      cases he
    · rintro store' ⟨⟨rfl, hfaults, habsent⟩, hgood⟩
      refine ⟨rfl, ⟨fun r hr => ⟨_, hfaults r hr⟩, _, hgood⟩, e, hend, rfl, rfl, ?_⟩
      rw [logRecheckDifferencesDetailed_eq_false]
      constructor
      · rintro ⟨hsame, hgoods⟩
        refine ⟨fun r hr => ⟨_, hfaults r hr, ?_⟩, _, hgood, hgoods⟩
        rw [← of_newFaults]
        exact hsame r
      · rintro ⟨hsame, stored, hstored, hgoods⟩
        obtain rfl := Except.ok.inj (hgood.symm.trans hstored)
        refine ⟨fun r => ?_, hgoods⟩
        rw [of_newFaults]
        by_cases hr : r ∈ model.replicas
        · obtain ⟨stored, hstored, hlength⟩ := hsame r hr
          obtain rfl := Except.ok.inj ((hfaults r hr).symm.trans hstored)
          exact hlength
        · rw [habsent r hr, results_faults_eq_nil hr]
          exact ⟨rfl, rfl⟩

/-- **A recheck that succeeds leaves what is up to date.** -/
theorem recheckChunkFromScratch_spec {order : IterOrder (Σ _ : String, List Checker.Fault)}
    {store : Store} {start : UInt64} :
    (recheckChunkFromScratch model outcomes order start false).Triple (· = store)
      (fun _ store' => ∃ e, model.endBlock start = .ok e ∧
        UpToDate model store' start (.ofNat e))
      (fun _ => Calm outcomes → Decodable model store start →
        ∀ e, model.endBlock start ≠ .ok e) := by
  refine Action.Triple.bind ((compareChunk_spec model).weaken (fun _ h => h) (fun _ _ h => h)
    fun _ h => h.2) fun c => ?_
  cases hchanges : c.hasChanges with
  | false =>
    refine Action.Triple.pure fun store' h => ?_
    obtain ⟨rfl, -, e, hc⟩ := h
    exact ⟨e, hc.endBlock, hc.hasChanges.mp hchanges⟩
  | true =>
    -- What was compared stays known when the store changes.
    have hknown : ∀ store', (store' = store ∧ Decodable model store start ∧
        ∃ e, Compared model store start c e) →
        Decodable model store' start ∧ ∃ e, Compared model store start c e := by
      rintro _ ⟨rfl, hdecodable, hc⟩
      exact ⟨hdecodable, hc⟩
    refine Action.Triple.weaken (Action.Triple.assume ?_) hknown (fun _ _ h => h) fun _ h => h
    rintro ⟨e, hc⟩
    refine (Action.Triple.bind (backupOldResults_spec model) fun _ =>
      (storeCheckingResults_spec model).bind fun _ => Action.Triple.pure fun store' h => ?_).weaken
      (fun _ h => h) (fun _ _ h => h) fun _ hfail hcalm => absurd hcalm hfail
    refine ⟨e, hc.endBlock, fun r hr => ⟨_, h.1 r hr, ?_⟩, _, h.2, by rw [hc.newGood]⟩
    rw [hc.newFaults, of_newFaults]
    exact ⟨rfl, rfl⟩

/-- A comparison with what is up to date finds no change. -/
theorem compareChunk_of_upToDate {store : Store} {start : UInt64} {e : ℕ}
    (hend : model.endBlock start = .ok e) (h : UpToDate model store start (.ofNat e)) :
    (compareChunk model outcomes start).Triple (· = store)
      (fun c store' => store' = store ∧ c.hasChanges = false) (· = store) := by
  refine (compareChunk_spec model).weaken (fun _ h => h) ?_ fun _ h => h.1
  rintro c store' ⟨hstore, -, e', hc⟩
  obtain rfl := Except.ok.inj (hend.symm.trans hc.endBlock)
  exact ⟨hstore, hc.hasChanges.mpr h⟩

/-- A recheck of what is up to date does nothing. -/
theorem recheck_of_upToDate {order : IterOrder (Σ _ : String, List Checker.Fault)} {dryRun : Bool}
    {store : Store} {start : UInt64} {e : ℕ} (hend : model.endBlock start = .ok e)
    (h : UpToDate model store start (.ofNat e)) :
    (recheckChunkFromScratch model outcomes order start dryRun).Triple (· = store)
      (fun _ store' => store' = store) (· = store) := by
  refine (compareChunk_of_upToDate model hend h).bind fun c => Action.Triple.assume fun hsame => ?_
  rw [hsame, Bool.and_false]
  exact Action.Triple.pure fun _ h => h

/-- A dry run does nothing. -/
theorem recheck_dryRun {order : IterOrder (Σ _ : String, List Checker.Fault)} {store : Store}
    {start : UInt64} :
    (recheckChunkFromScratch model outcomes order start true).Triple (· = store)
      (fun _ store' => store' = store) (· = store) := by
  refine Action.Triple.bind ((compareChunk_spec model).weaken (fun _ h => h) (fun _ _ h => h)
    fun _ h => h.1) fun c => ?_
  exact Action.Triple.pure fun _ h => h.1

variable {model} in
/-- A recheck succeeds if no operation fails and what is stored can be read. -/
theorem exists_recheck (order : IterOrder (Σ _ : String, List Checker.Fault)) {store : Store}
    {start : UInt64} {e : ℕ} (hcalm : Calm outcomes) (hdecodable : Decodable model store start)
    (hend : model.endBlock start = .ok e) : ∃ returned store',
      (recheckChunkFromScratch model outcomes order start false).exec store =
        (.ok returned, store') := by
  have hspec : (recheckChunkFromScratch model outcomes order start false).Triple (· = store)
      (fun _ _ => True) (fun _ => False) :=
    (recheckChunkFromScratch_spec model).weaken (fun _ h => h) (fun _ _ _ => trivial)
      fun _ h => h hcalm hdecodable e hend
  obtain ⟨returned, store', hrun, -⟩ := hspec.returns rfl
  exact ⟨returned, store', hrun⟩

/-- **A recheck is exact and idempotent.** When it succeeds, the faults that are stored of each
replica, as sets, and the good blocks are what the comparison of the replicas gives; a further
recheck of the same data finds no change then and leaves the store, and so does a dry run of any
store. -/
theorem recheck_exact (order : IterOrder (Σ _ : String, List Checker.Fault)) (start : UInt64)
    (store : Store) :
    (∀ returned store', (recheckChunkFromScratch model outcomes order start false).exec store =
        (.ok returned, store') →
      ∃ e, model.endBlock start = .ok e ∧
        (∀ r ∈ model.replicas, ∃ stored, store'.faultsChunk r start = .ok stored ∧
          faultSet stored = faultSet ((model.results start (.ofNat e)).faults r)) ∧
        (∃ stored, store'.goodBlocks start = .ok stored ∧
          ∀ n, stored.lookup n = (model.results start (.ofNat e)).goodBlocks n) ∧
        ∀ outcomes' order' dryRun,
          ((recheckChunkFromScratch model outcomes' order' start dryRun).exec store').2 = store' ∧
          ∀ c store'', (compareChunk model outcomes' start).exec store' = (.ok c, store'') →
            c.hasChanges = false) ∧
    ((recheckChunkFromScratch model outcomes order start true).exec store).2 = store := by
  refine ⟨fun returned store' hrun => ?_, (recheck_dryRun model).state rfl⟩
  obtain ⟨e, hend, h⟩ := (recheckChunkFromScratch_spec model store rfl).1 returned store' hrun
  refine ⟨e, hend, fun r hr => ?_, ?_, fun outcomes' order' dryRun => ⟨?_, fun c store'' hc => ?_⟩⟩
  · obtain ⟨stored, hstored, -, hset⟩ := h.faults r hr
    exact ⟨stored, hstored, hset⟩
  · obtain ⟨stored, hstored, hset⟩ := h.goodBlocks
    exact ⟨stored, hstored, lookup_eq_goodBlocks hset⟩
  · exact (recheck_of_upToDate model hend h).state rfl
  · exact ((compareChunk_of_upToDate model hend h store' rfl).1 c store'' hc).2

end Exact

/-- Two replicas that have no blocks. -/
def CheckerModel.sample : CheckerModel Alloy.sample where
  commitments := Commitments.sample
  replicas := ["a", "b"]
  nodup := by decide
  fetchBlockDataForReplica _ _ := none
  orders _ := inOrder _
  overflowChecks := true

/-- A store with a fault of a replica. -/
def Store.sample : Store :=
  Store.set ⟨fun _ => none, []⟩ (faultsChunkKey "a" (0 : UInt64).toNat)
    (some (.faults [⟨7, "a", .inconsistentBlock .header⟩]))

theorem recheck_exact_sample : ∃ stored,
    ((recheckChunkFromScratch CheckerModel.sample (fun _ => .done) (inOrder _) 0 false).exec
      Store.sample).2.faultsChunk "a" 0 = .ok stored ∧
    faultSet stored = faultSet ((CheckerModel.sample.results 0 (.ofNat 999)).faults "a") := by
  have hend : CheckerModel.sample.endBlock 0 = .ok 999 := by decide
  have hcalm : Calm fun _ => .done := fun _ => rfl
  have hdecodable : Decodable CheckerModel.sample Store.sample 0 := by
    constructor
    · intro r _
      by_cases hr : r = "a"
      · rw [hr]
        exact ⟨_, Store.faultsChunk_set_faults _⟩
      · exact ⟨_, Store.faultsChunk_set_of_ne fun h => hr (faultsChunkKey_injective h)⟩
    · exact ⟨_, Store.goodBlocks_set_of_ne
        (ne_of_head? (head?_goodBlocksKey _) (head?_faultsChunkKey _ _) (by decide))⟩
  obtain ⟨returned, store', hrun⟩ := exists_recheck (inOrder _) hcalm hdecodable hend
  obtain ⟨e, he, hfaults, -⟩ := (recheck_exact _ _ _ _).1 returned store' hrun
  obtain rfl := Except.ok.inj (hend.symm.trans he)
  rw [hrun]
  -- What the comparison gives is not computed.
  generalize CheckerModel.sample.results 0 (.ofNat 999) = results at hfaults ⊢
  exact hfaults "a" List.mem_cons_self

end Rechecker

end Archive

end MonadServices
