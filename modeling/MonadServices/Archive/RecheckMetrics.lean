import MonadServices.Archive.Rechecker

/-!
# The metrics of the rechecker

After a number of chunks were rechecked, the faults of each replica are counted, all of them and
those of each kind, and the numbers are passed to the metrics. Before that the maps of the chunks
are merged, in one of the two loops by collecting all entries and in the other by extending a map
once for each chunk.

Either way the faults that a replica has in a chunk replace those that it has in the chunks
before. **The numbers are sums over all chunks exactly if no replica with faults in a chunk has an
entry in a later one** (`MonadServices.Archive.RecheckMetrics.totals_iff`).
-/

namespace MonadServices

namespace Archive

namespace Checker

def InconsistentBlockReason.metricName : InconsistentBlockReason → String
  | .header => "inconsistent_header"
  | .invalidParentHash => "invalid_parent_hash"
  | .invalidTransactionRoot => "invalid_transaction_root"
  | .invalidReceiptsRoot => "invalid_receipts_root"
  | .bodyContents => "inconsistent_body_contents"
  | .bodyLen => "inconsistent_body_len"
  | .receiptsContents => "inconsistent_receipts_contents"
  | .receiptsLen => "inconsistent_receipts_len"
  | .tracesContents => "inconsistent_traces_contents"
  | .tracesOutputDiffers => "inconsistent_traces_output_differs"
  | .tracesLen => "inconsistent_traces_len"
  | .unknown => "unknown"
  | .noConsensus => "no_consensus"

def FaultKind.metricName : FaultKind → String
  | .missingBlock => "missing_block"
  | .invalidBlockNumber _ _ => "invalid_block_number"
  | .receiptCountMismatch _ _ => "receipt_count_mismatch"
  | .traceCountMismatch _ _ => "trace_count_mismatch"
  | .inconsistentBlock reason => reason.metricName

end Checker

namespace RecheckMetrics

open CheckerWorker (chunkSize)
open Rechecker (FaultMap RecheckError)

/-! ### The gauges -/

/-- A number that is passed to the metrics, with the attributes that say what it is about. -/
structure Gauge where
  name : String
  value : ℕ
  attrs : List (String × String)
  deriving DecidableEq

/-- How many faults of each kind there are. -/
def faultCounts (faults : List Checker.Fault) : AList fun _ : String => ℕ :=
  faults.foldl (fun counts f =>
    let kind := f.fault.metricName
    counts.insert kind ((counts.lookup kind).getD 0 + 1)) ∅

/-- The orders in which the hash maps are iterated. -/
structure Orders where
  replicas : IterOrder (Σ _ : String, List Checker.Fault)
  kinds : IterOrder (Σ _ : String, ℕ)

/-- The gauges of one replica. -/
def gaugesOf (orders : Orders) (replica : String) (faults : List Checker.Fault) : List Gauge :=
  ⟨"replica_faults__total", faults.length, [("replica", replica)]⟩ ::
    (orders.kinds.order (faultCounts faults).entries).map fun e =>
      ⟨"replica_faults__by_kind", e.2, [("replica", replica), ("kind", e.1)]⟩

/-- **Passes the numbers of faults to the metrics.** -/
def updateFaultMetrics (orders : Orders) (faultsByReplica : FaultMap) : List Gauge :=
  (orders.replicas.order faultsByReplica.entries).flatMap fun e => gaugesOf orders e.1 e.2

/-! ### The loops over the chunks -/

section Loops

variable {σ : Type} (orders : Orders)
  (recheckChunkFromScratch : UInt64 → Action RecheckError σ (FaultMap × FaultMap))

/-- Rechecks the chunks with faults, and returns what is passed to the metrics. -/
def recheckAllFaults (dryRun : Bool) (faultChunks : List UInt64) :
    Action RecheckError σ (List Gauge) := do
  let results ← faultChunks.mapM recheckChunkFromScratch
  let newFaultsByReplica := extend ∅ (results.flatMap (·.1.entries))
  return if dryRun then [] else updateFaultMetrics orders newFaultsByReplica

/-- Rechecks all chunks of a range, given by their numbers, and returns what is passed to the
metrics. -/
def recheckAllChunks (dryRun : Bool) (allChunks : List UInt64) :
    Action RecheckError σ (List Gauge) := do
  if allChunks.isEmpty then return []
  else
    let (newFaultsByReplica, _) ← allChunks.foldlM (fun (all : FaultMap × FaultMap) chunkIdx => do
      let chunk ← recheckChunkFromScratch (chunkIdx * .ofNat chunkSize)
      return (extend all.1 chunk.1.entries, extend all.2 chunk.2.entries)) (∅, ∅)
    return if dryRun then [] else updateFaultMetrics orders newFaultsByReplica

end Loops

/-! ### What is promised -/

/-- A number is passed under a name and attributes; nothing stands for zero. -/
def Passed (gauges : List Gauge) (name : String) (attrs : List (String × String)) (n : ℕ) : Prop :=
  ⟨name, n, attrs⟩ ∈ gauges ∨ n = 0 ∧ ∀ g ∈ gauges, g.name = name → g.attrs ≠ attrs

/-- The faults of a kind. -/
def ofKind (kind : String) (faults : List Checker.Fault) : List Checker.Fault :=
  faults.filter fun f => f.fault.metricName = kind

/-- **The numbers are sums** over all the chunks. -/
structure Totals (found : List FaultMap) (gauges : List Gauge) : Prop where
  total : ∀ r, Passed gauges "replica_faults__total" [("replica", r)]
    (found.map fun chunk => (chunk.of r).length).sum
  byKind : ∀ r kind, Passed gauges "replica_faults__by_kind" [("replica", r), ("kind", kind)]
    (found.map fun chunk => (ofKind kind (chunk.of r)).length).sum

/-- A replica with faults in a chunk is in no later one. -/
def Apart (found : List FaultMap) : Prop :=
  found.Pairwise fun chunk later => ∀ r, chunk.of r ≠ [] → r ∉ later

/-! ### What is passed -/

theorem length_ofKind_append (kind : String) (faults : List Checker.Fault) (f : Checker.Fault) :
    (ofKind kind (faults ++ [f])).length =
      (ofKind kind faults).length + if f.fault.metricName = kind then 1 else 0 := by
  rw [ofKind, List.filter_append, List.length_append, ofKind, List.filter_singleton]
  split <;> simp_all

/-- Each kind that occurs is counted. -/
theorem lookup_faultCounts (faults : List Checker.Fault) (kind : String) :
    (faultCounts faults).lookup kind =
      if (ofKind kind faults).length = 0 then none else some (ofKind kind faults).length := by
  induction faults using List.reverseRecOn with
  | nil => rfl
  | append_singleton faults f ih =>
    have hcounts : faultCounts (faults ++ [f]) = (faultCounts faults).insert f.fault.metricName
        (((faultCounts faults).lookup f.fault.metricName).getD 0 + 1) := by
      rw [faultCounts, List.foldl_append]
      rfl
    rw [hcounts, length_ofKind_append]
    by_cases hkind : f.fault.metricName = kind
    · subst hkind
      rw [AList.lookup_insert, ih, if_pos rfl, if_neg (Nat.succ_ne_zero _)]
      split
      · rename_i hzero
        rw [hzero, Option.getD_none]
      · rw [Option.getD_some]
    · rw [AList.lookup_insert_ne (Ne.symm hkind), ih, if_neg hkind, Nat.add_zero]

variable {orders : Orders}

/-- The gauges of a map: for each replica that it has its number of faults, and its number of
faults of each kind that occurs. -/
theorem mem_updateFaultMetrics {faults : FaultMap} {g : Gauge} :
    g ∈ updateFaultMetrics orders faults ↔ ∃ r l, faults.lookup r = some l ∧
      (g = ⟨"replica_faults__total", l.length, [("replica", r)]⟩ ∨
        ∃ kind, (ofKind kind l).length ≠ 0 ∧ g = ⟨"replica_faults__by_kind",
          (ofKind kind l).length, [("replica", r), ("kind", kind)]⟩) := by
  have hkinds : ∀ (l : List Checker.Fault) (kind : String) (n : ℕ),
      (faultCounts l).lookup kind = some n ↔
        (ofKind kind l).length ≠ 0 ∧ n = (ofKind kind l).length := by
    intro l kind n
    rw [lookup_faultCounts]
    split <;> simp_all [eq_comm]
  simp only [updateFaultMetrics, gaugesOf, List.mem_flatMap, IterOrder.mem_order, List.mem_cons,
    List.mem_map, Sigma.exists, ← AList.mem_lookup_iff, Option.mem_def, hkinds,
    @eq_comm _ _ g, and_assoc, exists_and_left, exists_eq_left]

/-- One number at most is passed under a name and attributes. -/
theorem passed_iff {gauges : List Gauge} {name : String} {attrs : List (String × String)}
    {o : Option ℕ} (h : ∀ n, ⟨name, n, attrs⟩ ∈ gauges ↔ o = some n) {n : ℕ} :
    Passed gauges name attrs n ↔ n = o.getD 0 := by
  have hnone : (∀ g ∈ gauges, g.name = name → g.attrs ≠ attrs) ↔ o = none := by
    rw [Option.eq_none_iff_forall_ne_some]
    constructor
    · intro hnot m hm
      exact hnot _ ((h m).mpr hm) rfl rfl
    · rintro hnot ⟨_, m, _⟩ hg rfl rfl
      exact hnot m ((h m).mp hg)
  rw [Passed, h, hnone]
  cases o <;> simp [eq_comm]

/-- **The number of faults of a replica.** -/
theorem passed_total {faults : FaultMap} {r : String} {n : ℕ} :
    Passed (updateFaultMetrics orders faults) "replica_faults__total" [("replica", r)] n ↔
      n = (faults.of r).length := by
  have hmem : ∀ n, ⟨"replica_faults__total", n, [("replica", r)]⟩ ∈
      updateFaultMetrics orders faults ↔ (faults.lookup r).map List.length = some n := by
    intro n
    rw [mem_updateFaultMetrics, Option.map_eq_some_iff]
    simp [eq_comm]
  rw [passed_iff hmem, FaultMap.of]
  cases faults.lookup r <;> rfl

/-- **The number of faults of a kind.** -/
theorem passed_byKind {faults : FaultMap} {r kind : String} {n : ℕ} :
    Passed (updateFaultMetrics orders faults) "replica_faults__by_kind"
      [("replica", r), ("kind", kind)] n ↔ n = (ofKind kind (faults.of r)).length := by
  have hmem : ∀ n, ⟨"replica_faults__by_kind", n, [("replica", r), ("kind", kind)]⟩ ∈
      updateFaultMetrics orders faults ↔
        ((faults.lookup r).bind fun l => (faultCounts l).lookup kind) = some n := by
    intro n
    rw [mem_updateFaultMetrics, Option.bind_eq_some_iff]
    simp [lookup_faultCounts, eq_comm]
  rw [passed_iff hmem, FaultMap.of]
  cases faults.lookup r with
  | none => rfl
  | some l =>
    rw [Option.bind_some, lookup_faultCounts, Option.getD_some]
    split
    · rename_i hzero
      rw [hzero, Option.getD_none]
    · rw [Option.getD_some]

/-! ### What is merged -/

/-- The map that both loops arrive at. -/
def merged (found : List FaultMap) : FaultMap :=
  found.foldl (fun all chunk => extend all chunk.entries) ∅

theorem of_merged (found : List FaultMap) (r : String) :
    (merged found).of r = lastList (found.map (·.lookup r)) := by
  rw [FaultMap.of, merged, lookup_foldl_extend, AList.lookup_empty]
  rfl

theorem apart_iff {found : List FaultMap} :
    Apart found ↔ ∀ r, NotReplaced (found.map (·.lookup r)) := by
  simp only [Apart, NotReplaced, List.pairwise_map, AList.lookup_eq_none]
  exact ⟨fun h r => h.imp fun h => h r, fun h => List.pairwise_iff_forall_sublist.mpr fun hab r =>
    List.pairwise_iff_forall_sublist.mp (h r) hab⟩

/-- **The numbers of the merged map are the sums** when nothing was replaced. -/
theorem totals_merged_iff {found : List FaultMap} :
    Totals found (updateFaultMetrics orders (merged found)) ↔ Apart found := by
  rw [apart_iff]
  constructor
  · intro h r
    have htotal := passed_total.mp (h.total r)
    rw [of_merged] at htotal
    refine length_lastList_iff.mp (htotal.symm.trans ?_)
    rw [List.map_map]
    rfl
  · intro h
    refine ⟨fun r => passed_total.mpr ?_, fun r kind => passed_byKind.mpr ?_⟩
    · rw [of_merged, weight_lastList (w := List.length) rfl (h r), List.map_map]
      rfl
    · rw [of_merged, weight_lastList (w := fun l => (ofKind kind l).length) rfl (h r),
        List.map_map]
      rfl

/-! ### Runs of the loops -/

section Runs

variable {σ : Type} {recheckChunkFromScratch : UInt64 → Action RecheckError σ (FaultMap × FaultMap)}
  {chunks : List UInt64} {found : List (FaultMap × FaultMap)} {s s' : σ}

/-- All the entries are collected. -/
theorem exec_recheckAllFaults (h : (chunks.mapM recheckChunkFromScratch).exec s = (.ok found, s')) :
    (recheckAllFaults orders recheckChunkFromScratch false chunks).exec s =
      (.ok (updateFaultMetrics orders (merged (found.map Prod.fst))), s') := by
  rw [recheckAllFaults, Action.exec_bind_of_ok h, extend_flatMap, merged, List.foldl_map]
  rfl

/-- A map is extended for each chunk. -/
theorem exec_recheckAllChunks
    (h : (chunks.mapM fun chunkIdx =>
      recheckChunkFromScratch (chunkIdx * .ofNat chunkSize)).exec s = (.ok found, s')) :
    (recheckAllChunks orders recheckChunkFromScratch false chunks).exec s =
      (.ok (updateFaultMetrics orders (merged (found.map Prod.fst))), s') := by
  let g (all chunk : FaultMap × FaultMap) : FaultMap × FaultMap :=
    (extend all.1 chunk.1.entries, extend all.2 chunk.2.entries)
  have hfst : ∀ all, (found.foldl g all).1 =
      (found.map Prod.fst).foldl (fun all chunk => extend all chunk.entries) all.1 := by
    clear h
    induction found with
    | nil => exact fun _ => rfl
    | cons chunk found ih => exact fun all => ih (g all chunk)
  have hfold := Action.exec_foldlM (g := g) h (∅, ∅)
  rw [recheckAllChunks]
  cases chunks with
  | nil =>
    obtain ⟨hfound, rfl⟩ := Prod.mk.inj h
    obtain rfl : [] = found := Except.ok.inj hfound
    have hnone : orders.replicas.order [] = [] := (orders.replicas.perm []).eq_nil
    have hempty : updateFaultMetrics orders (merged []) = [] := by
      change (orders.replicas.order []).flatMap _ = []
      rw [hnone, List.flatMap_nil]
    rw [List.map_nil, hempty, List.isEmpty_nil, if_pos rfl, Action.exec_pure]
  | cons c cs =>
    have hmerged : merged (found.map Prod.fst) = (found.foldl g (∅, ∅)).1 := (hfst (∅, ∅)).symm
    rw [List.isEmpty_cons, if_neg Bool.false_ne_true, Action.exec_bind_of_ok hfold, hmerged]
    rfl

/-- **The numbers are sums** over the chunks that were rechecked, in either loop, if and only if
no replica with faults in a chunk has an entry in a later one. -/
theorem totals_iff (orders : Orders)
    (recheckChunkFromScratch : UInt64 → Action RecheckError σ (FaultMap × FaultMap))
    (chunks : List UInt64) (found : List (FaultMap × FaultMap)) (s s' : σ) :
    ((chunks.mapM recheckChunkFromScratch).exec s = (.ok found, s') →
      ∃ gauges, (recheckAllFaults orders recheckChunkFromScratch false chunks).exec s =
        (.ok gauges, s') ∧ (Totals (found.map Prod.fst) gauges ↔ Apart (found.map Prod.fst))) ∧
    ((chunks.mapM fun chunkIdx => recheckChunkFromScratch (chunkIdx * .ofNat chunkSize)).exec s =
        (.ok found, s') →
      ∃ gauges, (recheckAllChunks orders recheckChunkFromScratch false chunks).exec s =
        (.ok gauges, s') ∧ (Totals (found.map Prod.fst) gauges ↔ Apart (found.map Prod.fst))) :=
  ⟨fun h => ⟨_, exec_recheckAllFaults h, totals_merged_iff⟩,
    fun h => ⟨_, exec_recheckAllChunks h, totals_merged_iff⟩⟩

end Runs

/-! ### Two chunks -/

/-- In each chunk a replica does not have the first block. -/
def missingIn (start : UInt64) : Action RecheckError Unit (FaultMap × FaultMap) :=
  return (AList.singleton "a" [⟨start, "a", .missingBlock⟩], ∅)

def Orders.sample : Orders := ⟨inOrder _, inOrder _⟩

theorem totals_iff_sample :
    (∃ gauges, (recheckAllFaults .sample missingIn false [1000]).exec () = (.ok gauges, ()) ∧
      Totals [AList.singleton "a" [⟨1000, "a", .missingBlock⟩]] gauges) ∧
    ∃ gauges, (recheckAllChunks .sample missingIn false [1]).exec () = (.ok gauges, ()) ∧
      Totals [AList.singleton "a" [⟨1000, "a", .missingBlock⟩]] gauges := by
  obtain ⟨gauges, hrun, h⟩ := (totals_iff .sample missingIn [1000] _ () ()).1 rfl
  obtain ⟨gauges', hrun', h'⟩ := (totals_iff .sample missingIn [1] _ () ()).2 rfl
  exact ⟨⟨gauges, hrun, h.mpr (List.pairwise_singleton _ _)⟩,
    gauges', hrun', h'.mpr (List.pairwise_singleton _ _)⟩

/-- **Of two faults in two chunks, one is counted.** -/
theorem not_totals :
    (∃ gauges, (recheckAllFaults .sample missingIn false [0, 1000]).exec () = (.ok gauges, ()) ∧
      ¬Totals [AList.singleton "a" [⟨0, "a", .missingBlock⟩],
        AList.singleton "a" [⟨1000, "a", .missingBlock⟩]] gauges) ∧
    ∃ gauges, (recheckAllChunks .sample missingIn false [0, 1]).exec () = (.ok gauges, ()) ∧
      ¬Totals [AList.singleton "a" [⟨0, "a", .missingBlock⟩],
        AList.singleton "a" [⟨1000, "a", .missingBlock⟩]] gauges := by
  refine ⟨⟨_, rfl, fun h => ?_⟩, _, rfl, fun h => ?_⟩
  · exact absurd (h.total "a") (by unfold Passed; decide)
  · exact absurd (h.total "a") (by unfold Passed; decide)

end RecheckMetrics

end Archive

end MonadServices
