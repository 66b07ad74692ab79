import MonadServices.Archive.CallFrame
import MonadServices.Lib.Classes
import MonadServices.Lib.IterOrder
import MonadServices.Lib.Range
import Mathlib.Data.List.MinMax
import Mathlib.Data.List.Sort
import Mathlib.Data.Prod.Lex
import Mathlib.Data.String.Basic
import Mathlib.Order.WithBot

/-!
# The archive checker

The checker compares what several replicas have of a range of blocks. Each replica's data of a
block is missing, fails the verification against its own header and the header of its own
parent, or passes; those that pass are sorted into groups of equal data, one group is chosen,
and what is not in it is inconsistent.

**Every replica is classified once** (`MonadServices.Archive.Checker.processBlocks_partition`),
in whatever order the hash maps give their entries.
-/

namespace MonadServices

namespace Archive

namespace Checker

/-! ### Faults -/

inductive InconsistentBlockReason where
  | header
  | invalidParentHash
  | invalidTransactionRoot
  | invalidReceiptsRoot
  | bodyContents
  | bodyLen
  | receiptsContents
  | receiptsLen
  | tracesContents
  | tracesOutputDiffers
  | tracesLen
  | unknown
  | noConsensus
  deriving DecidableEq, Repr

inductive FaultKind where
  | missingBlock
  | invalidBlockNumber (expected actual : UInt64)
  | receiptCountMismatch (txCount receiptCount : ℕ)
  | traceCountMismatch (txCount traceCount : ℕ)
  | inconsistentBlock (reason : InconsistentBlockReason)
  deriving DecidableEq, Repr

structure Fault where
  blockNum : UInt64
  replica : String
  fault : FaultKind
  deriving DecidableEq, Repr

/-- The faults of each replica; a replica that has no entry has none. -/
abbrev Faults := String → List Fault

/-- Adds a fault to those of its replica. -/
def Faults.push (faults : Faults) (f : Fault) : Faults :=
  Function.update faults f.replica (faults f.replica ++ [f])

/-- The replica with the good version of each block. -/
abbrev GoodBlocks := UInt64 → Option String

/-! ### What a header says of its block -/

/-- What the checker takes from the libraries of blocks: the hashes that a header names, and how
they are computed. -/
structure Commitments (alloy : Alloy) where
  parentHash : alloy.Header → B256
  transactionsRoot : alloy.Header → B256
  receiptsRoot : alloy.Header → B256
  calculateTransactionRoot : List alloy.TxEnvelope → B256
  calculateReceiptRoot : List alloy.ReceiptEnvelope → B256
  log : RlpCodec Log

variable {alloy : Alloy}

/-- A block, its receipts and its traces. -/
abbrev BlockData (alloy : Alloy) := alloy.Block × List alloy.Receipt × List Bytes

variable (commitments : Commitments alloy)

/-- **Verifies a block** by itself, and against the header of its parent if there is one. -/
def verifyBlock (blockNum : UInt64) (data : BlockData alloy) (parent : Option alloy.Header) :
    Except FaultKind Unit :=
  let (block, receipts, traces) := data
  if alloy.number block.header ≠ blockNum then
    .error (.invalidBlockNumber blockNum (alloy.number block.header))
  else if ∃ p ∈ parent, commitments.parentHash block.header ≠ alloy.hashSlow p then
    .error (.inconsistentBlock .invalidParentHash)
  else if receipts.length ≠ block.transactions.length then
    .error (.receiptCountMismatch block.transactions.length receipts.length)
  else if traces.length ≠ block.transactions.length then
    .error (.traceCountMismatch block.transactions.length traces.length)
  else if commitments.transactionsRoot block.header ≠
      commitments.calculateTransactionRoot (block.transactions.map (·.tx)) then
    .error (.inconsistentBlock .invalidTransactionRoot)
  else if commitments.receiptsRoot block.header ≠
      commitments.calculateReceiptRoot (receipts.map (·.receipt)) then
    .error (.inconsistentBlock .invalidReceiptsRoot)
  else .ok ()

/-- The faults and the good blocks that were found so far. -/
structure Results where
  faults : Faults
  goodBlocks : GoodBlocks

/-- Adds a fault. -/
def Results.push (results : Results) (f : Fault) : Results :=
  { results with faults := results.faults.push f }

/-! ### Faults, replica by replica -/

/-- Pushing faults adds to those of each replica its own. -/
theorem foldl_push (l : List Fault) (results : Results) :
    l.foldl Results.push results =
      ⟨fun r => results.faults r ++ l.filter (·.replica = r), results.goodBlocks⟩ := by
  induction l generalizing results with
  | nil => simp
  | cons f l ih =>
    rw [List.foldl_cons, ih]
    simp only [Results.push, Faults.push, Results.mk.injEq, and_true]
    funext r
    by_cases h : f.replica = r
    · subst h
      simp
    · simp [h, Function.update_of_ne (Ne.symm h)]

/-- Adds the faults of a block, and its good replica if there is one. -/
def Results.add (results : Results) (blockNum : UInt64) (faults : List Fault)
    (good : Option String) : Results where
  faults r := results.faults r ++ faults.filter (·.replica = r)
  goodBlocks :=
    match good with
    | none => results.goodBlocks
    | some g => Function.update results.goodBlocks blockNum (some g)

theorem Results.goodBlocks_add_of_ne {results : Results} {blockNum : UInt64}
    {faults : List Fault} {good : Option String} {k : UInt64} (h : k ≠ blockNum) :
    (results.add blockNum faults good).goodBlocks k = results.goodBlocks k := by
  cases good with
  | none => rfl
  | some g => exact Function.update_of_ne h _ _

theorem Results.goodBlocks_add_self {results : Results} {blockNum : UInt64}
    {faults : List Fault} {good : Option String} (h : results.goodBlocks blockNum = none) :
    (results.add blockNum faults good).goodBlocks blockNum = good := by
  cases good with
  | none => exact h
  | some g => exact Function.update_self _ _ _

/-- A map has one value for a replica. -/
theorem eq_of_mem_of_mem {V : Type} {l : List (String × V)} (hnodup : (l.map Prod.fst).Nodup)
    {r : String} {v w : V} (hv : (r, v) ∈ l) (hw : (r, w) ∈ l) : v = w :=
  (Prod.mk.inj (List.inj_on_of_nodup_map hnodup hv hw rfl)).2

theorem lookup_of_mem {V : Type} {l : List (String × V)} (hnodup : (l.map Prod.fst).Nodup)
    {r : String} {v : V} (h : (r, v) ∈ l) : l.lookup r = some v := by
  induction l with
  | nil => cases h
  | cons e l ih =>
    rw [List.map_cons, List.nodup_cons] at hnodup
    rcases List.mem_cons.mp h with rfl | h
    · simp
    · have hne : r ≠ e.1 := fun heq => hnodup.1 (heq ▸ List.mem_map_of_mem h)
      rw [List.lookup_cons, beq_eq_false_iff_ne.mpr hne]
      exact ih hnodup.2 h

section OneFault

variable {V : Type} {f : String × V → Option Fault}
  (hf : ∀ e fault, f e = some fault → fault.replica = e.1)

include hf

theorem filter_filterMap_of_not_mem {l : List (String × V)} {r : String}
    (h : r ∉ l.map Prod.fst) : (l.filterMap f).filter (·.replica = r) = [] := by
  rw [List.filter_eq_nil_iff]
  intro fault hfault
  obtain ⟨e, he, hfe⟩ := List.mem_filterMap.mp hfault
  rw [hf e fault hfe, decide_eq_true_eq]
  exact fun heq => h (heq ▸ List.mem_map_of_mem he)

/-- **Going through a map once gives a replica at most one fault.** -/
theorem filter_filterMap_of_mem {l : List (String × V)} (hnodup : (l.map Prod.fst).Nodup)
    {r : String} {v : V} (h : (r, v) ∈ l) :
    (l.filterMap f).filter (·.replica = r) = (f (r, v)).toList := by
  obtain ⟨pre, post, rfl⟩ := List.append_of_mem h
  rw [List.map_append, List.map_cons] at hnodup
  obtain ⟨-, hpost, hdisjoint⟩ := List.nodup_append.mp hnodup
  have hpre : r ∉ pre.map Prod.fst := fun hmem => hdisjoint r hmem r List.mem_cons_self rfl
  have hpost : r ∉ post.map Prod.fst := (List.nodup_cons.mp hpost).1
  rw [List.filterMap_append, List.filter_append, filter_filterMap_of_not_mem hf hpre,
    List.nil_append, List.filterMap_cons]
  cases hfr : f (r, v) with
  | none => exact filter_filterMap_of_not_mem hf hpost
  | some fault =>
    have hrep : fault.replica = r := hf _ _ hfr
    simp only [List.filter_cons, hrep, decide_true, if_true,
      filter_filterMap_of_not_mem hf hpost, Option.toList_some]

end OneFault

/-! ### The verification of the replicas -/

/-- A hash map from replicas to data, in the order in which it is iterated. -/
structure ReplicaMap (V : Type) where
  entries : List (String × V)
  nodup : (entries.map Prod.fst).Nodup

/-- Adds a fault for the replicas whose data is missing or fails the verification, and collects
the others. -/
def verifyReplicas (blockNum : UInt64) (parents : String → Option alloy.Header) :
    List (String × Option (BlockData alloy)) → Results →
    Results × List (String × BlockData alloy)
  | [], results => (results, [])
  | (replica, none) :: rest, results =>
    verifyReplicas blockNum parents rest (results.push ⟨blockNum, replica, .missingBlock⟩)
  | (replica, some data) :: rest, results =>
    match verifyBlock commitments blockNum data (parents replica) with
    | .error fault =>
      verifyReplicas blockNum parents rest (results.push ⟨blockNum, replica, fault⟩)
    | .ok () =>
      let (results, valid) := verifyReplicas blockNum parents rest results
      (results, (replica, data) :: valid)

section Verify

variable (blockNum : UInt64) (parents : String → Option alloy.Header)

/-- The fault of a replica whose data is missing or fails the verification. -/
def failure (e : String × Option (BlockData alloy)) : Option Fault :=
  match e.2 with
  | none => some ⟨blockNum, e.1, .missingBlock⟩
  | some data =>
    match verifyBlock commitments blockNum data (parents e.1) with
    | .error fault => some ⟨blockNum, e.1, fault⟩
    | .ok () => none

/-- The data of a replica that passes the verification. -/
def passing (e : String × Option (BlockData alloy)) : Option (String × BlockData alloy) :=
  match e.2 with
  | none => none
  | some data =>
    match verifyBlock commitments blockNum data (parents e.1) with
    | .error _ => none
    | .ok () => some (e.1, data)

theorem verifyReplicas_eq (entries : List (String × Option (BlockData alloy)))
    (results : Results) :
    verifyReplicas commitments blockNum parents entries results =
      ((entries.filterMap (failure commitments blockNum parents)).foldl Results.push results,
        entries.filterMap (passing commitments blockNum parents)) := by
  induction entries generalizing results with
  | nil => rfl
  | cons e entries ih =>
    obtain ⟨replica, _ | data⟩ := e
    · rw [verifyReplicas, ih]
      rfl
    · rw [verifyReplicas]
      cases hverify : verifyBlock commitments blockNum data (parents replica) with
      | error fault =>
        simp only [ih, List.filterMap_cons, failure, passing, hverify, List.foldl_cons]
      | ok =>
        simp only [ih, List.filterMap_cons, failure, passing, hverify]

variable {blockNum parents}

theorem mem_filterMap_passing {entries : List (String × Option (BlockData alloy))} {r : String}
    {data : BlockData alloy} :
    (r, data) ∈ entries.filterMap (passing commitments blockNum parents) ↔
      (r, some data) ∈ entries ∧
        verifyBlock commitments blockNum data (parents r) = .ok () := by
  rw [List.mem_filterMap]
  refine ⟨?_, fun ⟨hmem, hok⟩ => ⟨(r, some data), hmem, by simp only [passing, hok]⟩⟩
  rintro ⟨⟨r', _ | data'⟩, hmem, hpass⟩
  · cases hpass
  · simp only [passing] at hpass
    split at hpass
    · cases hpass
    · obtain ⟨rfl, rfl⟩ := Prod.mk.inj (Option.some.inj hpass)
      exact ⟨hmem, by assumption⟩

theorem nodup_filterMap_passing {entries : List (String × Option (BlockData alloy))}
    (hnodup : (entries.map Prod.fst).Nodup) :
    ((entries.filterMap (passing commitments blockNum parents)).map Prod.fst).Nodup := by
  refine hnodup.sublist ?_
  clear hnodup
  induction entries with
  | nil => exact List.Sublist.refl _
  | cons e entries ih =>
    rw [List.filterMap_cons]
    cases hpass : passing commitments blockNum parents e with
    | none => exact ih.cons _
    | some p =>
      obtain ⟨r, _ | data⟩ := e
      · cases hpass
      · simp only [passing] at hpass
        split at hpass
        · cases hpass
        · obtain rfl := Option.some.inj hpass
          exact ih.cons_cons _

theorem failure_fields {e : String × Option (BlockData alloy)} {fault : Fault}
    (h : failure commitments blockNum parents e = some fault) :
    fault.replica = e.1 ∧ fault.blockNum = blockNum := by
  unfold failure at h
  split at h
  · obtain rfl := Option.some.inj h
    exact ⟨rfl, rfl⟩
  · split at h
    · obtain rfl := Option.some.inj h
      exact ⟨rfl, rfl⟩
    · cases h

end Verify

/-! ### The partition of the replicas -/

/-- **How the replicas of a block are classified**: those without data, those whose data fails
the verification, and those whose data passes, of which one is good and those with other data
are inconsistent. -/
structure Partition (blockNum : UInt64) (replicaData : ReplicaMap (Option (BlockData alloy)))
    (parents : String → Option alloy.Header) (faults : String → List Fault)
    (good : Option String) : Prop where
  atMostOne : ∀ r, (faults r).length ≤ 1
  absent : ∀ r, r ∉ replicaData.entries.map Prod.fst → faults r = []
  missing : ∀ r, (r, none) ∈ replicaData.entries → faults r = [⟨blockNum, r, .missingBlock⟩]
  invalid : ∀ r data fault, (r, some data) ∈ replicaData.entries →
    verifyBlock commitments blockNum data (parents r) = .error fault →
    faults r = [⟨blockNum, r, fault⟩]
  consensus : (∃ r data, (r, some data) ∈ replicaData.entries ∧
      verifyBlock commitments blockNum data (parents r) = .ok ()) →
    ∃ g goodData, good = some g ∧ (g, some goodData) ∈ replicaData.entries ∧
      verifyBlock commitments blockNum goodData (parents g) = .ok () ∧ faults g = [] ∧
      ∀ r data, (r, some data) ∈ replicaData.entries →
        verifyBlock commitments blockNum data (parents r) = .ok () →
        (data = goodData → faults r = []) ∧
        (data ≠ goodData → ∃ reason, faults r = [⟨blockNum, r, .inconsistentBlock reason⟩])
  noConsensus : (∀ r data, (r, some data) ∈ replicaData.entries →
      verifyBlock commitments blockNum data (parents r) ≠ .ok ()) → good = none

section Block

variable {commitments} {blockNum : UInt64}
  {replicaData : ReplicaMap (Option (BlockData alloy))}
  {parents : String → Option alloy.Header} {valid : List (String × BlockData alloy)}
  (hvalid : ∀ r data, (r, data) ∈ valid ↔ (r, some data) ∈ replicaData.entries ∧
    verifyBlock commitments blockNum data (parents r) = .ok ())
  (hnodup : (valid.map Prod.fst).Nodup)

include hvalid

/-- A replica that did not pass is not among those that did. -/
theorem not_mem_valid {r : String} {v : Option (BlockData alloy)}
    (hmem : (r, v) ∈ replicaData.entries)
    (hfail : ∀ data, v = some data →
      verifyBlock commitments blockNum data (parents r) ≠ .ok ()) :
    r ∉ valid.map Prod.fst := by
  intro h
  obtain ⟨⟨r', data⟩, he, rfl⟩ := List.mem_map.mp h
  obtain ⟨hentry, hok⟩ := (hvalid r' data).mp he
  exact hfail data (eq_of_mem_of_mem replicaData.nodup hmem hentry) hok

variable {f : String × BlockData alloy → Option Fault}
  (hf : ∀ e fault, f e = some fault → fault.replica = e.1)

include hf

/-- The first pass decides about a replica that does not pass. -/
theorem faults_of_not_passing {r : String} {v : Option (BlockData alloy)}
    (hmem : (r, v) ∈ replicaData.entries)
    (hfail : ∀ data, v = some data →
      verifyBlock commitments blockNum data (parents r) ≠ .ok ()) :
    (replicaData.entries.filterMap (failure commitments blockNum parents) ++
      valid.filterMap f).filter (·.replica = r) =
      (failure commitments blockNum parents (r, v)).toList := by
  rw [List.filter_append, filter_filterMap_of_not_mem hf (not_mem_valid hvalid hmem hfail),
    List.append_nil]
  exact filter_filterMap_of_mem (fun _ _ h => (failure_fields commitments h).1)
    replicaData.nodup hmem

include hnodup in
/-- The second pass decides about a replica that passes. -/
theorem faults_of_passing {r : String} {data : BlockData alloy} (hmem : (r, data) ∈ valid) :
    (replicaData.entries.filterMap (failure commitments blockNum parents) ++
      valid.filterMap f).filter (·.replica = r) = (f (r, data)).toList := by
  obtain ⟨hentry, hok⟩ := (hvalid r data).mp hmem
  have hnone : failure commitments blockNum parents (r, some data) = none := by
    simp only [failure, hok]
  rw [List.filter_append, filter_filterMap_of_mem hf hnodup hmem,
    filter_filterMap_of_mem (fun _ _ h => (failure_fields commitments h).1) replicaData.nodup
      hentry, hnone, Option.toList_none, List.nil_append]

/-- A replica that is not in the map gets no fault. -/
theorem faults_of_absent {r : String} (h : r ∉ replicaData.entries.map Prod.fst) :
    (replicaData.entries.filterMap (failure commitments blockNum parents) ++
      valid.filterMap f).filter (·.replica = r) = [] := by
  have hnot : r ∉ valid.map Prod.fst := by
    intro hr
    obtain ⟨⟨r', data⟩, he, rfl⟩ := List.mem_map.mp hr
    exact h (List.mem_map_of_mem ((hvalid r' data).mp he).1)
  rw [List.filter_append, filter_filterMap_of_not_mem hf hnot,
    filter_filterMap_of_not_mem (fun _ _ h => (failure_fields commitments h).1) h,
    List.append_nil]

include hnodup in
/-- **The faults of the two passes partition the replicas**, if the second one tells apart what
is equal to the good data. -/
theorem partition_of_passes {good : Option String}
    (hgood : valid ≠ [] → ∃ g goodData, good = some g ∧ (g, goodData) ∈ valid ∧
      ∀ r data, (data = goodData → f (r, data) = none) ∧
        (data ≠ goodData → ∃ reason,
          f (r, data) = some ⟨blockNum, r, .inconsistentBlock reason⟩))
    (hnone : valid = [] → good = none) :
    Partition commitments blockNum replicaData parents
      (fun r => (replicaData.entries.filterMap (failure commitments blockNum parents) ++
        valid.filterMap f).filter (·.replica = r)) good where
  atMostOne := by
    intro r
    by_cases hr : r ∈ replicaData.entries.map Prod.fst
    · obtain ⟨⟨r, v⟩, hmem, rfl⟩ := List.mem_map.mp hr
      by_cases hpass : ∃ data, v = some data ∧
          verifyBlock commitments blockNum data (parents r) = .ok ()
      · obtain ⟨data, rfl, hok⟩ := hpass
        rw [faults_of_passing hvalid hnodup hf ((hvalid r data).mpr ⟨hmem, hok⟩)]
        exact Option.length_toList_le
      · push Not at hpass
        rw [faults_of_not_passing hvalid hf hmem hpass]
        exact Option.length_toList_le
    · rw [faults_of_absent hvalid hf hr]
      exact Nat.zero_le 1
  absent := fun r hr => faults_of_absent hvalid hf hr
  missing := fun r hmem => faults_of_not_passing hvalid hf hmem nofun
  invalid := by
    intro r data fault hmem herror
    rw [faults_of_not_passing hvalid hf hmem (by rintro _ ⟨⟩; rw [herror]; nofun)]
    simp only [failure, herror, Option.toList_some]
  consensus := by
    rintro ⟨r₀, data₀, hmem₀, hok₀⟩
    have hne : valid ≠ [] := List.ne_nil_of_mem ((hvalid r₀ data₀).mpr ⟨hmem₀, hok₀⟩)
    obtain ⟨g, goodData, hg, hmem, hsecond⟩ := hgood hne
    obtain ⟨hentry, hok⟩ := (hvalid g goodData).mp hmem
    refine ⟨g, goodData, hg, hentry, hok, ?_, fun r data hr hdata => ⟨?_, ?_⟩⟩
    · rw [faults_of_passing hvalid hnodup hf hmem, (hsecond g goodData).1 rfl]
      rfl
    · intro heq
      rw [faults_of_passing hvalid hnodup hf ((hvalid r data).mpr ⟨hr, hdata⟩),
        (hsecond r data).1 heq]
      rfl
    · intro hne
      obtain ⟨reason, hreason⟩ := (hsecond r data).2 hne
      refine ⟨reason, ?_⟩
      rw [faults_of_passing hvalid hnodup hf ((hvalid r data).mpr ⟨hr, hdata⟩), hreason]
      rfl
  noConsensus := by
    intro hall
    refine hnone (List.eq_nil_iff_forall_not_mem.mpr ?_)
    rintro ⟨r, data⟩ hmem
    obtain ⟨hentry, hok⟩ := (hvalid r data).mp hmem
    exact hall r data hentry hok

end Block

/-! ### Why two versions of a block differ -/

/-- Compares two frames. -/
def compareFrames (g f : CallFrame) : Option InconsistentBlockReason :=
  if g.typ ≠ f.typ ∨ g.flags ≠ f.flags ∨ g.caller ≠ f.caller ∨ g.callee ≠ f.callee ∨
      g.value ≠ f.value ∨ g.gas ≠ f.gas ∨ g.gasUsed ≠ f.gasUsed ∨ g.input ≠ f.input then
    some .tracesContents
  else if g.output ≠ f.output then some .tracesOutputDiffers
  else none

/-- The loop over the traces of the two versions, pair by pair. The pairs that differ in what is
not compared are counted, up to ten. -/
def compareTraces (log : RlpCodec Log) : ℕ → List (Bytes × Bytes) → InconsistentBlockReason
  | _, [] => .unknown
  | count, (good, faulty) :: rest =>
    if good = faulty then compareTraces log count rest
    else
      match decodeTrace log good, decodeTrace log faulty with
      | some goodFrames, some faultyFrames =>
        if goodFrames = faultyFrames then compareTraces log count rest
        else
          match (goodFrames.zip faultyFrames).findSome? fun p =>
              (p.1.zip p.2).findSome? fun q => compareFrames q.1 q.2 with
          | some reason => reason
          | none =>
            if count + 1 > 10 then .tracesContents else compareTraces log (count + 1) rest
      | _, _ => .tracesContents

/-! ### The choice of a group -/

/-- What groups are compared by, from left to right; no name is before every name. -/
def GroupKey := ℤ ×ₗ ℤ ×ₗ WithBot String

instance : LinearOrder GroupKey :=
  @Prod.Lex.instLinearOrder ℤ (ℤ ×ₗ WithBot String) Int.instLinearOrder
    (@Prod.Lex.instLinearOrder ℤ (WithBot String) Int.instLinearOrder _)

/-- The key of a group: the number of outputs that are not empty and the number of its members,
each the more the better, and the least name. -/
def groupKey (group : List (String × BlockData alloy)) : GroupKey :=
  match group with
  | [] => toLex (0, toLex (0, ⊥))
  | (_, _, _, traces) :: _ =>
    match decodeTraces commitments.log traces with
    | none => toLex (0, toLex (0, ⊥))
    | some frames =>
      let numNonEmptyOutputs := (frames.flatten.flatten.filter (·.output ≠ [])).length
      toLex (-(numNonEmptyOutputs : ℤ), toLex (-(group.length : ℤ),
        ((group.map Prod.fst).min? : Option String)))

/-- **Chooses the good group**, and sorts the names in it. -/
def chooseGoodReplica (groups : List (List (String × BlockData alloy))) :
    Option (List String) :=
  match if groups.length > 1 then groups.argmin (groupKey commitments) else groups.head? with
  | none => none
  | some goodGroup =>
    if goodGroup.isEmpty then none
    else some ((goodGroup.map Prod.fst).insertionSort (· ≤ ·))

theorem chooseGoodReplica_spec {groups : List (List (String × BlockData alloy))}
    (hne : groups ≠ []) (hall : ∀ g ∈ groups, g ≠ []) :
    ∃ g ∈ groups, chooseGoodReplica commitments groups =
      some ((g.map Prod.fst).insertionSort (· ≤ ·)) := by
  have hchosen : ∃ g ∈ groups, (if groups.length > 1 then groups.argmin (groupKey commitments)
      else groups.head?) = some g := by
    split
    · obtain ⟨g, hg⟩ := Option.ne_none_iff_exists'.mp
        (mt List.argmin_eq_none.mp hne : groups.argmin (groupKey commitments) ≠ none)
      exact ⟨g, List.argmin_mem hg, hg⟩
    · obtain ⟨g, gs, rfl⟩ := List.exists_cons_of_ne_nil hne
      exact ⟨g, List.mem_cons_self, rfl⟩
  obtain ⟨g, hg, hchosen⟩ := hchosen
  refine ⟨g, hg, ?_⟩
  have hempty : g.isEmpty = false := List.isEmpty_eq_false_iff.mpr (hall g hg)
  rw [chooseGoodReplica, hchosen]
  simp [hempty]

section Equality

variable [DecidableEq alloy.Header] [DecidableEq alloy.TxEnvelope]
  [DecidableEq alloy.ReceiptEnvelope] [DecidableEq alloy.Withdrawal]

/-- **The reason** why a version of a block is inconsistent with the good one. -/
def findInconsistentReason (good faulty : BlockData alloy) : InconsistentBlockReason :=
  let (goodBlock, goodReceipts, goodTraces) := good
  let (faultyBlock, faultyReceipts, faultyTraces) := faulty
  if goodBlock ≠ faultyBlock then
    if goodBlock.header ≠ faultyBlock.header then .header
    else if goodBlock.transactions.length ≠ faultyBlock.transactions.length then .bodyLen
    else .bodyContents
  else if goodReceipts.length ≠ faultyReceipts.length then .receiptsLen
  else if goodReceipts ≠ faultyReceipts then .receiptsContents
  else if goodTraces.length ≠ faultyTraces.length ∨
      goodTraces.flatten.length ≠ faultyTraces.flatten.length then .tracesLen
  else compareTraces commitments.log 0 (goodTraces.zip faultyTraces)

/-- **Finds the consensus** among the replicas that passed, in the order in which their map is
iterated. -/
def findConsensus (blockNum : UInt64) (validReplicas : List (String × BlockData alloy))
    (results : Results) : Results :=
  match chooseGoodReplica commitments (Classes.classes Prod.snd validReplicas) with
  | none | some [] =>
    validReplicas.foldl (fun results r =>
      results.push ⟨blockNum, r.1, .inconsistentBlock .noConsensus⟩) results
  | some (goodReplica :: goodGroup) =>
    validReplicas.foldl (fun results r =>
        if r.1 ∈ goodReplica :: goodGroup then results
        else
          match validReplicas.lookup goodReplica with
          | none => results
          | some good => results.push
            ⟨blockNum, r.1, .inconsistentBlock (findInconsistentReason commitments good r.2)⟩)
      { results with goodBlocks := Function.update results.goodBlocks blockNum goodReplica }

/-! ### Blocks -/

/-- **Processes a block** of all replicas. -/
def processSingleBlock (order : IterOrder (String × BlockData alloy)) (blockNum : UInt64)
    (replicaData : ReplicaMap (Option (BlockData alloy)))
    (parents : String → Option alloy.Header) (results : Results) : Results :=
  let (results, valid) := verifyReplicas commitments blockNum parents replicaData.entries results
  if valid ≠ [] then findConsensus commitments blockNum (order.order valid) results
  else results

/-- What was fetched of each block. -/
abbrev DataByBlockNum (alloy : Alloy) := UInt64 → Option (ReplicaMap (Option (BlockData alloy)))

/-- The headers of the block before, by replica. -/
def getPrevHeader (blockNum : UInt64) (dataByBlockNum : DataByBlockNum alloy)
    (replica : String) : Option alloy.Header := do
  if blockNum = 0 then none
  else
    let prev ← dataByBlockNum (blockNum - 1)
    let data ← prev.entries.lookup replica
    let data ← data
    return data.1.header

/-- **Processes the blocks of a range**, those that were fetched. The maps of different blocks
may be iterated in different orders. -/
def processBlocks (orders : UInt64 → IterOrder (String × BlockData alloy))
    (dataByBlockNum : DataByBlockNum alloy) (startBlock endBlock : UInt64) : Results :=
  (rangeInclusive startBlock endBlock).foldl (fun results blockNum =>
      match dataByBlockNum blockNum with
      | none => results
      | some replicaData =>
        processSingleBlock commitments (orders blockNum) blockNum replicaData
          (getPrevHeader blockNum dataByBlockNum) results)
    ⟨fun _ => [], fun _ => none⟩

/-! ### The consensus -/

/-- The fault of a replica that passes, next to the good data. -/
def inconsistency (blockNum : UInt64) (good : BlockData alloy) (e : String × BlockData alloy) :
    Option Fault :=
  if e.2 = good then none
  else some ⟨blockNum, e.1, .inconsistentBlock (findInconsistentReason commitments good e.2)⟩

/-- **One of the replicas is good, and those with other data are faulty.** -/
theorem findConsensus_spec {validReplicas : List (String × BlockData alloy)}
    (hne : validReplicas ≠ []) (hnodup : (validReplicas.map Prod.fst).Nodup)
    (blockNum : UInt64) :
    ∃ g dg, (g, dg) ∈ validReplicas ∧ ∀ results : Results,
      findConsensus commitments blockNum validReplicas results =
        (validReplicas.filterMap (inconsistency commitments blockNum dg)).foldl Results.push
          { results with goodBlocks := Function.update results.goodBlocks blockNum (some g) } := by
  have hclasses := Classes.areClasses (Prod.snd : String × BlockData alloy → _) validReplicas
  obtain ⟨group, hgroup, hchoose⟩ := chooseGoodReplica_spec commitments
    (Classes.classes_ne_nil hne) hclasses.ne_nil
  have hnames : ∀ r, r ∈ (group.map Prod.fst).insertionSort (· ≤ ·) ↔ ∃ d, (r, d) ∈ group := by
    intro r
    rw [List.mem_insertionSort, List.mem_map]
    exact ⟨fun ⟨e, he, hr⟩ => ⟨e.2, hr ▸ he⟩, fun ⟨d, hd⟩ => ⟨(r, d), hd, rfl⟩⟩
  cases hsorted : (group.map Prod.fst).insertionSort (· ≤ ·) with
  | nil =>
    -- The group has members, so that it has names.
    obtain ⟨e, es, hcons⟩ := List.exists_cons_of_ne_nil (hclasses.ne_nil group hgroup)
    have : e.1 ∈ (group.map Prod.fst).insertionSort (· ≤ ·) :=
      (hnames e.1).mpr ⟨e.2, hcons ▸ List.mem_cons_self⟩
    rw [hsorted] at this
    cases this
  | cons g names =>
    obtain ⟨dg, hdg⟩ := (hnames g).mp (hsorted ▸ List.mem_cons_self)
    have hmem : ∀ e : String × BlockData alloy, e ∈ group ↔ e ∈ validReplicas ∧ e.2 = dg :=
      Classes.mem_classes_iff hgroup hdg
    have hgood : (g, dg) ∈ validReplicas := ((hmem _).mp hdg).1
    -- A replica is named in the group when its data is the good one.
    have hnamed : ∀ e ∈ validReplicas, (e.1 ∈ g :: names ↔ e.2 = dg) := by
      intro e he
      rw [← hsorted, hnames]
      refine ⟨?_, fun heq => ⟨e.2, (hmem e).mpr ⟨he, heq⟩⟩⟩
      rintro ⟨d, hd⟩
      obtain ⟨hvalid, hdg⟩ := (hmem _).mp hd
      have : e.2 = d := eq_of_mem_of_mem hnodup he hvalid
      exact this.trans hdg
    refine ⟨g, dg, hgood, fun results => ?_⟩
    rw [findConsensus, hchoose, hsorted]
    simp only [lookup_of_mem hnodup hgood]
    rw [List.foldl_filterMap]
    refine List.foldl_ext _ _ _ fun results' e he => ?_
    by_cases heq : e.2 = dg
    · rw [if_pos ((hnamed e he).mpr heq), inconsistency, if_pos heq]
    · rw [if_neg (mt (hnamed e he).mp heq), inconsistency, if_neg heq]

theorem inconsistency_fields {blockNum : UInt64} {good : BlockData alloy}
    {e : String × BlockData alloy} {fault : Fault}
    (h : inconsistency commitments blockNum good e = some fault) :
    fault.replica = e.1 ∧ fault.blockNum = blockNum := by
  unfold inconsistency at h
  split at h
  · cases h
  · obtain rfl := Option.some.inj h
    exact ⟨rfl, rfl⟩

/-- **A block adds the faults of a partition of its replicas**, and its good replica. -/
theorem processSingleBlock_spec (order : IterOrder (String × BlockData alloy))
    (blockNum : UInt64) (replicaData : ReplicaMap (Option (BlockData alloy)))
    (parents : String → Option alloy.Header) :
    ∃ (faults : List Fault) (good : Option String),
      (∀ fault ∈ faults, fault.blockNum = blockNum) ∧
      Partition commitments blockNum replicaData parents
        (fun r => faults.filter (·.replica = r)) good ∧
      ∀ results, processSingleBlock commitments order blockNum replicaData parents results =
        results.add blockNum faults good := by
  set passed := replicaData.entries.filterMap (passing commitments blockNum parents)
    with hpassed
  have hvalid : ∀ r data, (r, data) ∈ order.order passed ↔
      (r, some data) ∈ replicaData.entries ∧
        verifyBlock commitments blockNum data (parents r) = .ok () := fun r data =>
    (order.mem_order passed _).trans (mem_filterMap_passing commitments)
  have hnodup : ((order.order passed).map Prod.fst).Nodup :=
    ((order.perm passed).map Prod.fst).nodup_iff.mpr
      (nodup_filterMap_passing commitments replicaData.nodup)
  have hfirst : ∀ fault ∈ replicaData.entries.filterMap (failure commitments blockNum parents),
      fault.blockNum = blockNum := by
    intro fault hfault
    obtain ⟨e, -, he⟩ := List.mem_filterMap.mp hfault
    exact (failure_fields commitments he).2
  by_cases hempty : passed = []
  · have hnil : order.order passed = [] := by
      have hperm := order.perm passed
      rw [hempty] at hperm ⊢
      exact hperm.eq_nil
    have hpartition : Partition commitments blockNum replicaData parents _ none :=
      partition_of_passes (f := fun _ => none) hvalid hnodup nofun
        (fun h => absurd hnil h) fun _ => rfl
    rw [hnil, List.filterMap_nil, List.append_nil] at hpartition
    refine ⟨_, none, hfirst, hpartition, fun results => ?_⟩
    rw [processSingleBlock, verifyReplicas_eq, ← hpassed]
    simp only [hempty, ne_eq, not_true, if_false, foldl_push, Results.add]
  · have hne : order.order passed ≠ [] := by
      intro h
      have hperm := order.perm passed
      rw [h] at hperm
      exact hempty hperm.nil_eq.symm
    obtain ⟨g, goodData, hgood, hconsensus⟩ :=
      findConsensus_spec commitments hne hnodup blockNum
    have hsecond : ∀ r data,
        (data = goodData → inconsistency commitments blockNum goodData (r, data) = none) ∧
        (data ≠ goodData → ∃ reason, inconsistency commitments blockNum goodData (r, data) =
          some ⟨blockNum, r, .inconsistentBlock reason⟩) := fun r data =>
      ⟨fun heq => if_pos heq, fun hne => ⟨_, if_neg hne⟩⟩
    refine ⟨replicaData.entries.filterMap (failure commitments blockNum parents) ++
      (order.order passed).filterMap (inconsistency commitments blockNum goodData), some g,
      ?_, ?_, fun results => ?_⟩
    · refine List.forall_mem_append.mpr ⟨hfirst, fun fault hfault => ?_⟩
      obtain ⟨e, -, he⟩ := List.mem_filterMap.mp hfault
      exact (inconsistency_fields commitments he).2
    · exact partition_of_passes hvalid hnodup
        (fun _ _ h => (inconsistency_fields commitments h).1)
        (fun _ => ⟨g, goodData, rfl, hgood, hsecond⟩) fun h => absurd h hne
    · rw [processSingleBlock, verifyReplicas_eq, ← hpassed]
      simp only [ne_eq, hempty, not_false_iff, if_true, hconsensus, foldl_push,
        List.filter_append, List.append_assoc, Results.add]

/-! ### A range of blocks -/

/-- What is found in the blocks that are done: a partition of the replicas for each of those
that were fetched, and nothing else. -/
structure Processed (dataByBlockNum : DataByBlockNum alloy) (done : List UInt64)
    (results : Results) : Prop where
  faults : ∀ r, ∀ fault ∈ results.faults r,
    fault.replica = r ∧ fault.blockNum ∈ done ∧ (dataByBlockNum fault.blockNum).isSome
  goodBlocks : ∀ n, results.goodBlocks n ≠ none → n ∈ done ∧ (dataByBlockNum n).isSome
  partition : ∀ n ∈ done, ∀ replicaData, dataByBlockNum n = some replicaData →
    Partition commitments n replicaData (getPrevHeader n dataByBlockNum)
      (fun r => (results.faults r).filter (·.blockNum = n)) (results.goodBlocks n)

variable {commitments}

/-- **A further block** adds its partition and leaves those of the other blocks. -/
theorem Processed.step {dataByBlockNum : DataByBlockNum alloy} {done : List UInt64}
    {results : Results} (h : Processed commitments dataByBlockNum done results)
    (order : IterOrder (String × BlockData alloy)) {n : UInt64} (hn : n ∉ done)
    {replicaData : ReplicaMap (Option (BlockData alloy))}
    (hdata : dataByBlockNum n = some replicaData) :
    Processed commitments dataByBlockNum (done ++ [n])
      (processSingleBlock commitments order n replicaData (getPrevHeader n dataByBlockNum)
        results) := by
  obtain ⟨faults, good, hblock, hpartition, hresult⟩ :=
    processSingleBlock_spec commitments order n replicaData (getPrevHeader n dataByBlockNum)
  rw [hresult]
  have hsome : (dataByBlockNum n).isSome := hdata ▸ rfl
  refine ⟨?_, ?_, ?_⟩
  · intro r fault hfault
    rcases List.mem_append.mp hfault with hfault | hfault
    · obtain ⟨hr, hmem, hfetched⟩ := h.faults r fault hfault
      exact ⟨hr, List.mem_append_left _ hmem, hfetched⟩
    · obtain ⟨hmem, hr⟩ := List.mem_filter.mp hfault
      rw [hblock fault hmem]
      exact ⟨of_decide_eq_true hr, List.mem_append_right _ (List.mem_singleton_self n), hsome⟩
  · intro k hk
    by_cases hkn : k = n
    · subst hkn
      exact ⟨List.mem_append_right _ (List.mem_singleton_self k), hsome⟩
    · rw [Results.goodBlocks_add_of_ne hkn] at hk
      exact ⟨List.mem_append_left _ (h.goodBlocks k hk).1, (h.goodBlocks k hk).2⟩
  · intro k hk replicaData' hdata'
    by_cases hkn : k = n
    · subst hkn
      obtain rfl : replicaData = replicaData' := Option.some.inj (hdata.symm.trans hdata')
      -- There was nothing about the block before.
      have hnew : (fun r => ((results.add k faults good).faults r).filter (·.blockNum = k)) =
          fun r => faults.filter (·.replica = r) := by
        funext r
        change (results.faults r ++ faults.filter (·.replica = r)).filter _ = _
        rw [List.filter_append, List.filter_eq_nil_iff.mpr, List.nil_append,
          List.filter_eq_self.mpr]
        · intro fault hfault
          exact decide_eq_true (hblock fault (List.mem_of_mem_filter hfault))
        · intro fault hfault heq
          exact hn (of_decide_eq_true heq ▸ (h.faults r fault hfault).2.1)
      have hnone : results.goodBlocks k = none := by
        by_contra hsome
        exact hn (h.goodBlocks k hsome).1
      rw [hnew, Results.goodBlocks_add_self hnone]
      exact hpartition
    · have hkdone : k ∈ done := by
        rcases List.mem_append.mp hk with hk | hk
        · exact hk
        · exact absurd (List.mem_singleton.mp hk) hkn
      have hold : (fun r => ((results.add n faults good).faults r).filter (·.blockNum = k)) =
          fun r => (results.faults r).filter (·.blockNum = k) := by
        funext r
        have hnot : (faults.filter (·.replica = r)).filter (·.blockNum = k) = [] := by
          rw [List.filter_eq_nil_iff]
          intro fault hfault heq
          rw [hblock fault (List.mem_of_mem_filter hfault)] at heq
          exact hkn (of_decide_eq_true heq).symm
        change (results.faults r ++ faults.filter (·.replica = r)).filter _ = _
        rw [List.filter_append, hnot, List.append_nil]
      rw [hold, Results.goodBlocks_add_of_ne hkn]
      exact h.partition k hkdone replicaData' hdata'

omit [DecidableEq alloy.Header] [DecidableEq alloy.TxEnvelope]
  [DecidableEq alloy.ReceiptEnvelope] [DecidableEq alloy.Withdrawal] in
/-- A block that was not fetched is left out. -/
theorem Processed.skip {dataByBlockNum : DataByBlockNum alloy} {done : List UInt64}
    {results : Results} (h : Processed commitments dataByBlockNum done results) {n : UInt64}
    (hdata : dataByBlockNum n = none) :
    Processed commitments dataByBlockNum (done ++ [n]) results where
  faults r fault hfault :=
    have ⟨hr, hmem, hfetched⟩ := h.faults r fault hfault
    ⟨hr, List.mem_append_left _ hmem, hfetched⟩
  goodBlocks k hk := ⟨List.mem_append_left _ (h.goodBlocks k hk).1, (h.goodBlocks k hk).2⟩
  partition := by
    intro k hk replicaData hdata'
    rcases List.mem_append.mp hk with hk | hk
    · exact h.partition k hk replicaData hdata'
    · rw [List.mem_singleton.mp hk, hdata] at hdata'
      cases hdata'

/-- **Every block of the range partitions its replicas.** For each block that was fetched, the
faults it is given and its good replica are those of a partition of its replicas; there are no
other faults and good blocks. -/
theorem processBlocks_partition (orders : UInt64 → IterOrder (String × BlockData alloy))
    (dataByBlockNum : DataByBlockNum alloy) (startBlock endBlock : UInt64) :
    Processed commitments dataByBlockNum (rangeInclusive startBlock endBlock)
      (processBlocks commitments orders dataByBlockNum startBlock endBlock) := by
  -- Block by block, with the blocks that are done in front.
  have hfold : ∀ (l done : List UInt64) (results : Results),
      Processed commitments dataByBlockNum done results → (done ++ l).Nodup →
      Processed commitments dataByBlockNum (done ++ l) (l.foldl (fun results blockNum =>
        match dataByBlockNum blockNum with
        | none => results
        | some replicaData => processSingleBlock commitments (orders blockNum) blockNum
            replicaData (getPrevHeader blockNum dataByBlockNum) results) results) := by
    intro l
    induction l with
    | nil => exact fun done results h _ => (List.append_nil done).symm ▸ h
    | cons n l ih =>
      intro done results h hnodup
      have hn : n ∉ done := fun hmem =>
        (List.nodup_append.mp hnodup).2.2 n hmem n List.mem_cons_self rfl
      rw [List.append_cons] at hnodup ⊢
      refine ih (done ++ [n]) _ ?_ hnodup
      cases hdata : dataByBlockNum n with
      | none =>
        simp only [hdata]
        exact h.skip hdata
      | some replicaData =>
        simp only [hdata]
        exact h.step (orders n) hn hdata
  exact hfold _ [] _ ⟨nofun, fun _ h => absurd rfl h, nofun⟩ nodup_rangeInclusive

end Equality

/-! ### An instance to evaluate on -/

instance : DecidableEq Alloy.sample.Header := inferInstanceAs (DecidableEq UInt64)
instance : DecidableEq Alloy.sample.TxEnvelope := inferInstanceAs (DecidableEq UInt64)
instance : DecidableEq Alloy.sample.ReceiptEnvelope := inferInstanceAs (DecidableEq UInt64)
instance : DecidableEq Alloy.sample.Withdrawal := inferInstanceAs (DecidableEq UInt64)

/-- The coding of a log as the list of its fields. -/
def logCodec : RlpCodec Log where
  toRlp log := .list [(RlpCodec.fixed 20).toRlp log.address,
    (RlpCodec.fixed 32).vec.toRlp log.topics, RlpCodec.bytes.toRlp log.data]
  ofRlp
    | .list [address, topics, data] => do
      return ⟨← (RlpCodec.fixed 20).ofRlp address, ← (RlpCodec.fixed 32).vec.ofRlp topics,
        ← RlpCodec.bytes.ofRlp data⟩
    | _ => none
  ofRlp_toRlp log := by simp [RlpCodec.ofRlp_toRlp]

/-- A header that is a number names the number before it as its parent, and its transactions and
receipts are what their numbers add up to. -/
def Commitments.sample : Commitments Alloy.sample where
  parentHash n := ⟨toBe 32 (UInt64.toNat n - 1), length_toBe 32 _⟩
  transactionsRoot _ := ⟨toBe 32 0, length_toBe 32 _⟩
  receiptsRoot _ := ⟨toBe 32 0, length_toBe 32 _⟩
  calculateTransactionRoot txs := ⟨toBe 32 (txs.map UInt64.toNat).sum, length_toBe 32 _⟩
  calculateReceiptRoot receipts := ⟨toBe 32 (receipts.map UInt64.toNat).sum, length_toBe 32 _⟩
  log := logCodec

end Checker

end Archive

end MonadServices
