import MonadServices.Archive.Checker
import MonadServices.Archive.TxIndex
import Mathlib.Data.Finset.Lattice.Fold

/-!
# The fixer of the archive checker

A fault is fixed by copying: the block, its receipts and its traces are read from the good
replica, and what was decoded is archived in the faulty one. For a block that was missing the
marker of what the replica has uploaded is moved as well.

Blocks are archived in the second version, which reads a block without withdrawals as one with
an empty list of them, and a block that was stored in the third version may have none. **The
copy is equal to the original unless this is the case**
(`MonadServices.Archive.FaultFixer.fixFault_repairs_iff`). The marker is read, compared and
written without anything that keeps the fixes of other blocks out, so that **a late write can
take the marker back**; when none does, it ends up where it should
(`MonadServices.Archive.FaultFixer.uploaded_eq_max`).
-/

namespace MonadServices

namespace Archive

namespace FaultFixer

open Checker (BlockData Commitments FaultKind GoodBlocks ReplicaMap Results processSingleBlock
  verifyBlock)

/-! ### Fixing a fault -/

/-- A replica: its archive, and the marker of what was uploaded. -/
structure Replica where
  archive : ArchiveKey → Option Bytes
  uploaded : Option UInt64

/-- The replicas of the checker. -/
abbrev Replicas := String → Option Replica

variable {alloy : Alloy}

/-- **Fetches the data of a block**: nothing if a part of it is missing or cannot be decoded. -/
def fetchBlockData (archive : ArchiveKey → Option Bytes) (blockNum : UInt64) :
    Option (BlockData alloy) :=
  match getBlockByNumber archive blockNum, getBlockReceipts archive blockNum,
      getBlockTraces archive alloy blockNum with
  | .ok block, .ok receipts, .ok traces => some (block, receipts, traces)
  | _, _, _ => none

/-- The operations of a fix on the store of the faulty replica. -/
inductive Operation where
  | archiveBlock
  | archiveReceipts
  | archiveTraces
  | getLatest
  | updateLatest
  deriving DecidableEq

/-- An operation that fails ends the fix. -/
def attempt (works : Operation → Bool) (op : Operation) (message : String) :
    Except String Unit :=
  if works op then .ok () else .error message

/-- Whether the marker has to be moved for a block. -/
def isNewer (uploaded : Option UInt64) (blockNum : UInt64) : Bool := uploaded.getD 0 < blockNum

/-- The archive of the faulty replica after the three puts. -/
def copyTo (archive : ArchiveKey → Option Bytes) (data : BlockData alloy) (blockNum : UInt64) :
    ArchiveKey → Option Bytes :=
  let (block, receipts, traces) := data
  let withBlock := archiveBlock archive block .allowOverwrite
  let withReceipts := archiveReceipts withBlock receipts blockNum .allowOverwrite
  archiveTraces alloy withReceipts traces blockNum .allowOverwrite

variable (alloy)

/-- **Fixes a fault**, with the operations that work. -/
def fixFault (works : Operation → Bool) (replicas : Replicas) (fault : Checker.Fault)
    (goodBlocks : GoodBlocks) : Except String Replicas := do
  let n := fault.blockNum
  let r := fault.replica
  match goodBlocks n with
  | none => .error s!"No good replica found for block {n}"
  | some good =>
    match replicas good with
    | none => .error "called Option::unwrap() on a None value"
    | some goodReplica =>
      match (fetchBlockData goodReplica.archive n : Option (BlockData alloy)) with
      | none => .error s!"Failed to fetch good block data for block {n}"
      | some data =>
        match replicas r with
        | none => .error s!"Block data reader not found for replica {r}"
        | some faulty =>
          attempt works .archiveBlock s!"Failed to archive block {n} for replica {r}"
          attempt works .archiveReceipts
            s!"Failed to archive receipts for block {n} for replica {r}"
          attempt works .archiveTraces
            s!"Failed to archive traces for block {n} for replica {r}"
          let archive := copyTo faulty.archive data n
          if fault.fault = .missingBlock then
            attempt works .getLatest "No latest block found"
            if isNewer faulty.uploaded n then
              attempt works .updateLatest "Failed to put"
              return Function.update replicas r (some ⟨archive, some n⟩)
            else return Function.update replicas r (some ⟨archive, faulty.uploaded⟩)
          else return Function.update replicas r (some ⟨archive, faulty.uploaded⟩)

variable {alloy}

/-! ### What a fix does -/

/-- **A fix that succeeds** copies the data of the good replica to the faulty one, and moves at
most the marker besides. -/
theorem fixFault_eq_ok {works : Operation → Bool} {replicas replicas' : Replicas}
    {fault : Checker.Fault} {goodBlocks : GoodBlocks} {good : String} {goodReplica : Replica}
    {data : BlockData alloy} (hgood : goodBlocks fault.blockNum = some good)
    (hreplica : replicas good = some goodReplica)
    (hdata : fetchBlockData goodReplica.archive fault.blockNum = some data)
    (h : fixFault alloy works replicas fault goodBlocks = .ok replicas') :
    ∃ faulty uploaded, replicas fault.replica = some faulty ∧
      replicas' = Function.update replicas fault.replica
        (some ⟨copyTo faulty.archive data fault.blockNum, uploaded⟩) := by
  simp only [fixFault, hgood, hreplica, hdata] at h
  cases hfaulty : replicas fault.replica with
  | none => simp only [hfaulty] at h; cases h
  | some faulty =>
    simp only [hfaulty, bind_eq_ok] at h
    obtain ⟨-, -, -, -, -, -, h⟩ := h
    split at h
    · obtain ⟨-, -, h⟩ := bind_eq_ok.mp h
      split at h
      · obtain ⟨-, -, h⟩ := bind_eq_ok.mp h
        exact ⟨faulty, _, rfl, (Except.ok.inj h).symm⟩
      · exact ⟨faulty, _, rfl, (Except.ok.inj h).symm⟩
    · exact ⟨faulty, _, rfl, (Except.ok.inj h).symm⟩

/-- The bytes that are put fit into memory. -/
structure Fits (data : BlockData alloy) : Prop where
  block : (alloy.block.encode data.1).length < 2 ^ 64
  receipts : (alloy.receiptWithLogIndex.vec.encode data.2.1).length < 2 ^ 64
  traces : (alloy.trace.vec.encode data.2.2).length < 2 ^ 64

/-- **What is copied is read as it was, but for absent withdrawals.** -/
theorem fetchBlockData_copyTo (archive : ArchiveKey → Option Bytes) {data : BlockData alloy}
    {blockNum : UInt64} (hnumber : alloy.number data.1.header = blockNum) (h64 : Fits data) :
    fetchBlockData (copyTo archive data blockNum) blockNum =
      some ({ data.1 with withdrawals := some (data.1.withdrawals.getD []) }, data.2) := by
  obtain ⟨block, receipts, traces⟩ := data
  subst hnumber
  have hholds : Holds (archiveAll archive block receipts traces .allowOverwrite)
      (alloy.number block.header) (.marked (.v1 block)) (.marked (.v1 receipts)) traces :=
    holds_archiveAll receipts traces nofun
  have hcopy : copyTo archive (block, receipts, traces) (alloy.number block.header) =
      archiveAll archive block receipts traces .allowOverwrite := rfl
  rw [hcopy, fetchBlockData, getBlockByNumber_of_holds hholds h64.block,
    getBlockReceipts_eq hholds h64.receipts, getBlockTraces_eq hholds h64.traces]

variable (alloy) in
/-- The block is stored in the third version, without withdrawals. -/
def LacksWithdrawals (archive : ArchiveKey → Option Bytes) (blockNum : UInt64) : Prop :=
  ∃ bytes, ∃ block : alloy.Block, archive (.block blockNum) = some bytes ∧
    BlockStorageRepr.decode bytes = .ok (.v2 block) ∧ block.withdrawals = none

theorem wrapErr_eq_ok {α : Type} {message : String} {x : Except Archive.Fault α} {a : α} :
    wrapErr message x = .ok a ↔ x = .ok a := mapError_eq_ok

/-- What is fetched is decoded from what is stored. -/
theorem decode_of_fetchBlockData {archive : ArchiveKey → Option Bytes} {blockNum : UInt64}
    {data : BlockData alloy} (h : fetchBlockData archive blockNum = some data) :
    ∃ bytes, ∃ repr : BlockStorageRepr alloy, archive (.block blockNum) = some bytes ∧
      BlockStorageRepr.decode bytes = .ok repr ∧ repr.convert = .ok data.1 := by
  unfold fetchBlockData at h
  split at h
  · rename_i block receipts traces hblock _ _
    obtain rfl := Option.some.inj h
    obtain ⟨bytes, hfound, hdecode⟩ := bind_eq_ok.mp hblock
    obtain ⟨repr, hrepr, hconvert⟩ := bind_eq_ok.mp (wrapErr_eq_ok.mp hdecode)
    refine ⟨bytes, repr, ?_, hrepr, hconvert⟩
    cases hbytes : archive (.block blockNum) with
    | none =>
      rw [hbytes] at hfound
      cases hfound
    | some bytes' =>
      rw [hbytes] at hfound
      exact congrArg some (Except.ok.inj hfound)
  · cases h

/-- Only a block that lacks withdrawals is read without. -/
theorem withdrawals_eq_none_iff {archive : ArchiveKey → Option Bytes} {blockNum : UInt64}
    {data : BlockData alloy} (h : fetchBlockData archive blockNum = some data) :
    data.1.withdrawals = none ↔ LacksWithdrawals alloy archive blockNum := by
  obtain ⟨bytes, repr, hbytes, hrepr, hconvert⟩ := decode_of_fetchBlockData h
  have hlacks : LacksWithdrawals alloy archive blockNum ↔
      ∃ block : alloy.Block, repr = .v2 block ∧ block.withdrawals = none := by
    constructor
    · rintro ⟨bytes', block, hbytes', hdecode, hnone⟩
      obtain rfl : bytes = bytes' := Option.some.inj (hbytes.symm.trans hbytes')
      exact ⟨block, Except.ok.inj (hrepr.symm.trans hdecode), hnone⟩
    · rintro ⟨block, rfl, hnone⟩
      exact ⟨bytes, block, hbytes, hrepr, hnone⟩
  rw [hlacks]
  cases repr with
  | v0 block =>
    obtain ⟨txs, -, hblock⟩ := bind_eq_ok.mp hconvert
    rw [← Except.ok.inj hblock]
    simp
  | v1 block =>
    rw [← Except.ok.inj hconvert]
    simp
  | v2 block =>
    rw [← Except.ok.inj hconvert]
    simp

/-! ### When a fix repairs -/

section Repair

variable [DecidableEq alloy.Header] [DecidableEq alloy.TxEnvelope]
  [DecidableEq alloy.ReceiptEnvelope] [DecidableEq alloy.Withdrawal]
  (commitments : Commitments alloy)

/-- Two replicas with what they have of a block. -/
def twoReplicas {a b : String} (hne : a ≠ b) (x y : Option (BlockData alloy)) :
    ReplicaMap (Option (BlockData alloy)) := ⟨[(a, x), (b, y)], by simp [hne]⟩

/-- **Nothing is inconsistent between two replicas with the same parent**: each of them gets the
fault of its own verification, or none. -/
def Consistent (blockNum : UInt64) (good faulty : Option (BlockData alloy)) : Prop :=
  ∀ (a b : String) (hne : a ≠ b) (order : IterOrder (String × BlockData alloy))
    (parents : String → Option alloy.Header), parents a = parents b →
    ∀ e ∈ [(a, good), (b, faulty)], ∀ data, e.2 = some data →
      (processSingleBlock commitments order blockNum (twoReplicas hne good faulty) parents
        ⟨fun _ => [], fun _ => none⟩).faults e.1 =
        match verifyBlock commitments blockNum data (parents e.1) with
        | .ok () => []
        | .error fault => [⟨blockNum, e.1, fault⟩]

/-- Equal data is consistent. -/
theorem consistent_self (blockNum : UInt64) (data : BlockData alloy) :
    Consistent commitments blockNum (some data) (some data) := by
  intro a b hne order parents hparents e he data' hdata'
  obtain ⟨faults, good, -, hpartition, hresult⟩ := Checker.processSingleBlock_spec commitments
    order blockNum (twoReplicas hne (some data) (some data)) parents
  have hentries : ∀ x ∈ (twoReplicas hne (some data) (some data)).entries, x.2 = some data := by
    intro x hx
    simp only [twoReplicas, List.mem_cons, List.not_mem_nil, or_false] at hx
    rcases hx with rfl | rfl <;> rfl
  have hmem : (e.1, some data') ∈ (twoReplicas hne (some data) (some data)).entries := by
    rw [← hdata']
    exact he
  obtain rfl : data = data' := Option.some.inj ((hentries _ hmem).symm)
  rw [hresult]
  change [] ++ faults.filter (·.replica = e.1) = _
  rw [List.nil_append]
  cases hverify : verifyBlock commitments blockNum data (parents e.1) with
  | error fault => exact hpartition.invalid e.1 data fault hmem hverify
  | ok =>
    obtain ⟨g, goodData, -, hg, -, -, hall⟩ := hpartition.consensus ⟨e.1, data, hmem, hverify⟩
    have hgood : data = goodData := (Option.some.inj (hentries _ hg)).symm
    exact (hall e.1 data hmem hverify).1 hgood

/-- **A fix repairs unless the good block lacks withdrawals.** The faulty replica then has what
the good one has, and the two are consistent. -/
theorem fixFault_repairs_iff {works : Operation → Bool} {replicas replicas' : Replicas}
    {fault : Checker.Fault} {goodBlocks : GoodBlocks} {good : String} {goodReplica : Replica}
    {data : BlockData alloy} (hgood : goodBlocks fault.blockNum = some good)
    (hreplica : replicas good = some goodReplica)
    (hdata : fetchBlockData goodReplica.archive fault.blockNum = some data)
    (hnumber : alloy.number data.1.header = fault.blockNum) (h64 : Fits data)
    (hfix : fixFault alloy works replicas fault goodBlocks = .ok replicas') :
    (∃ fixed, replicas' fault.replica = some fixed ∧
      fetchBlockData fixed.archive fault.blockNum = some data ∧
      Consistent commitments fault.blockNum (some data)
        (fetchBlockData fixed.archive fault.blockNum)) ↔
      ¬LacksWithdrawals alloy goodReplica.archive fault.blockNum := by
  obtain ⟨faulty, uploaded, -, rfl⟩ := fixFault_eq_ok hgood hreplica hdata hfix
  have hfetch := fetchBlockData_copyTo faulty.archive hnumber h64
  rw [← withdrawals_eq_none_iff hdata]
  constructor
  · rintro ⟨fixed, hfixed, heq, -⟩ hnone
    rw [Function.update_self] at hfixed
    obtain rfl := Option.some.inj hfixed
    rw [hfetch] at heq
    -- The copy has withdrawals.
    have hwith := congrArg (fun d : BlockData alloy => d.1.withdrawals) (Option.some.inj heq)
    rw [hnone] at hwith
    cases hwith
  · intro hsome
    obtain ⟨withdrawals, hwith⟩ := Option.ne_none_iff_exists'.mp hsome
    have hsame : ({ data.1 with withdrawals := some (data.1.withdrawals.getD []) }, data.2) =
        data := by
      obtain ⟨⟨header, txs, ommers, w⟩, rest⟩ := data
      obtain rfl : w = some withdrawals := hwith
      rfl
    rw [hsame] at hfetch
    refine ⟨_, Function.update_self .., hfetch, ?_⟩
    rw [hfetch]
    exact consistent_self commitments fault.blockNum data

end Repair

/-! ### A block that is missing in one of two replicas -/

/-- A good replica with the given archive, and a faulty one that has nothing. -/
def goodAndFaulty (archive : ArchiveKey → Option Bytes) : Replicas
  | "good" => some ⟨archive, some 1⟩
  | "faulty" => some ⟨fun _ => none, none⟩
  | _ => none

/-- The fault of the other one. -/
def missingFault : Checker.Fault := ⟨1, "faulty", .missingBlock⟩

/-- The data of the good replica. -/
def sampleData (withdrawals : Option (List UInt64)) : BlockData Alloy.sample :=
  ({ sampleBlock with withdrawals := withdrawals }, sampleReceipts.repr.convert, [[1, 2], []])

/-- The replicas after the fix. -/
def fixedReplicas (archive : ArchiveKey → Option Bytes) (withdrawals : Option (List UInt64)) :
    Replicas :=
  Function.update (goodAndFaulty archive) "faulty"
    (some ⟨copyTo (fun _ => none) (sampleData withdrawals) 1, some 1⟩)

theorem fixFault_repairs_v1 :
    ∃ fixed, fixedReplicas (sampleStore (.marked (.v1 sampleBlock))) (some []) "faulty" =
        some fixed ∧
      fetchBlockData fixed.archive 1 = some (sampleData (some [])) := by
  have hgood : (fun _ => some "good" : GoodBlocks) missingFault.blockNum = some "good" := rfl
  have hreplica : goodAndFaulty (sampleStore (.marked (.v1 sampleBlock))) "good" =
      some ⟨sampleStore (.marked (.v1 sampleBlock)), some 1⟩ := rfl
  have hdata : fetchBlockData (sampleStore (.marked (.v1 sampleBlock))) missingFault.blockNum =
      some (sampleData (some [])) := rfl
  have hfix : fixFault Alloy.sample (fun _ => true)
      (goodAndFaulty (sampleStore (.marked (.v1 sampleBlock)))) missingFault
      (fun _ => some "good") =
      .ok (fixedReplicas (sampleStore (.marked (.v1 sampleBlock))) (some [])) := rfl
  have hrepairs := (fixFault_repairs_iff Commitments.sample hgood hreplica hdata rfl
    ⟨by decide, by decide, by decide⟩ hfix).mpr ?_
  · obtain ⟨fixed, hfixed, hfetch, -⟩ := hrepairs
    exact ⟨fixed, hfixed, hfetch⟩
  · rintro ⟨bytes, block, hbytes, hdecode, -⟩
    obtain rfl : (StoredBlock.marked (.v1 sampleBlock)).bytes = bytes := Option.some.inj hbytes
    exact nomatch (Except.ok.inj hdecode : BlockStorageRepr.v1 sampleBlock = .v2 block)

/-- **A good block of the third version without withdrawals is not copied as it is.** -/
theorem v2_not_repaired :
    fetchBlockData (sampleStore (.marked (.v2 sampleBlock))) 1 = some (sampleData none) ∧
      ∃ replicas' fixed, fixFault Alloy.sample (fun _ => true)
        (goodAndFaulty (sampleStore (.marked (.v2 sampleBlock)))) missingFault
        (fun _ => some "good") = .ok replicas' ∧ replicas' "faulty" = some fixed ∧
        fetchBlockData fixed.archive 1 ≠ some (sampleData none) := by
  refine ⟨rfl, fixedReplicas (sampleStore (.marked (.v2 sampleBlock))) none, _, rfl, rfl, ?_⟩
  have hfetch : fetchBlockData (copyTo (fun _ => none) (sampleData none) 1) 1 =
      some (sampleData (some [])) := rfl
  rw [hfetch]
  intro heq
  have hwith := congrArg (fun d : BlockData Alloy.sample => d.1.withdrawals)
    (Option.some.inj heq)
  cases hwith

/-! ### Fixes at the same time

Several missing blocks of a replica are fixed at the same time, those of a chunk and those of
two chunks. Each fix reads the marker, compares, and may write; nothing else in a fix touches
the marker. -/

section Marker

/-- How far a fix is with the marker. -/
inductive MarkerPc where
  | reading
  | writing
  | done
  deriving DecidableEq

/-- The marker, and how far each fix is. -/
structure Fixes (ι : Type) where
  uploaded : Option UInt64
  pc : ι → MarkerPc

variable {ι : Type} [DecidableEq ι] (blockNum : ι → UInt64)

/-- **The next operation of a fix on the marker.** -/
def Fixes.step (σ : Fixes ι) (i : ι) : Fixes ι :=
  match σ.pc i with
  | .reading =>
    { σ with
      pc := Function.update σ.pc i (if isNewer σ.uploaded (blockNum i) then .writing else .done) }
  | .writing => ⟨some (blockNum i), Function.update σ.pc i .done⟩
  | .done => σ

/-- The fixes take turns in any order. -/
def Fixes.run (σ : Fixes ι) (turns : List ι) : Fixes ι := turns.foldl (Fixes.step blockNum) σ

/-- Before the first of them reads the marker. -/
def Fixes.init (uploaded : Option UInt64) : Fixes ι := ⟨uploaded, fun _ => .reading⟩

/-- A fix that writes does not find the marker at a later block. -/
def Fixes.Calm (σ : Fixes ι) (i : ι) : Prop :=
  σ.pc i = .writing → σ.uploaded.getD 0 ≤ blockNum i

instance (σ : Fixes ι) (i : ι) : Decidable (σ.Calm blockNum i) :=
  inferInstanceAs (Decidable (_ → _))

/-- Every turn is calm. -/
def Fixes.CalmRun : Fixes ι → List ι → Prop
  | _, [] => True
  | σ, i :: turns => σ.Calm blockNum i ∧ CalmRun (σ.step blockNum i) turns

variable {blockNum}

/-- The marker, as a number. -/
def Fixes.value (σ : Fixes ι) : ℕ := (σ.uploaded.getD 0).toNat

/-- **The invariant**: the marker is between the old one and the largest block, and no fix that
is done is ahead of it. -/
structure Fixes.Inv [Fintype ι] (blockNum : ι → UInt64) (old : ℕ) (σ : Fixes ι) : Prop where
  old_le : old ≤ σ.value
  le_max : σ.value ≤ max old (Finset.univ.sup fun i => (blockNum i).toNat)
  done_le : ∀ i, σ.pc i = .done → (blockNum i).toNat ≤ σ.value

variable [Fintype ι] {old : ℕ} {σ : Fixes ι}

/-- A calm turn keeps the invariant. -/
theorem Fixes.Inv.step (h : σ.Inv blockNum old) {i : ι} (hcalm : σ.Calm blockNum i) :
    (σ.step blockNum i).Inv blockNum old := by
  cases hpc : σ.pc i with
  | done =>
    have hstep : σ.step blockNum i = σ := by simp only [Fixes.step, hpc]
    rwa [hstep]
  | reading =>
    have hstep : σ.step blockNum i =
        ⟨σ.uploaded, Function.update σ.pc i
          (if isNewer σ.uploaded (blockNum i) then .writing else .done)⟩ := by
      simp only [Fixes.step, hpc]
    rw [hstep]
    refine ⟨h.old_le, h.le_max, fun j hj => ?_⟩
    change Function.update σ.pc i _ j = .done at hj
    by_cases hji : j = i
    · subst hji
      -- A fix that is done after reading found the marker at its block or later.
      rw [Function.update_self] at hj
      split at hj
      · cases hj
      · rename_i hnot
        have hle : ¬σ.uploaded.getD 0 < blockNum j := by simpa [isNewer] using hnot
        exact Nat.not_lt.mp hle
    · rw [Function.update_of_ne hji] at hj
      exact h.done_le j hj
  | writing =>
    have hstep : σ.step blockNum i = ⟨some (blockNum i), Function.update σ.pc i .done⟩ := by
      simp only [Fixes.step, hpc]
    have hle : σ.value ≤ (blockNum i).toNat := UInt64.le_iff_toNat_le.mp (hcalm hpc)
    have hmax : (blockNum i).toNat ≤ Finset.univ.sup fun i => (blockNum i).toNat :=
      Finset.le_sup (f := fun i => (blockNum i).toNat) (Finset.mem_univ i)
    rw [hstep]
    refine ⟨h.old_le.trans hle, hmax.trans (le_max_right ..), fun j hj => ?_⟩
    change Function.update σ.pc i .done j = .done at hj
    by_cases hji : j = i
    · exact hji ▸ le_rfl
    · rw [Function.update_of_ne hji] at hj
      exact (h.done_le j hj).trans hle

theorem Fixes.Inv.run {turns : List ι} : ∀ {σ : Fixes ι}, σ.Inv blockNum old →
    σ.CalmRun blockNum turns → (σ.run blockNum turns).Inv blockNum old := by
  induction turns with
  | nil => exact fun h _ => h
  | cons i turns ih => exact fun h hcalm => ih (h.step hcalm.1) hcalm.2

/-- **When no late write takes the marker back, it ends up at the largest block**, or where it
was if that is later. -/
theorem uploaded_eq_max (blockNum : ι → UInt64) (uploaded : Option UInt64) (turns : List ι)
    (hcalm : (Fixes.init uploaded).CalmRun blockNum turns)
    (hdone : ∀ i, ((Fixes.init uploaded).run blockNum turns).pc i = .done) :
    ((Fixes.init uploaded).run blockNum turns).value =
      max (uploaded.getD 0).toNat (Finset.univ.sup fun i => (blockNum i).toNat) := by
  have hinit : (Fixes.init uploaded : Fixes ι).Inv blockNum (uploaded.getD 0).toNat :=
    ⟨le_rfl, le_max_left .., nofun⟩
  have hinv := hinit.run hcalm
  exact le_antisymm hinv.le_max
    (max_le hinv.old_le (Finset.sup_le fun i _ => hinv.done_le i (hdone i)))

/-- Two fixes, of the blocks 5 and 7, one after the other. -/
theorem uploaded_eq_max_in_turn :
    ((Fixes.init (some 3)).run (fun i : Bool => if i then 7 else 5)
      [true, true, false]).value = 7 := by
  have hmax := uploaded_eq_max (fun i : Bool => if i then 7 else 5) (some 3) [true, true, false]
    ⟨by decide, by decide, by decide, trivial⟩ (by decide)
  exact hmax

/-- **A late write takes the marker back**: both fixes read it before one of them writes, and
the one of the smaller block writes last. -/
theorem late_write_loses :
    (∀ i, ((Fixes.init (some 3)).run (fun i : Bool => if i then 7 else 5)
      [true, false, true, false]).pc i = .done) ∧
      ((Fixes.init (some 3)).run (fun i : Bool => if i then 7 else 5)
        [true, false, true, false]).value = 5 ∧
      max ((some 3 : Option UInt64).getD 0).toNat
        (Finset.univ.sup fun i : Bool => (if i then 7 else 5 : UInt64).toNat) = 7 := by
  decide

end Marker

end FaultFixer

end Archive

end MonadServices
