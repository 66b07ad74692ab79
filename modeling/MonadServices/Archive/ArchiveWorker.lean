import MonadServices.Archive.TxIndex
import MonadServices.Archive.Worker

/-!
# The archiver

The archiver copies the blocks of a chain, with their receipts and traces, from its source to
an archive. The three parts of a block are read and written at the same time, each from the
fallback source if the source fails. An error in the traces is fatal only when traces are
required.

The archive is a `MonadServices.Archive.BlockArchive`, **which holds under the key of a block
the coding of a block of that number and nothing else**. Its puts are all or nothing: one that
returns has stored its value, and one that fails leaves the old value or the new one. The stores of
S3, DynamoDB and MongoDB keep this for a value of one document; the store of files does not if its
put is interrupted, or returns before the file is written (`MonadServices.Archive.Fs.Atomic`).
-/

namespace MonadServices

namespace Archive

/-- The options of the archiver. -/
structure ArchiveWorkerOpts where
  maxBlocksPerIteration : ℕ
  maxConcurrentBlocks : ℕ
  stopBlock : Option ℕ
  unsafeSkipBadBlocks : Bool
  requireTraces : Bool
  tracesOnly : Bool
  blocksWritePolicy : WritePolicy
  receiptsWritePolicy : WritePolicy
  tracesWritePolicy : WritePolicy

/-- How a write ends, on a store whose writes are all or nothing. -/
inductive WriteOutcome where
  | done
  /-- The write fails, before or after it was applied as a whole. -/
  | failed (applied : Bool)
  deriving DecidableEq

/-- Whether a write is applied. -/
def WriteOutcome.applied : WriteOutcome → Bool
  | .done => true
  | .failed applied => applied

/-- Whether a write returns `Ok`. -/
def WriteOutcome.isOk : WriteOutcome → Bool
  | .done => true
  | .failed _ => false

theorem WriteOutcome.applied_of_isOk {write : WriteOutcome} (h : write.isOk = true) :
    write.applied = true := by
  cases write with
  | done => rfl
  | failed applied => cases h

/-- What may be stored under a key. -/
def Genuine (alloy : Alloy) : ArchiveKey → Bytes → Prop
  | .block n, bytes => ∃ block : alloy.Block, alloy.number block.header = n ∧
      bytes = (BlockStorageRepr.v1 block).encode
  | .blockHash _, _ => True
  | .receipts _, bytes => ∃ receipts : List alloy.Receipt,
      bytes = (ReceiptStorageRepr.v1 receipts).encode
  | .traces _, bytes => ∃ traces : List Bytes, bytes = alloy.trace.vec.encode traces

/-- **An archive of blocks.** -/
structure BlockArchive (alloy : Alloy) where
  store : ArchiveKey → Option Bytes
  genuine : ∀ key bytes, store key = some bytes → Genuine alloy key bytes

namespace BlockArchive

variable {alloy : Alloy}

/-- The empty archive. -/
def empty (alloy : Alloy) : BlockArchive alloy where
  store := fun _ => none
  genuine := nofun

theorem genuine_put {archive : BlockArchive alloy} {key : ArchiveKey} {data : Bytes}
    (h : Genuine alloy key data) (policy : WritePolicy) (key' : ArchiveKey) (bytes : Bytes)
    (hget : (Archive.put archive.store key data policy).1 key' = some bytes) :
    Genuine alloy key' bytes := by
  rcases eq_or_ne key' key with rfl | hne
  · unfold Archive.put at hget
    split at hget
    · exact archive.genuine _ _ hget
    · simp only [Function.update_self, Option.some.injEq] at hget
      exact hget ▸ h
  · rw [put_of_ne hne] at hget
    exact archive.genuine _ _ hget

/-- A put that may fail, and is applied as a whole or not at all. -/
def put (archive : BlockArchive alloy) (key : ArchiveKey) (data : Bytes)
    (h : Genuine alloy key data) (policy : WritePolicy) (write : WriteOutcome) :
    BlockArchive alloy :=
  if write.applied then ⟨(Archive.put archive.store key data policy).1, genuine_put h policy⟩
  else archive

/-- Something is stored under a key. -/
def Has (archive : BlockArchive alloy) (key : ArchiveKey) : Prop := (archive.store key).isSome

variable {archive : BlockArchive alloy} {key key' : ArchiveKey} {data : Bytes}
  {h : Genuine alloy key data} {policy : WritePolicy} {write : WriteOutcome}

/-- What is stored stays stored. -/
theorem Has.put (hhas : archive.Has key') : (archive.put key data h policy write).Has key' := by
  unfold BlockArchive.put
  split
  · exact isSome_put hhas
  · exact hhas

/-- A put that returns `Ok` leaves a value, its own or an older one. -/
theorem has_put (hok : write.isOk = true) : (archive.put key data h policy write).Has key := by
  rw [BlockArchive.put, if_pos (WriteOutcome.applied_of_isOk hok)]
  exact isSome_put_self

end BlockArchive

/-! ### Archiving one block -/

/-- The parts of a block whose archiving has ended, and whether it has ended well. -/
structure ArchiveTask where
  block : Option Bool
  receipts : Option Bool
  traces : Option Bool
  deriving DecidableEq

/-- One of the parts of a block is archived: what the source and the fallback source answer, and
how the writes end. -/
inductive ArchiveInput (alloy : Alloy) where
  | block (primary fallback : Except Unit alloy.Block) (write hashWrite : WriteOutcome)
  | receipts (primary fallback : Except Unit (List alloy.Receipt)) (write : WriteOutcome)
  | traces (primary fallback : Except Unit (List Bytes)) (write : WriteOutcome)

/-- A read with a fallback source, if there is one. -/
def readWith {α : Type} (hasFallback : Bool) (primary fallback : Except Unit α) :
    Except Unit α :=
  match primary with
  | .ok a => .ok a
  | .error e => if hasFallback then fallback else .error e

section Job

variable {alloy : Alloy} (hasFallback : Bool) (opts : ArchiveWorkerOpts)

/-- **One part of a block is archived.** A source answers with the block it was asked for. -/
def archivePart (blockNum : ℕ) (archive : BlockArchive alloy) (task : ArchiveTask) :
    ArchiveInput alloy → Option (BlockArchive alloy × ArchiveTask)
  | .block primary fallback write hashWrite =>
    if task.block ≠ none then none
    else if opts.tracesOnly then some (archive, { task with block := some true })
    else match readWith hasFallback primary fallback with
      | .error _ => some (archive, { task with block := some false })
      | .ok block =>
        if h : alloy.number block.header = UInt64.ofNat blockNum then
          let stored := archive.put (.block (.ofNat blockNum)) (BlockStorageRepr.v1 block).encode
            ⟨block, h, rfl⟩ opts.blocksWritePolicy write
          let hashed := stored.put (.blockHash (alloy.hashSlow block.header))
            (digits (.ofNat blockNum)) trivial opts.blocksWritePolicy hashWrite
          some (hashed, { task with block := some (write.isOk && hashWrite.isOk) })
        else none
  | .receipts primary fallback write =>
    if task.receipts ≠ none then none
    else if opts.tracesOnly then some (archive, { task with receipts := some true })
    else match readWith hasFallback primary fallback with
      | .error _ => some (archive, { task with receipts := some false })
      | .ok receipts =>
        let stored := archive.put (.receipts (.ofNat blockNum))
          (ReceiptStorageRepr.v1 receipts).encode ⟨receipts, rfl⟩ opts.receiptsWritePolicy write
        some (stored, { task with receipts := some write.isOk })
  | .traces primary fallback write =>
    if task.traces ≠ none then none
    else match readWith hasFallback primary fallback with
      | .error _ => some (archive, { task with traces := some false })
      | .ok traces =>
        let stored := archive.put (.traces (.ofNat blockNum)) (alloy.trace.vec.encode traces)
          ⟨traces, rfl⟩ opts.tracesWritePolicy write
        some (stored, { task with traces := some write.isOk })

/-- The result of archiving a block, once its three parts have ended. -/
def archiveResult (task : ArchiveTask) : Option (Except Unit ℕ) :=
  match task.block, task.receipts, task.traces with
  | some block, some receipts, some traces =>
    if block ∧ receipts ∧ (traces ∨ ¬(opts.requireTraces ∨ opts.tracesOnly)) then some (.ok 0)
    else if opts.unsafeSkipBadBlocks then some (.ok 0)
    else some (.error ())
  | _, _, _ => none

/-- Archiving a block, as a job. -/
def archiveJob (alloy : Alloy) :
    Job (BlockArchive alloy) ℕ ArchiveTask (Except Unit ℕ) (ArchiveInput alloy) where
  fresh := ⟨none, none, none⟩
  step := fun blockNum input archive task =>
    archivePart hasFallback opts blockNum archive task input
  result := archiveResult opts

/-- **The archiver.** -/
def archiveWorker (alloy : Alloy) (overflowChecks : Bool) :
    Worker (BlockArchive alloy) ArchiveTask (ArchiveInput alloy) where
  job := archiveJob hasFallback opts alloy
  overflowChecks := overflowChecks
  maxBlocksPerIteration := opts.maxBlocksPerIteration
  maxConcurrentBlocks := opts.maxConcurrentBlocks
  stopBlock := opts.stopBlock
  noLatest := .ok 0
  noLatest_eq := fun _ h => (Except.ok.inj h).symm
  -- `err_block.saturating_sub(1)`
  before := fun errBlock => .ok (errBlock - 1)
  before_succ := fun _ => rfl

/-! ### What an archived block leaves -/

/-- What a job that has come as far as `task` has left in the archive. -/
structure Archived (blockNum : ℕ) (task : ArchiveTask) (archive : BlockArchive alloy) : Prop where
  block : opts.tracesOnly = false → task.block = some true →
    archive.Has (.block (.ofNat blockNum))
  receipts : opts.tracesOnly = false → task.receipts = some true →
    archive.Has (.receipts (.ofNat blockNum))
  traces : task.traces = some true → archive.Has (.traces (.ofNat blockNum))

variable {hasFallback opts} {blockNum : ℕ} {archive archive' : BlockArchive alloy}
  {task task' : ArchiveTask} {input : ArchiveInput alloy}

/-- The archive only grows. -/
theorem Archived.mono (h : Archived opts blockNum task archive)
    (hmono : ∀ key, archive.Has key → archive'.Has key) : Archived opts blockNum task archive' :=
  ⟨fun ho ht => hmono _ (h.block ho ht), fun ho ht => hmono _ (h.receipts ho ht),
    fun ht => hmono _ (h.traces ht)⟩

/-- **All that archiving a part can do**: the archive grows, and the part is stored if it is
reported to have ended well. -/
theorem archivePart_spec
    (h : archivePart hasFallback opts blockNum archive task input = some (archive', task')) :
    (∀ key, archive.Has key → archive'.Has key) ∧
      (Archived opts blockNum task archive → Archived opts blockNum task' archive') := by
  cases input with
  | block primary fallback write hashWrite =>
    simp only [archivePart] at h
    split at h
    · cases h
    · split at h
      · rename_i honly
        cases h
        exact ⟨fun _ hk => hk, fun ha => ⟨fun hoff => absurd honly (by simp [hoff]), ha.receipts,
          ha.traces⟩⟩
      · split at h
        · cases h
          exact ⟨fun _ hk => hk, fun ha => ⟨fun _ ht => (by cases ht), ha.receipts, ha.traces⟩⟩
        · split at h
          · cases h
            -- The block is stored by the first of the two writes, and the second one keeps it.
            refine ⟨fun _ hk => hk.put.put, fun ha => ⟨fun _ ht => ?_,
              fun hoff ht => (ha.receipts hoff ht).put.put, fun ht => (ha.traces ht).put.put⟩⟩
            simp only [Option.some.injEq, Bool.and_eq_true] at ht
            exact (BlockArchive.has_put ht.1).put
          · cases h
  | receipts primary fallback write =>
    simp only [archivePart] at h
    split at h
    · cases h
    · split at h
      · rename_i honly
        cases h
        exact ⟨fun _ hk => hk, fun ha => ⟨ha.block, fun hoff => absurd honly (by simp [hoff]),
          ha.traces⟩⟩
      · split at h
        · cases h
          exact ⟨fun _ hk => hk, fun ha => ⟨ha.block, fun _ ht => (by cases ht), ha.traces⟩⟩
        · cases h
          exact ⟨fun _ hk => hk.put, fun ha => ⟨fun hoff ht => (ha.block hoff ht).put,
            fun _ ht => BlockArchive.has_put (Option.some.inj ht),
            fun ht => (ha.traces ht).put⟩⟩
  | traces primary fallback write =>
    simp only [archivePart] at h
    split at h
    · cases h
    · split at h
      · cases h
        exact ⟨fun _ hk => hk, fun ha => ⟨ha.block, ha.receipts, fun ht => (by cases ht)⟩⟩
      · cases h
        exact ⟨fun _ hk => hk.put, fun ha => ⟨fun hoff ht => (ha.block hoff ht).put,
          fun hoff ht => (ha.receipts hoff ht).put,
          fun ht => BlockArchive.has_put (Option.some.inj ht)⟩⟩

theorem archiveJob_meets : (archiveJob hasFallback opts alloy).Meets (Archived opts) where
  fresh := fun _ _ =>
    ⟨fun _ ht => (by cases ht), fun _ ht => (by cases ht), fun ht => (by cases ht)⟩
  own := fun hstep h => (archivePart_spec hstep).2 h
  frame := fun hstep _ _ _ h => h.mono (archivePart_spec hstep).1

theorem archiveJob_lasting (overflowChecks : Bool) :
    (archiveWorker hasFallback opts alloy overflowChecks).Lasting (Archived opts) :=
  fun hstep _ _ h => h.mono (archivePart_spec hstep).1

/-- What is stored of a block that the archiver is done with. -/
structure BlockStored (opts : ArchiveWorkerOpts) (archive : BlockArchive alloy)
    (blockNum : ℕ) : Prop where
  block : opts.tracesOnly = false → archive.Has (.block (.ofNat blockNum))
  receipts : opts.tracesOnly = false → archive.Has (.receipts (.ofNat blockNum))
  traces : opts.requireTraces = true ∨ opts.tracesOnly = true →
    archive.Has (.traces (.ofNat blockNum))

/-- A block whose job has ended well is stored, unless bad blocks are skipped. -/
theorem stored_of_done {overflowChecks : Bool} (hskip : opts.unsafeSkipBadBlocks = false)
    (h : (archiveWorker hasFallback opts alloy overflowChecks).Done (Archived opts) archive
      blockNum) :
    BlockStored opts archive blockNum := by
  obtain ⟨task, n, hresult, ha⟩ := h
  simp only [archiveWorker, archiveJob, archiveResult] at hresult
  split at hresult
  · rename_i block receipts traces hblock hreceipts htraces
    split at hresult
    · rename_i hok
      obtain ⟨rfl, rfl, htr⟩ := hok
      refine ⟨fun hoff => ha.block hoff hblock, fun hoff => ha.receipts hoff hreceipts, ?_⟩
      intro hreq
      rcases htr with rfl | hnot
      · exact ha.traces htraces
      · exact absurd hreq hnot
    · rw [hskip] at hresult
      cases hresult
  · cases hresult

/-- The archiver before its first start. -/
def ArchiveWorker.new (alloy : Alloy) : Worker.System (BlockArchive alloy) ArchiveTask :=
  ⟨.empty alloy, none, .down none⟩

/-- **The archiver's marker is sound**, in every run. -/
theorem archiver_marker_sound {overflowChecks : Bool} (hskip : opts.unsafeSkipBadBlocks = false)
    {s : Worker.System (BlockArchive alloy) ArchiveTask}
    (hrun : Relation.ReflTransGen
      ((archiveWorker hasFallback opts alloy overflowChecks).Step fun _ _ => True)
      (ArchiveWorker.new alloy) s) {n : ℕ} (hlatest : s.latest = some n) {b : ℕ} (hb : b ≤ n) :
    BlockStored opts s.store b := by
  have hinit : (archiveWorker hasFallback opts alloy overflowChecks).Sound (Archived opts)
      (ArchiveWorker.new alloy) := ⟨nofun, trivial, nofun⟩
  -- `0.saturating_sub(1)` is `0`, so that a failure of block `0` leaves no block done.
  have hsound := hinit.run archiveJob_meets (archiveJob_lasting overflowChecks)
    (fun _ _ _ latest hbefore => (Except.ok.inj hbefore).symm) hrun
  exact stored_of_done hskip (hsound.marked n hlatest b hb)

end Job

end Archive

end MonadServices
