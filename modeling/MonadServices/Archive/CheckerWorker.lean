import MonadServices.Archive.Checker
import MonadServices.Archive.Worker

/-!
# The worker of the archive checker

The worker checks the blocks in chunks. It waits until some replica is far enough ahead, fetches
and compares the blocks of the next chunk, stores the faults of each replica and the good
blocks, and then writes, replica by replica, how far it has come. When it is started it goes on
after the smallest of these markers.

Any operation on the store may fail, and the worker may be killed anywhere; it is started again
then. As long as the markers of what the replicas have uploaded are not below the safety margin
that is taken off them, **the markers end chunks, what they cover is stored, and they stay
behind what was uploaded** (`MonadServices.Archive.CheckerWorker.sound_of_calm`). The margin is
taken off without a check: a replica that has uploaded less, or nothing, makes the worker panic
or, in the other build, check blocks that no replica has
(`MonadServices.Archive.CheckerWorker.young_replica_overtaken`).
-/

namespace MonadServices

namespace Archive

namespace CheckerWorker

open Checker

/-- The number of blocks in a chunk. -/
def chunkSize : ℕ := 1000

/-- The margin that is taken off what a replica has uploaded. -/
def margin : ℕ := 1000

/-- A marker, with the largest of the Uploaded markers when its chunk was processed; the latter
is not stored. -/
structure Marker where
  block : ℕ
  tip : ℕ
  deriving DecidableEq

/-- The store of the checker: how far each replica is checked, and for the start of each chunk
the faults of each replica and the good blocks. -/
structure Store where
  latestChecked : String → Option Marker
  faultsChunk : String → ℕ → Option (List Checker.Fault)
  goodBlocks : ℕ → Option GoodBlocks

namespace Store

variable (store : Store)

def setLatestChecked (replica : String) (marker : Marker) : Store :=
  { store with latestChecked := Function.update store.latestChecked replica (some marker) }

def getFaultsChunk (replica : String) (start : ℕ) : List Checker.Fault :=
  (store.faultsChunk replica start).getD []

def setRow (replica : String) (start : ℕ) (row : Option (List Checker.Fault)) : Store :=
  { store with
    faultsChunk := Function.update store.faultsChunk replica
      (Function.update (store.faultsChunk replica) start row) }

/-- Stores the faults of a replica, or deletes those that were there if it has none. -/
def storeFaults (replica : String) (start : ℕ) (faults : List Checker.Fault) : Store :=
  if faults ≠ [] then store.setRow replica start (some faults)
  else if store.getFaultsChunk replica start ≠ [] then store.setRow replica start none
  else store

def setGoodBlocks (start : ℕ) (good : GoodBlocks) : Store :=
  { store with goodBlocks := Function.update store.goodBlocks start (some good) }

end Store

/-- The options of a checker, and the names of its replicas. -/
structure Config where
  overflowChecks : Bool
  minLagFromTip : ℕ
  replicas : List String

/-- Where the worker is. -/
inductive Pc where
  /-- It does not run: it was not started, has returned an error, was killed or has panicked. -/
  | down (panic : Option Panic)
  | polling (nextToCheck : ℕ)
  /-- The results of a chunk are being stored, the faults of some replicas are not yet. -/
  | storing (start endBlock tip : ℕ) (results : Results) (rest : List String)
  /-- The markers are being written. -/
  | marking (start endBlock tip : ℕ) (rest : List String)

/-- The worker with its store. -/
structure System where
  store : Store
  /-- The order in which the process iterates over its replicas. -/
  order : IterOrder String
  pc : Pc
  /-- Whether taking off the margin went below zero at some time. -/
  underflowed : Bool

variable {alloy : Alloy} [DecidableEq alloy.Header] [DecidableEq alloy.TxEnvelope]
  [DecidableEq alloy.ReceiptEnvelope] [DecidableEq alloy.Withdrawal]

/-- What may happen. -/
inductive Event (alloy : Alloy) where
  /-- The worker is started. -/
  | boot (order : IterOrder String)
  /-- The replicas say what they have uploaded, and what they have of the next chunk. -/
  | poll (uploaded : String → Option UInt64)
      (orders : UInt64 → IterOrder (String × BlockData alloy)) (data : DataByBlockNum alloy)
  /-- The next operation on the store. -/
  | next
  /-- The operation fails, or the worker is killed; the operation may have been applied. -/
  | fail (applied : Bool)

variable (cfg : Config)

/-- The smallest marker; a replica without one counts as 0. -/
def minLatestChecked (store : Store) : Option ℕ :=
  (cfg.replicas.map fun r => (store.latestChecked r).elim 0 (·.block)).min?

/-- What a replica has uploaded; 0 if it has no marker. -/
def uploadedOr (uploaded : String → Option UInt64) (replica : String) : ℕ :=
  ((uploaded replica).getD 0).toNat

/-- **The latest block to check.** -/
def latestToCheck (uploaded : String → Option UInt64) : Except Panic ℕ := do
  let latestPerReplica ← cfg.replicas.mapM fun r =>
    subtractU64 cfg.overflowChecks (uploadedOr uploaded r) margin
  match latestPerReplica.max? with
  | none => .error .unwrapNone
  | some latest => .ok latest

/-- The largest of the Uploaded markers. -/
def tipOf (uploaded : String → Option UInt64) : ℕ :=
  (cfg.replicas.map (uploadedOr uploaded)).foldr max 0

/-- The block after which the worker goes on when it is started. -/
def boot (store : Store) : Pc :=
  match minLatestChecked cfg store with
  | none => .down none
  | some 0 => .polling 0
  | some latest =>
    match addU64 cfg.overflowChecks latest 1 with
    | .error panic => .down (some panic)
    | .ok next => .polling next

/-- The last block of the next chunk, or nothing if it is not time for it. -/
def nextChunk (nextToCheck : ℕ) (uploaded : String → Option UInt64) : Except Panic (Option ℕ) := do
  let latest ← latestToCheck cfg uploaded
  let lagged ← addU64 cfg.overflowChecks nextToCheck cfg.minLagFromTip
  let required ← addU64 cfg.overflowChecks lagged chunkSize
  if latest < required then return none
  else
    let sum ← addU64 cfg.overflowChecks nextToCheck chunkSize
    let endBlock ← subtractU64 cfg.overflowChecks sum 1
    return some endBlock

variable (commitments : Commitments alloy)

/-- One round of the loop up to the storing of the results. -/
def poll (order : IterOrder String) (nextToCheck : ℕ) (uploaded : String → Option UInt64)
    (orders : UInt64 → IterOrder (String × BlockData alloy)) (data : DataByBlockNum alloy) : Pc :=
  match nextChunk cfg nextToCheck uploaded with
  | .error panic => .down (some panic)
  | .ok none => .polling nextToCheck
  | .ok (some endBlock) =>
    .storing nextToCheck endBlock (tipOf cfg uploaded)
      (processBlocks commitments orders data (.ofNat nextToCheck) (.ofNat endBlock))
      (order.order cfg.replicas)

/-- What the operation that the worker is at does to the store. -/
def operation (store : Store) : Pc → Store
  | .storing start _ _ results (r :: _) => store.storeFaults r start (results.faults r)
  | .storing start _ _ results [] => store.setGoodBlocks start results.goodBlocks
  | .marking _ endBlock tip (r :: _) => store.setLatestChecked r ⟨endBlock, tip⟩
  | _ => store

/-- Where the worker is after the operation. -/
def advance (order : IterOrder String) : Pc → Pc
  | .storing start endBlock tip results (_ :: rest) => .storing start endBlock tip results rest
  | .storing start endBlock tip _ [] => .marking start endBlock tip (order.order cfg.replicas)
  | .marking start endBlock tip (_ :: rest) => .marking start endBlock tip rest
  | .marking _ endBlock _ [] =>
    match addU64 cfg.overflowChecks endBlock 1 with
    | .error panic => .down (some panic)
    | .ok next => .polling next
  | pc => pc

/-- **One event.** -/
def step (σ : System) : Event alloy → System
  | .boot order =>
    match σ.pc with
    | .down _ => { σ with order := order, pc := boot cfg σ.store }
    | _ => σ
  | .poll uploaded orders data =>
    match σ.pc with
    | .polling nextToCheck =>
      { σ with
        pc := poll cfg commitments σ.order nextToCheck uploaded orders data
        underflowed := σ.underflowed || cfg.replicas.any fun r => uploadedOr uploaded r < margin }
    | _ => σ
  | .next => { σ with store := operation σ.store σ.pc, pc := advance cfg σ.order σ.pc }
  | .fail applied =>
    { σ with store := if applied then operation σ.store σ.pc else σ.store, pc := .down none }

/-- A run. -/
def run : System → List (Event alloy) → System
  | σ, [] => σ
  | σ, e :: es => run (step cfg commitments σ e) es

/-! ### What holds in a run -/

/-- What is stored of the chunk that starts at `start` is what the comparison of some data of
the replicas gave. -/
def Stored (store : Store) (start : ℕ) : Prop :=
  ∃ (orders : UInt64 → IterOrder (String × BlockData alloy)) (data : DataByBlockNum alloy),
    let results := processBlocks commitments orders data (.ofNat start)
      (.ofNat (start + chunkSize - 1))
    store.goodBlocks start = some results.goodBlocks ∧
      ∀ r ∈ cfg.replicas, store.getFaultsChunk r start = results.faults r

/-- **What the checker promises**: a marker is the last block of a chunk, every chunk below the
smallest marker is stored under its start, a marker is not ahead of what was uploaded when its
chunk was processed, and there was no underflow and no panic. -/
structure Sound (σ : System) : Prop where
  aligned : ∀ r marker, σ.store.latestChecked r = some marker →
    ∃ k, 1 ≤ k ∧ marker.block = k * chunkSize - 1
  stored : ∀ k, cfg.replicas ≠ [] →
    (∀ r ∈ cfg.replicas, ∃ marker, σ.store.latestChecked r = some marker ∧
      k * chunkSize + chunkSize - 1 ≤ marker.block) →
    Stored cfg commitments σ.store (k * chunkSize)
  behind : ∀ r marker, σ.store.latestChecked r = some marker → marker.block ≤ marker.tip
  noUnderflow : σ.underflowed = false
  noPanic : ∀ panic, σ.pc ≠ .down (some panic)

/-- The step is not one in which the arithmetic of the loop leaves its range: every replica has
uploaded at least the margin, and the lag does not overflow. -/
def Calm (σ : System) : Event alloy → Prop
  | .poll uploaded _ _ => ∀ nextToCheck, σ.pc = .polling nextToCheck →
    (∀ r ∈ cfg.replicas, margin ≤ uploadedOr uploaded r) ∧
      nextToCheck + cfg.minLagFromTip + chunkSize < 2 ^ 64
  | _ => True

/-- Every step of a run is calm. -/
def CalmRun : System → List (Event alloy) → Prop
  | _, [] => True
  | σ, e :: es => Calm cfg σ e ∧ CalmRun (step cfg commitments σ e) es

/-! ### Chunks that are covered -/

variable {cfg} {commitments}

variable (cfg commitments) in
/-- The chunks before `n` are stored, and some replica is not marked from `n` on. -/
structure Covered (store : Store) (n : ℕ) : Prop where
  done : ∀ k, k * chunkSize < n → Stored cfg commitments store (k * chunkSize)
  lags : ∃ r ∈ cfg.replicas, ∀ marker, store.latestChecked r = some marker → marker.block < n

/-- Then every chunk below the smallest marker is stored. -/
theorem Covered.stored {store : Store} {n : ℕ} (h : Covered cfg commitments store n) (k : ℕ)
    (hall : ∀ r ∈ cfg.replicas, ∃ marker, store.latestChecked r = some marker ∧
      k * chunkSize + chunkSize - 1 ≤ marker.block) :
    Stored cfg commitments store (k * chunkSize) := by
  obtain ⟨r, hr, hlags⟩ := h.lags
  obtain ⟨marker, hmarker, hle⟩ := hall r hr
  have hlt := hlags marker hmarker
  refine h.done k ?_
  simp only [chunkSize] at hle ⊢
  omega

/-- What is stored of a chunk is not touched by what is stored of another one. -/
theorem Stored.congr {store store' : Store} {start : ℕ} (h : Stored cfg commitments store start)
    (hgood : store'.goodBlocks start = store.goodBlocks start)
    (hfaults : ∀ r, store'.faultsChunk r start = store.faultsChunk r start) :
    Stored cfg commitments store' start := by
  obtain ⟨orders, data, hg, hf⟩ := h
  refine ⟨orders, data, hgood.trans hg, fun r hr => ?_⟩
  rw [← hf r hr, Store.getFaultsChunk, hfaults r, Store.getFaultsChunk]

namespace Store

variable (store : Store)

theorem setRow_of_ne {r r' : String} {start start' : ℕ} {row : Option (List Checker.Fault)}
    (h : r' ≠ r ∨ start' ≠ start) :
    (store.setRow r start row).faultsChunk r' start' = store.faultsChunk r' start' := by
  simp only [setRow, Function.update_apply]
  split
  · subst_vars
    exact Function.update_of_ne (h.resolve_left fun h => h rfl) _ _
  · rfl

theorem setRow_self {r : String} {start : ℕ} {row : Option (List Checker.Fault)} :
    (store.setRow r start row).faultsChunk r start = row := by
  simp only [setRow, Function.update_self]

/-- A marker that is there was there, or is the one that was written. -/
theorem eq_or_of_setLatestChecked {r r' : String} {marker marker' : Marker}
    (h : (store.setLatestChecked r marker).latestChecked r' = some marker') :
    marker' = marker ∨ store.latestChecked r' = some marker' := by
  simp only [setLatestChecked, Function.update_apply] at h
  split at h
  · exact .inl (Option.some.inj h).symm
  · exact .inr h

@[simp] theorem storeFaults_latestChecked (r : String) (start : ℕ) (faults : List Checker.Fault) :
    (store.storeFaults r start faults).latestChecked = store.latestChecked := by
  unfold storeFaults
  split
  · rfl
  · split <;> rfl

@[simp] theorem storeFaults_goodBlocks (r : String) (start : ℕ) (faults : List Checker.Fault) :
    (store.storeFaults r start faults).goodBlocks = store.goodBlocks := by
  unfold storeFaults
  split
  · rfl
  · split <;> rfl

theorem storeFaults_of_ne {r r' : String} {start start' : ℕ} {faults : List Checker.Fault}
    (h : r' ≠ r ∨ start' ≠ start) :
    (store.storeFaults r start faults).faultsChunk r' start' = store.faultsChunk r' start' := by
  unfold storeFaults
  split
  · exact store.setRow_of_ne h
  · split
    · exact store.setRow_of_ne h
    · rfl

/-- **What is stored of a replica is read back**, also when there is nothing. -/
theorem getFaultsChunk_storeFaults (r : String) (start : ℕ) (faults : List Checker.Fault) :
    (store.storeFaults r start faults).getFaultsChunk r start = faults := by
  unfold storeFaults
  split
  · rw [getFaultsChunk, setRow_self]
    rfl
  · rename_i hempty
    have hempty : faults = [] := not_not.mp hempty
    split
    · rw [getFaultsChunk, setRow_self, hempty]
      rfl
    · rename_i hold
      rw [hempty]
      exact not_not.mp hold

end Store

/-- Storing something of a chunk leaves the chunks before it. -/
theorem Covered.storeFaults {store : Store} {n : ℕ} (h : Covered cfg commitments store n)
    (r : String) (faults : List Checker.Fault) :
    Covered cfg commitments (store.storeFaults r n faults) n where
  done k hk := (h.done k hk).congr (by rw [Store.storeFaults_goodBlocks]) fun _ =>
    store.storeFaults_of_ne (.inr hk.ne)
  lags := by
    rw [Store.storeFaults_latestChecked]
    exact h.lags

theorem Covered.setGoodBlocks {store : Store} {n : ℕ} (h : Covered cfg commitments store n)
    (good : GoodBlocks) : Covered cfg commitments (store.setGoodBlocks n good) n where
  done k hk := (h.done k hk).congr (Function.update_of_ne hk.ne _ _) fun _ => rfl
  lags := h.lags

/-- Writing a marker below `n` leaves the chunks before `n`. -/
theorem Covered.setLatestChecked {store : Store} {n : ℕ} (h : Covered cfg commitments store n)
    (r : String) {marker : Marker} (hlt : marker.block < n) :
    Covered cfg commitments (store.setLatestChecked r marker) n where
  done k hk := (h.done k hk).congr rfl fun _ => rfl
  lags := by
    obtain ⟨r₀, hr₀, hlags⟩ := h.lags
    refine ⟨r₀, hr₀, fun marker' hmarker' => ?_⟩
    rcases store.eq_or_of_setLatestChecked hmarker' with rfl | hold
    · exact hlt
    · exact hlags marker' hold

/-! ### One round of the loop -/

/-- When no replica is below the margin, taking it off gives what some replica has. -/
theorem latestToCheck_of_calm {uploaded : String → Option UInt64} (hne : cfg.replicas ≠ [])
    (hmargin : ∀ r ∈ cfg.replicas, margin ≤ uploadedOr uploaded r) :
    ∃ latest, latestToCheck cfg uploaded = .ok latest ∧
      latest + margin ≤ tipOf cfg uploaded := by
  have hmap : cfg.replicas.mapM (fun r =>
      subtractU64 cfg.overflowChecks (uploadedOr uploaded r) margin) =
      .ok (cfg.replicas.map fun r => uploadedOr uploaded r - margin) :=
    mapM_eq_ok_map fun r hr => by rw [subtractU64, if_pos (hmargin r hr)]
  cases hmax : (cfg.replicas.map fun r => uploadedOr uploaded r - margin).max? with
  | none =>
    rw [List.max?_eq_none_iff, List.map_eq_nil_iff] at hmax
    exact absurd hmax hne
  | some latest =>
    refine ⟨latest, by simp only [latestToCheck, hmap, bind, Except.bind, hmax], ?_⟩
    obtain ⟨r, hr, rfl⟩ := List.mem_map.mp (List.max?_mem hmax)
    have htip : uploadedOr uploaded r ≤ tipOf cfg uploaded :=
      List.le_max_of_le' 0 (List.mem_map_of_mem hr) le_rfl
    have := hmargin r hr
    omega

/-- **A chunk is only taken when some replica is well past its end.** -/
theorem nextChunk_of_calm {uploaded : String → Option UInt64} {nextToCheck : ℕ}
    (hne : cfg.replicas ≠ [])
    (hmargin : ∀ r ∈ cfg.replicas, margin ≤ uploadedOr uploaded r)
    (hlag : nextToCheck + cfg.minLagFromTip + chunkSize < 2 ^ 64) :
    nextChunk cfg nextToCheck uploaded = .ok none ∨
      nextChunk cfg nextToCheck uploaded = .ok (some (nextToCheck + chunkSize - 1)) ∧
        nextToCheck + chunkSize - 1 ≤ tipOf cfg uploaded := by
  obtain ⟨latest, hlatest, htip⟩ := latestToCheck_of_calm hne hmargin
  have hlagged : addU64 cfg.overflowChecks nextToCheck cfg.minLagFromTip =
      .ok (nextToCheck + cfg.minLagFromTip) := if_pos (by omega)
  have hrequired : addU64 cfg.overflowChecks (nextToCheck + cfg.minLagFromTip) chunkSize =
      .ok (nextToCheck + cfg.minLagFromTip + chunkSize) := if_pos hlag
  have hsum : addU64 cfg.overflowChecks nextToCheck chunkSize = .ok (nextToCheck + chunkSize) :=
    if_pos (by omega)
  have hend : subtractU64 cfg.overflowChecks (nextToCheck + chunkSize) 1 =
      .ok (nextToCheck + chunkSize - 1) := if_pos (by simp only [chunkSize]; omega)
  have hchunk : nextChunk cfg nextToCheck uploaded =
      if latest < nextToCheck + cfg.minLagFromTip + chunkSize then .ok none
      else .ok (some (nextToCheck + chunkSize - 1)) := by
    simp only [nextChunk, hlatest, hlagged, hrequired, hsum, hend, bind, Except.bind, pure,
      Except.pure]
  rw [hchunk]
  split
  · exact .inl rfl
  · exact .inr ⟨rfl, by omega⟩

/-! ### The invariant -/

/-- A marker as it should be. -/
def Marker.Ok (marker : Marker) : Prop :=
  (∃ k, 1 ≤ k ∧ marker.block = k * chunkSize - 1) ∧ marker.block ≤ marker.tip ∧
    marker.block + 1 < 2 ^ 64

/-- A chunk that is being worked on: its ends, and the largest Uploaded marker. -/
structure ChunkOk (start endBlock tip : ℕ) : Prop where
  aligned : chunkSize ∣ start
  endBlock_eq : endBlock = start + chunkSize - 1
  fits : endBlock + 1 < 2 ^ 64
  behind : endBlock ≤ tip

theorem ChunkOk.marker {start endBlock tip : ℕ} (h : ChunkOk start endBlock tip) :
    Marker.Ok ⟨endBlock, tip⟩ := by
  obtain ⟨k, hk⟩ := h.aligned
  refine ⟨⟨k + 1, by omega, ?_⟩, h.behind, h.fits⟩
  change endBlock = (k + 1) * chunkSize - 1
  rw [h.endBlock_eq, hk, Nat.mul_comm, Nat.add_mul, Nat.one_mul]

/-- The end of a chunk is right before the start of the next one. -/
theorem ChunkOk.endBlock_succ {start endBlock tip : ℕ} (h : ChunkOk start endBlock tip) :
    endBlock + 1 = start + chunkSize := by
  rw [h.endBlock_eq, chunkSize]
  omega

variable (cfg commitments) in
/-- What is true of the store where the worker is. -/
def At (store : Store) : Pc → Prop
  | .down panic => panic = none ∧ ∀ k, cfg.replicas ≠ [] →
    (∀ r ∈ cfg.replicas, ∃ marker, store.latestChecked r = some marker ∧
      k * chunkSize + chunkSize - 1 ≤ marker.block) →
    Stored cfg commitments store (k * chunkSize)
  | .polling nextToCheck => chunkSize ∣ nextToCheck ∧ Covered cfg commitments store nextToCheck
  | .storing start endBlock tip results rest =>
    ChunkOk start endBlock tip ∧ Covered cfg commitments store start ∧
      (∃ orders data, results =
        processBlocks commitments orders data (.ofNat start) (.ofNat endBlock)) ∧
      ∀ r ∈ cfg.replicas, r ∉ rest → store.getFaultsChunk r start = results.faults r
  | .marking start endBlock tip _ =>
    ChunkOk start endBlock tip ∧ Covered cfg commitments store (start + chunkSize)

variable (cfg commitments) in
/-- **The invariant of a run.** -/
structure Inv (σ : System) : Prop where
  markers : ∀ r marker, σ.store.latestChecked r = some marker → marker.Ok
  place : At cfg commitments σ.store σ.pc
  noUnderflow : σ.underflowed = false

theorem Covered.down {store : Store} {n : ℕ} (h : Covered cfg commitments store n) :
    At cfg commitments store (.down none) := ⟨rfl, fun k _ => h.stored k⟩

/-- Wherever the worker is, it can go down. -/
theorem At.down {store : Store} {pc : Pc} (h : At cfg commitments store pc) :
    At cfg commitments store (.down none) := by
  cases pc with
  | down panic => exact ⟨rfl, h.2⟩
  | polling n => exact h.2.down
  | storing start endBlock tip results rest => exact h.2.1.down
  | marking start endBlock tip rest => exact h.2.down

/-- The start of the worker: the chunks up to the smallest marker are stored. -/
theorem Inv.boot {σ : System} (h : Inv cfg commitments σ)
    (hdown : At cfg commitments σ.store (.down none)) :
    At cfg commitments σ.store (boot cfg σ.store) := by
  unfold CheckerWorker.boot
  cases hmin : minLatestChecked cfg σ.store with
  | none => exact hdown
  | some latest =>
    obtain ⟨hmem, hle⟩ := List.min?_eq_some_iff.mp hmin
    obtain ⟨r, hr, hlatest⟩ := List.mem_map.mp hmem
    have hne : cfg.replicas ≠ [] := List.ne_nil_of_mem hr
    cases latest with
    | zero =>
      -- A marker is not 0, so that the replica has none.
      refine ⟨dvd_zero _, fun k hk => absurd hk (Nat.not_lt_zero _), r, hr, ?_⟩
      intro marker hmarker
      obtain ⟨⟨k, hk, hblock⟩, -⟩ := h.markers r marker hmarker
      rw [hmarker] at hlatest
      change marker.block = 0 at hlatest
      simp only [chunkSize] at hblock
      omega
    | succ latest =>
      have hmarked : ∀ r' ∈ cfg.replicas, ∃ marker, σ.store.latestChecked r' = some marker ∧
          latest + 1 ≤ marker.block := by
        intro r' hr'
        have hle' := hle _ (List.mem_map_of_mem hr')
        cases hmarker : σ.store.latestChecked r' with
        | none =>
          rw [hmarker] at hle'
          exact absurd hle' (by simp)
        | some marker =>
          rw [hmarker] at hle'
          exact ⟨marker, rfl, hle'⟩
      obtain ⟨marker, hmarker, -⟩ := hmarked r hr
      rw [hmarker] at hlatest
      obtain ⟨⟨k, hk, hblock⟩, -, hfits⟩ := h.markers r marker hmarker
      change marker.block = latest + 1 at hlatest
      have hadd : addU64 cfg.overflowChecks (latest + 1) 1 = .ok (latest + 1 + 1) :=
        if_pos (by omega)
      simp only [hadd]
      refine ⟨⟨k, ?_⟩, fun j hj => hdown.2 j hne fun r' hr' => ?_, r, hr, ?_⟩
      · simp only [chunkSize] at hblock ⊢
        omega
      · obtain ⟨marker', hmarker', hge⟩ := hmarked r' hr'
        refine ⟨marker', hmarker', ?_⟩
        simp only [chunkSize] at hblock hj ⊢
        omega
      · intro marker' hmarker'
        obtain rfl : marker = marker' := Option.some.inj (hmarker.symm.trans hmarker')
        omega

/-- A round of the loop that is calm. -/
theorem At.poll {store : Store} {nextToCheck : ℕ}
    (h : At cfg commitments store (.polling nextToCheck)) (order : IterOrder String)
    {uploaded : String → Option UInt64}
    (orders : UInt64 → IterOrder (String × BlockData alloy)) (data : DataByBlockNum alloy)
    (hmargin : ∀ r ∈ cfg.replicas, margin ≤ uploadedOr uploaded r)
    (hlag : nextToCheck + cfg.minLagFromTip + chunkSize < 2 ^ 64) :
    At cfg commitments store (poll cfg commitments order nextToCheck uploaded orders data) := by
  obtain ⟨haligned, hcovered⟩ := h
  obtain ⟨r, hr, -⟩ := hcovered.lags
  unfold CheckerWorker.poll
  rcases nextChunk_of_calm (List.ne_nil_of_mem hr) hmargin hlag with hnone | ⟨hsome, htip⟩
  · simp only [hnone]
    exact ⟨haligned, hcovered⟩
  · simp only [hsome]
    refine ⟨⟨haligned, rfl, ?_, htip⟩, hcovered, ⟨orders, data, rfl⟩, ?_⟩
    · simp only [chunkSize] at hlag ⊢
      omega
    · intro r hr hnot
      exact absurd ((order.mem_order cfg.replicas _).mpr hr) hnot

/-- **An operation keeps what is true where the worker is then**, and the markers. -/
theorem At.next {store : Store} {pc : Pc} (h : At cfg commitments store pc)
    (order : IterOrder String) :
    At cfg commitments (operation store pc) (advance cfg order pc) := by
  cases pc with
  | down panic => exact h
  | polling n => exact h
  | storing start endBlock tip results rest =>
    obtain ⟨hchunk, hcovered, ⟨orders, data, hresults⟩, hrows⟩ := h
    cases rest with
    | cons r rest =>
      refine ⟨hchunk, hcovered.storeFaults r _, ⟨orders, data, hresults⟩, ?_⟩
      intro r' hr' hnot
      by_cases hrr : r' = r
      · exact hrr ▸ store.getFaultsChunk_storeFaults r start (results.faults r)
      · have hrow := hrows r' hr' fun hmem =>
          (List.mem_cons.mp hmem).elim hrr hnot
        rw [← hrow]
        exact congrArg (·.getD []) (store.storeFaults_of_ne (.inl hrr))
    | nil =>
      -- Everything of the chunk is stored now.
      have hstored : Stored cfg commitments (store.setGoodBlocks start results.goodBlocks)
          start := by
        refine ⟨orders, data, ?_, fun r hr => ?_⟩
        · rw [← hchunk.endBlock_eq, ← hresults]
          exact Function.update_self ..
        · rw [← hchunk.endBlock_eq, ← hresults]
          exact hrows r hr List.not_mem_nil
      have hnew := hcovered.setGoodBlocks results.goodBlocks
      refine ⟨hchunk, fun k hk => ?_, ?_⟩
      · rcases Nat.lt_or_ge (k * chunkSize) start with hlt | hge
        · exact hnew.done k hlt
        · obtain ⟨j, hj⟩ := hchunk.aligned
          have : k * chunkSize = start := by
            simp only [chunkSize] at hk hge hj ⊢
            omega
          rw [this]
          exact hstored
      · obtain ⟨r, hr, hlags⟩ := hnew.lags
        exact ⟨r, hr, fun marker hmarker => (hlags marker hmarker).trans_le (Nat.le_add_right ..)⟩
  | marking start endBlock tip rest =>
    obtain ⟨hchunk, hcovered⟩ := h
    have hsucc := hchunk.endBlock_succ
    cases rest with
    | cons r rest =>
      refine ⟨hchunk, hcovered.setLatestChecked r ?_⟩
      change endBlock < start + chunkSize
      omega
    | nil =>
      have hadd : addU64 cfg.overflowChecks endBlock 1 = .ok (start + chunkSize) := by
        rw [addU64, if_pos hchunk.fits, hsucc]
      simp only [advance, hadd]
      exact ⟨(Nat.dvd_add_right hchunk.aligned).mpr dvd_rfl, hcovered⟩

/-- The markers that an operation leaves are as they should be. -/
theorem markers_operation {store : Store} {pc : Pc} (h : At cfg commitments store pc)
    (hmarkers : ∀ r marker, store.latestChecked r = some marker → marker.Ok) (r : String)
    (marker : Marker) (hmarker : (operation store pc).latestChecked r = some marker) :
    marker.Ok := by
  cases pc with
  | down panic => exact hmarkers r marker hmarker
  | polling n => exact hmarkers r marker hmarker
  | storing start endBlock tip results rest =>
    cases rest with
    | nil => exact hmarkers r marker hmarker
    | cons r' rest =>
      rw [operation, Store.storeFaults_latestChecked] at hmarker
      exact hmarkers r marker hmarker
  | marking start endBlock tip rest =>
    cases rest with
    | nil => exact hmarkers r marker hmarker
    | cons r' rest =>
      rcases store.eq_or_of_setLatestChecked hmarker with rfl | hold
      · exact h.1.marker
      · exact hmarkers r marker hold

/-- An operation that is applied although the worker goes down. -/
theorem At.fail {store : Store} {pc : Pc} (h : At cfg commitments store pc)
    (order : IterOrder String) (applied : Bool) :
    At cfg commitments (if applied then operation store pc else store) (.down none) := by
  cases applied with
  | false => exact h.down
  | true => exact (h.next order).down

/-- **Every calm event keeps the invariant.** -/
theorem Inv.step {σ : System} (h : Inv cfg commitments σ) {e : Event alloy}
    (hcalm : Calm cfg σ e) : Inv cfg commitments (step cfg commitments σ e) := by
  obtain ⟨store, order, pc, underflowed⟩ := σ
  cases e with
  | boot order' =>
    cases pc with
    | down panic => exact ⟨h.markers, h.boot h.place.down, h.noUnderflow⟩
    | _ => exact h
  | poll uploaded orders data =>
    cases pc with
    | polling nextToCheck =>
      obtain ⟨hmargin, hlag⟩ := hcalm nextToCheck rfl
      refine ⟨h.markers, h.place.poll order orders data hmargin hlag, ?_⟩
      have hflag : underflowed = false := h.noUnderflow
      have hany : (cfg.replicas.any fun r => decide (uploadedOr uploaded r < margin)) = false := by
        rw [List.any_eq_false]
        intro r hr
        have := hmargin r hr
        simpa using this
      change (underflowed || cfg.replicas.any fun r => decide (uploadedOr uploaded r < margin)) =
        false
      rw [hflag, hany]
      rfl
    | _ => exact h
  | next => exact ⟨markers_operation h.place h.markers, h.place.next order, h.noUnderflow⟩
  | fail applied =>
    refine ⟨?_, h.place.fail order applied, h.noUnderflow⟩
    cases applied with
    | false => exact h.markers
    | true => exact markers_operation h.place h.markers

theorem Inv.run {es : List (Event alloy)} : ∀ {σ : System}, Inv cfg commitments σ →
    CalmRun cfg commitments σ es → Inv cfg commitments (run cfg commitments σ es) := by
  induction es with
  | nil => exact fun h _ => h
  | cons e es ih => exact fun h hcalm => ih (h.step hcalm.1) hcalm.2

/-- The invariant says what the checker promises. -/
theorem Inv.sound {σ : System} (h : Inv cfg commitments σ) : Sound cfg commitments σ where
  aligned r marker hmarker := (h.markers r marker hmarker).1
  stored := h.place.down.2
  behind r marker hmarker := (h.markers r marker hmarker).2.1
  noUnderflow := h.noUnderflow
  noPanic := by
    intro panic hpc
    have hplace := h.place
    rw [hpc] at hplace
    exact absurd hplace.1 (by simp)

/-- The checker before it was ever started: there are no markers. -/
def fresh (store : Store) (order : IterOrder String) : System :=
  ⟨{ store with latestChecked := fun _ => none }, order, .down none, false⟩

/-- **A calm run is sound in every state.** Whatever else is in the store at the beginning,
however the replicas grow, whatever they contain, wherever the worker fails or is killed: as
long as every replica has uploaded at least the margin when it is asked, the checker keeps what
it promises. -/
theorem sound_of_calm (cfg : Config) (commitments : Commitments alloy) (store : Store)
    (order : IterOrder String) (es : List (Event alloy))
    (hcalm : CalmRun cfg commitments (fresh store order) es) :
    Sound cfg commitments (run cfg commitments (fresh store order) es) := by
  have hfresh : Inv cfg commitments (fresh store order) := by
    refine ⟨nofun, ⟨rfl, fun k hne hall => ?_⟩, rfl⟩
    obtain ⟨r, rs, hr⟩ := List.exists_cons_of_ne_nil hne
    obtain ⟨marker, hmarker, -⟩ := hall r (hr ▸ List.mem_cons_self)
    cases hmarker
  exact (hfresh.run hcalm).sound

/-! ### Two runs -/

/-- A checker of one replica with the default lag, in either build. -/
def oneReplica (overflowChecks : Bool) : Config := ⟨overflowChecks, 1500, ["a"]⟩

/-- Nothing is stored. -/
def emptyStore : Store := ⟨fun _ => none, fun _ _ => none, fun _ => none⟩

/-- A run that checks a chunk of which nothing could be fetched, writes its marker, is killed
and started again. -/
def oneChunk (uploaded : Option UInt64) : List (Event Alloy.sample) :=
  [.boot (inOrder _), .poll (fun _ => uploaded) (fun _ => inOrder _) fun _ => none, .next, .next,
    .next, .fail false, .boot (inOrder _)]

theorem sound_of_calm_one_chunk :
    Sound (oneReplica false) Commitments.sample
      (run (oneReplica false) Commitments.sample (fresh emptyStore (inOrder _))
        (oneChunk (some 5000))) := by
  refine sound_of_calm (oneReplica false) Commitments.sample emptyStore (inOrder _)
    (oneChunk (some 5000)) ⟨trivial, ?_, trivial, trivial, trivial, trivial, trivial, trivial⟩
  intro nextToCheck hpc
  obtain rfl : 0 = nextToCheck := Pc.polling.inj hpc
  exact ⟨fun _ _ => show 1000 ≤ (5000 : UInt64).toNat by decide, by decide⟩

/-- **A replica that has uploaded nothing is overtaken.** In the build without overflow checks
its first thousand blocks are checked and marked, and in the other one the checker panics. -/
theorem young_replica_overtaken :
    (run (oneReplica false) Commitments.sample (fresh emptyStore (inOrder _))
        (oneChunk none)).store.latestChecked "a" = some ⟨999, 0⟩ ∧
      ¬Sound (oneReplica false) Commitments.sample
        (run (oneReplica false) Commitments.sample (fresh emptyStore (inOrder _))
          (oneChunk none)) ∧
      ¬Sound (oneReplica true) Commitments.sample
        (run (oneReplica true) Commitments.sample (fresh emptyStore (inOrder _))
          ((oneChunk none).take 2)) := by
  have hmarked : (run (oneReplica false) Commitments.sample (fresh emptyStore (inOrder _))
      (oneChunk none)).store.latestChecked "a" = some ⟨999, 0⟩ := rfl
  refine ⟨hmarked, fun h => ?_, fun h => h.noPanic .overflow rfl⟩
  exact absurd (h.behind "a" _ hmarked) (by decide)

end CheckerWorker

end Archive

end MonadServices
