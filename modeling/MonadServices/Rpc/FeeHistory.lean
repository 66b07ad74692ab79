import MonadServices.Lib.Range
import MonadServices.Rpc.BlockReference
import MonadServices.Rpc.FeeHistoryRewards
import MonadServices.Rpc.Jsonrpc

/-!
# The history of fees

`eth_feeHistory` reads the newest block, and then the blocks up to it and their receipts, each by a
read of its own: **the store may change from one read to the next**, so that the receipts need not
be those of the transactions. The base fee of the block after the newest one is added at the end.

What the lists of the response have for blobs is counted from the request, and the other lists from
the blocks that there are. The base fee that is added is mostly not that of the next block, even if
there is one. **The response has the right shape, without a panic, if and only if there are as many
blocks as are asked for, no threshold needs a receipt that is missing, and the base fee that is
taken for the next one is its base fee** (`MonadServices.Rpc.FeeHistory.meets_iff`).
-/

namespace MonadServices

namespace Rpc

namespace FeeHistory

/-! ### The store -/

structure Header where
  number : UInt64
  baseFeePerGas : Option UInt64
  gasUsed : UInt64
  gasLimit : UInt64

/-- `base_fee_per_gas.unwrap_or_default()`. -/
def Header.baseFee (header : Header) : UInt64 := header.baseFeePerGas.getD 0

structure Block (Tx : Type) where
  header : Header
  transactions : List Tx

/-- What the data provider answers at a moment. -/
structure View (Tx Receipt E : Type) where
  getLatestBlockNumber : UInt64
  getBlockHeader : BlockTags → Except E Header
  getBlock : BlockTags → Except E (Block Tx)
  getBlockReceipts : BlockTags → Except E (List Receipt)
  /-- What is stored under a number has this number. -/
  number_eq : ∀ n header, getBlockHeader (.number n) = .ok header → header.number = n.value

/-- The moments of the reads. -/
structure Reads (Tx Receipt E : Type) where
  newest : View Tx Receipt E
  block : UInt64 → View Tx Receipt E
  receipts : UInt64 → View Tx Receipt E
  latestNumber : View Tx Receipt E
  next : View Tx Receipt E

/-- What is known of the other parts of a request, and of numbers with a point. -/
structure Env (Tx Receipt Percentile F : Type) extends RewardEnv Tx Receipt Percentile where
  /-- From 0 to 100. -/
  inRange : Percentile → Bool
  le : Percentile → Percentile → Bool
  div : UInt64 → UInt64 → F
  zero : F
  /-- A larger percentage of the same gas is rounded to no less. -/
  gasThreshold_mono : ∀ gas p q, le p q = true → gasThreshold gas p ≤ gasThreshold gas q

structure MonadEthHistoryParams (Percentile : Type) where
  blockCount : UInt64
  newestBlock : BlockTags
  rewardPercentiles : Option (List Percentile)

/-- The response. -/
structure MonadFeeHistory (F : Type) where
  baseFeePerGas : List (BitVec 128)
  gasUsedRatio : List F
  baseFeePerBlobGas : List (BitVec 128)
  blobGasUsedRatio : List F
  oldestBlock : UInt64
  reward : Option (List (List (BitVec 128)))

variable {Tx Receipt E Percentile F : Type}

/-! ### The request -/

section Request

open Jsonrpc

abbrev Result (α : Type) := Except (Halt Jsonrpc.JsonRpcError) α

def internalError {α : Type} (message : String) : Result α :=
  .error (.error (.internalError message))

/-- A read whose error is not told. -/
def orInternalError {α : Type} (message : String) : Except E α → Result α
  | .ok a => .ok a
  | .error _ => internalError message

/-- Whether each element is at most the next one. -/
def isSorted (le : Percentile → Percentile → Bool) : List Percentile → Bool
  | p :: q :: rest => le p q && isSorted le (q :: rest)
  | _ => true

variable (env : Env Tx Receipt Percentile F) (overflowChecks : Bool) (reads : Reads Tx Receipt E)

/-- The percentiles, if there are any. -/
def checkPercentiles : Option (List Percentile) → Result (Option (List Percentile))
  | some percentiles =>
    if 100 < percentiles.length then
      internalError "number of reward percentiles must be less than or equal to 100"
    else if percentiles.any fun p => !env.inRange p then
      internalError "reward percentiles must be between 0-100"
    else if !isSorted env.le percentiles then
      internalError "reward percentiles must be sorted"
    else if percentiles.isEmpty then .ok none
    else .ok (some percentiles)
  | none => .ok none

/-- A block and its receipts. -/
def readBlock (blkNum : UInt64) : Result (Block Tx × List Receipt) := do
  let block ← orInternalError "could not get block data"
    ((reads.block blkNum).getBlock (.number ⟨blkNum⟩))
  let receipts ← orInternalError "could not get block receipts"
    ((reads.receipts blkNum).getBlockReceipts (.number ⟨blkNum⟩))
  return (block, receipts)

/-- What a block contributes. -/
structure Row (F : Type) where
  baseFee : BitVec 128
  gasUsedRatio : F
  rewards : List (BitVec 128)

/-- `u128::from`. -/
def toU128 (n : UInt64) : BitVec 128 := n.toBitVec.setWidth 128

def rowOf (percentiles : Option (List Percentile)) (x : Block Tx × List Receipt) :
    Result (Row F) := do
  let header := x.1.header
  let rewards ← calculateFeeHistoryRewards env.toRewardEnv overflowChecks x.1.transactions x.2
    header.baseFee header.gasUsed percentiles
  return ⟨toU128 header.baseFee, env.div header.gasUsed header.gasLimit, rewards⟩

/-- `get_next_block_base_fee`. -/
def getNextBlockBaseFee (tag : BlockTags) (previousBaseFee : UInt64) : Result UInt64 :=
  match tag with
  | .latest | .safe => .ok previousBaseFee
  | .number num => do
    let next ← addU64 overflowChecks num.value 1
    if reads.latestNumber.getLatestBlockNumber < next then .ok previousBaseFee
    else do
      let header ← orInternalError "could not get block data"
        (reads.next.getBlockHeader (.number ⟨next⟩))
      return header.baseFee
  | .finalized => do
    let header ← orInternalError "could not get block data" (reads.next.getBlockHeader .latest)
    return header.baseFee

/-- The oldest block of the range. -/
def oldestBlock (newest blockCount : UInt64) : UInt64 :=
  UInt64.ofNat (newest.toNat - (blockCount.toNat - 1))

/-- The response that is put together in the end. -/
def response (blockCount oldest : UInt64) (percentiles : Option (List Percentile))
    (rows : List (Row F)) (nextBlockBaseFee : UInt64) : MonadFeeHistory F where
  baseFeePerGas := rows.map (·.baseFee) ++ [toU128 nextBlockBaseFee]
  gasUsedRatio := rows.map (·.gasUsedRatio)
  baseFeePerBlobGas := List.replicate (blockCount.toNat + 1) 0
  blobGasUsedRatio := List.replicate blockCount.toNat env.zero
  oldestBlock := oldest
  reward := if percentiles.isSome then some (rows.map (·.rewards)) else some []

/-- `monad_eth_feeHistory`. -/
def monadEthFeeHistory (params : MonadEthHistoryParams Percentile) : Result (MonadFeeHistory F) :=
  if params.blockCount = 0 then .ok ⟨[], [], [], [], 0, none⟩
  else if 1024 < params.blockCount then
    .error (.error (.withMessage .serverError "block count must be between 1 and 1024"))
  else do
    let header ← orInternalError "could not get block data"
      (reads.newest.getBlockHeader params.newestBlock)
    let percentiles ← checkPercentiles env params.rewardPercentiles
    let oldest := oldestBlock header.number params.blockCount
    let rows ← (rangeInclusive oldest header.number).mapM fun blkNum => do
      rowOf env overflowChecks percentiles (← readBlock reads blkNum)
    let lastBaseFee := (((rows.map (·.baseFee)).getLast?).map fun fee =>
      UInt64.ofBitVec (fee.setWidth 64)).getD 0
    let nextBlockBaseFee ←
      getNextBlockBaseFee overflowChecks reads params.newestBlock lastBaseFee
    return response env params.blockCount oldest percentiles rows nextBlockBaseFee

end Request

/-! ### The response that is expected -/

section Expected

variable (env : Env Tx Receipt Percentile F) (reads : Reads Tx Receipt E)
  (params : MonadEthHistoryParams Percentile)

/-- The number of blocks that are covered. -/
def covered (newest : Header) (blockCount : UInt64) : ℕ :=
  min blockCount.toNat (newest.number.toNat + 1)

/-- The header of the next block, where there is one. -/
def IsNext (newest header : Header) : Prop :=
  newest.number.toNat + 1 < UInt64.size ∧
    reads.next.getBlockHeader (.number ⟨newest.number + 1⟩) = .ok header

/-- **The shape of a response**: the lengths of its lists, and the base fees of the blocks. -/
structure Shape (newest : Header) (h : MonadFeeHistory F) : Prop where
  oldest : h.oldestBlock.toNat + covered newest params.blockCount = newest.number.toNat + 1
  length_baseFee : h.baseFeePerGas.length = covered newest params.blockCount + 1
  baseFee : ∀ i < covered newest params.blockCount, ∃ blkNum block,
    blkNum.toNat = h.oldestBlock.toNat + i ∧
    (reads.block blkNum).getBlock (.number ⟨blkNum⟩) = .ok block ∧
    h.baseFeePerGas[i]? = some (toU128 block.header.baseFee)
  next : ∀ header, IsNext reads newest header →
    h.baseFeePerGas[covered newest params.blockCount]? = some (toU128 header.baseFee)
  length_ratio : h.gasUsedRatio.length = covered newest params.blockCount
  length_blobFee : h.baseFeePerBlobGas.length = covered newest params.blockCount + 1
  length_blobRatio : h.blobGasUsedRatio.length = covered newest params.blockCount
  length_reward : ∀ percentiles, checkPercentiles env params.rewardPercentiles =
    .ok (some percentiles) → ∃ rows, h.reward = some rows ∧
      rows.length = covered newest params.blockCount

/-- **What is asked of the response**: the server does not panic, and a response that is returned
has the right shape. -/
structure Meets (r : Result (MonadFeeHistory F)) : Prop where
  no_panic : ∀ message, r ≠ .error (.panic message)
  shape : ∀ newest h, reads.newest.getBlockHeader params.newestBlock = .ok newest → r = .ok h →
    Shape env reads params newest h

/-! ### When the response is as expected -/

/-- The blocks up to the first one that cannot be read. -/
def readable : List UInt64 → List (Block Tx × List Receipt)
  | [] => []
  | blkNum :: rest =>
    match readBlock reads blkNum with
    | .ok x => x :: readable rest
    | .error _ => []

/-- No threshold needs a receipt that is missing, and the sums of the gas fit in 64 bits. -/
def RewardsAvailable (percentiles : Option (List Percentile)) (x : Block Tx × List Receipt) :
    Prop :=
  ∀ ps, percentiles = some ps → x.1.transactions ≠ [] → ∀ p ∈ ps,
    Available (env.gasAndRewards x.1.transactions x.2 x.1.header.baseFee) x.1.transactions.length
      (env.gasThreshold x.1.header.gasUsed p)

/-- **The base fee that is taken for that of the next block is right**, if there is a next block:
`previous` is the base fee of the newest one. -/
def NextRight (newest : Header) (previous : UInt64) : Prop :=
  match params.newestBlock with
  | .latest | .safe => ∀ header, IsNext reads newest header → header.baseFee = previous
  | .number _ => newest.number.toNat + 1 < UInt64.size ∧
    (reads.latestNumber.getLatestBlockNumber < newest.number + 1 →
      ∀ header, IsNext reads newest header → header.baseFee = previous)
  | .finalized => ∀ latest, reads.next.getBlockHeader .latest = .ok latest →
    ∀ header, IsNext reads newest header → header.baseFee = latest.baseFee

/-- The base fee of the next block, or the one taken for it, can be read. -/
def NextReadable (newest : Header) : Prop :=
  match params.newestBlock with
  | .latest | .safe => True
  | .number _ => reads.latestNumber.getLatestBlockNumber < newest.number + 1 ∨
    ∃ header, reads.next.getBlockHeader (.number ⟨newest.number + 1⟩) = .ok header
  | .finalized => ∃ latest, reads.next.getBlockHeader .latest = .ok latest

/-- The base fee of the last block that was read. -/
def previousBaseFee (blocks : List (Block Tx × List Receipt)) : UInt64 :=
  ((blocks.getLast?).map fun x => x.1.header.baseFee).getD 0

/-- **The condition for the expected response.** -/
structure Good (newest : Header) (percentiles : Option (List Percentile)) : Prop where
  rewards : ∀ x ∈ readable reads
    (rangeInclusive (oldestBlock newest.number params.blockCount) newest.number),
    RewardsAvailable env percentiles x
  /-- If all blocks can be read. -/
  next : (readable reads (rangeInclusive (oldestBlock newest.number params.blockCount)
      newest.number)).length = covered newest params.blockCount →
    NextRight reads params newest (previousBaseFee (readable reads
      (rangeInclusive (oldestBlock newest.number params.blockCount) newest.number))) ∧
    (NextReadable reads params newest → params.blockCount.toNat ≤ newest.number.toNat + 1)

end Expected

/-! ### The percentiles -/

section Percentiles

variable {env : Env Tx Receipt Percentile F} {percentiles : List Percentile}

/-- The thresholds of percentiles in ascending order. -/
theorem pairwise_thresholds (gas : UInt64) (h : isSorted env.le percentiles = true) :
    (percentiles.map (env.gasThreshold gas)).Pairwise (· ≤ ·) := by
  induction percentiles with
  | nil => exact List.Pairwise.nil
  | cons p rest ih =>
    cases rest with
    | nil => exact List.pairwise_singleton _ _
    | cons q rest =>
      rw [isSorted, Bool.and_eq_true] at h
      have hrest := ih h.2
      have hle : env.gasThreshold gas p ≤ env.gasThreshold gas q := env.gasThreshold_mono _ _ _ h.1
      rw [List.map_cons, List.pairwise_cons]
      refine ⟨fun t ht => ?_, hrest⟩
      rw [List.map_cons] at ht hrest
      obtain rfl | ht := List.mem_cons.mp ht
      · exact hle
      · exact UInt64.le_trans hle ((List.pairwise_cons.mp hrest).1 t ht)

/-- Percentiles that are accepted are in ascending order. -/
theorem isSorted_of_checkPercentiles {params : Option (List Percentile)}
    (h : checkPercentiles env params = .ok (some percentiles)) :
    isSorted env.le percentiles = true := by
  unfold checkPercentiles at h
  split at h
  · split at h
    · cases h
    · split at h
      · cases h
      · split at h
        · cases h
        · rename_i hsorted
          split at h
          · cases h
          · obtain rfl := Option.some.inj (Except.ok.inj h)
            simpa using hsorted
  · cases h

theorem checkPercentiles_ne_panic (params : Option (List Percentile)) (message : String) :
    checkPercentiles env params ≠ .error (.panic message) := by
  unfold checkPercentiles internalError
  split
  · split
    · exact fun h => (by cases h)
    · split
      · exact fun h => (by cases h)
      · split
        · exact fun h => (by cases h)
        · split <;> exact fun h => (by cases h)
  · exact fun h => (by cases h)

end Percentiles

/-! ### The blocks of the range -/

section Rows

variable {env : Env Tx Receipt Percentile F} {overflowChecks : Bool} {reads : Reads Tx Receipt E}
  {params : Option (List Percentile)} {percentiles : Option (List Percentile)}

theorem rowOf_of_ok {x : Block Tx × List Receipt} {rewards : List (BitVec 128)}
    (h : (calculateFeeHistoryRewards env.toRewardEnv overflowChecks x.1.transactions x.2
      x.1.header.baseFee x.1.header.gasUsed percentiles : Result _) = .ok rewards) :
    rowOf env overflowChecks percentiles x = .ok ⟨toU128 x.1.header.baseFee,
      env.div x.1.header.gasUsed x.1.header.gasLimit, rewards⟩ := by
  rw [rowOf, h]
  rfl

/-- A block whose rewards are available, or not. -/
theorem rowOf_spec (hparams : checkPercentiles env params = .ok percentiles)
    (x : Block Tx × List Receipt) :
    (RewardsAvailable env percentiles x → ∃ row : Row F,
      rowOf env overflowChecks percentiles x = .ok row ∧
        row.baseFee = toU128 x.1.header.baseFee) ∧
    (¬RewardsAvailable env percentiles x → overflowChecks = true → ∃ message,
      rowOf env overflowChecks percentiles x = .error (.panic message)) := by
  cases percentiles with
  | none =>
    refine ⟨fun _ => ⟨_, rfl, rfl⟩, fun hnot => ?_⟩
    exact absurd (fun ps hps => (by cases hps)) hnot
  | some ps =>
    by_cases hempty : x.1.transactions = []
    · refine ⟨fun _ => ?_, fun hnot => absurd (fun ps _ hne => absurd hempty hne) hnot⟩
      have hrewards : (calculateFeeHistoryRewards env.toRewardEnv overflowChecks x.1.transactions
          x.2 x.1.header.baseFee x.1.header.gasUsed (some ps) : Result _) =
          .ok (List.replicate ps.length 0) := by
        rw [calculateFeeHistoryRewards, hempty]
        rfl
      exact ⟨_, rowOf_of_ok hrewards, rfl⟩
    · have hsorted := pairwise_thresholds x.1.header.gasUsed (isSorted_of_checkPercentiles hparams)
      obtain ⟨hall, hnot⟩ := @calculateFeeHistoryRewards_spec _ _ _ Jsonrpc.JsonRpcError
        env.toRewardEnv _ x.2 x.1.header.baseFee x.1.header.gasUsed _ overflowChecks hempty hsorted
      have hiff : RewardsAvailable env (some ps) x ↔
          ∀ t ∈ ps.map (env.gasThreshold x.1.header.gasUsed),
            Available (env.gasAndRewards x.1.transactions x.2 x.1.header.baseFee)
              x.1.transactions.length t := by
        simp only [RewardsAvailable, Option.some.injEq, List.forall_mem_map]
        exact ⟨fun h => h ps rfl hempty, fun h ps' hps' _ => hps' ▸ h⟩
      rw [hiff]
      refine ⟨fun h => ⟨_, rowOf_of_ok (hall h), rfl⟩, fun h hchecks => ?_⟩
      · obtain ⟨message, hpanic⟩ := hnot h hchecks
        refine ⟨message, ?_⟩
        rw [rowOf, hpanic]
        rfl

/-- **Where every transaction has a receipt, nothing is missing.** -/
theorem rewardsAvailable_of_length {x : Block Tx × List Receipt}
    (hlen : x.1.transactions.length ≤ x.2.length)
    (hfits : (gasOf (env.gasAndRewards x.1.transactions x.2 x.1.header.baseFee)).sum <
      UInt64.size) : RewardsAvailable env percentiles x := by
  intro ps _ _ p _
  refine ⟨Nat.lt_of_le_of_lt ?_ hfits, .inr ?_⟩
  · exact (List.take_sublist _ _).sum_le_sum fun _ _ => Nat.zero_le _
  · rw [length_gasAndRewards]
    exact Nat.min_eq_left hlen

theorem readBlock_ne_panic (blkNum : UInt64) (message : String) :
    readBlock reads blkNum ≠ .error (.panic message) := by
  unfold readBlock orInternalError internalError
  split
  · split <;> exact fun h => (by cases h)
  · exact fun h => (by cases h)

theorem orInternalError_eq_ok {α : Type} {message : String} {r : Except E α} {a : α}
    (h : orInternalError message r = .ok a) : r = .ok a := by
  cases r with
  | error e => cases h
  | ok a' => exact congrArg Except.ok (Except.ok.inj h)

theorem getBlock_of_readBlock {blkNum : UInt64} {x : Block Tx × List Receipt}
    (h : readBlock reads blkNum = .ok x) :
    (reads.block blkNum).getBlock (.number ⟨blkNum⟩) = .ok x.1 := by
  obtain ⟨block, hblock, h⟩ := bind_eq_ok.mp h
  obtain ⟨receipts, -, h⟩ := bind_eq_ok.mp h
  obtain rfl := Except.ok.inj h
  exact orInternalError_eq_ok hblock

/-- What the loop does for a block. -/
def step (env : Env Tx Receipt Percentile F) (overflowChecks : Bool) (reads : Reads Tx Receipt E)
    (percentiles : Option (List Percentile)) (blkNum : UInt64) : Result (Row F) := do
  rowOf env overflowChecks percentiles (← readBlock reads blkNum)

/-- Blocks that can all be read. -/
theorem forall₂_readable {l : List UInt64} (h : (readable reads l).length = l.length) :
    List.Forall₂ (fun blkNum x => readBlock reads blkNum = .ok x) l (readable reads l) := by
  induction l with
  | nil => exact List.Forall₂.nil
  | cons blkNum l ih =>
    rw [readable] at h ⊢
    split
    · rename_i x hx
      rw [hx] at h
      exact .cons hx (ih (Nat.succ.inj h))
    · rename_i e he
      rw [he] at h
      cases h

/-- **The loop over the blocks**: it ends with the rows of all blocks, at a block that cannot be
read, or in a panic. -/
theorem mapM_step_spec (hparams : checkPercentiles env params = .ok percentiles)
    (l : List UInt64) :
    ((∀ x ∈ readable reads l, RewardsAvailable env percentiles x) →
      ((readable reads l).length = l.length → ∃ rows : List (Row F),
        l.mapM (step env overflowChecks reads percentiles) = .ok rows ∧
        rows.map (·.baseFee) = (readable reads l).map fun x => toU128 x.1.header.baseFee) ∧
      ((readable reads l).length ≠ l.length → ∃ e,
        l.mapM (step env overflowChecks reads percentiles) = .error (.error e))) ∧
    (¬(∀ x ∈ readable reads l, RewardsAvailable env percentiles x) → overflowChecks = true →
      ∃ message, l.mapM (step env overflowChecks reads percentiles) =
        .error (.panic message)) := by
  induction l with
  | nil =>
    exact ⟨fun _ => ⟨fun _ => ⟨[], rfl, rfl⟩, fun hne => absurd rfl hne⟩,
      fun hnot => absurd (fun x hx => (by cases hx)) hnot⟩
  | cons blkNum l ih =>
    rw [List.mapM_cons, readable]
    cases hread : readBlock reads blkNum with
    | error e =>
      have hstep : step env overflowChecks reads percentiles blkNum = .error e := by
        rw [step, hread]
        rfl
      rw [hstep]
      refine ⟨fun _ => ⟨fun h => (by cases h), fun _ => ?_⟩,
        fun hnot => absurd (fun x hx => (by cases hx)) hnot⟩
      cases e with
      | error e => exact ⟨e, rfl⟩
      | panic message => exact absurd hread (readBlock_ne_panic blkNum message)
    | ok x =>
      have hstep : step env overflowChecks reads percentiles blkNum =
          rowOf env overflowChecks percentiles x := by
        rw [step, hread]
        rfl
      obtain ⟨hrow, hnorow⟩ := @rowOf_spec _ _ _ _ env overflowChecks _ _ hparams x
      simp only [List.forall_mem_cons, List.length_cons, Nat.add_right_cancel_iff, Ne]
      rw [hstep]
      by_cases hav : RewardsAvailable env percentiles x
      · obtain ⟨row, hok, hfee⟩ := hrow hav
        rw [hok, ok_bind]
        refine ⟨fun hall => ⟨fun hlen => ?_, fun hlen => ?_⟩, fun hnot hchecks => ?_⟩
        · obtain ⟨rows, hrows, hfees⟩ := (ih.1 hall.2).1 hlen
          refine ⟨row :: rows, ?_, ?_⟩
          · rw [hrows]
            rfl
          · rw [List.map_cons, List.map_cons, hfee, hfees]
        · obtain ⟨e, he⟩ := (ih.1 hall.2).2 hlen
          refine ⟨e, ?_⟩
          rw [he]
          rfl
        · obtain ⟨message, hpanic⟩ := ih.2 (fun hrest => hnot ⟨hav, hrest⟩) hchecks
          refine ⟨message, ?_⟩
          rw [hpanic]
          rfl
      · refine ⟨fun hall => absurd hall.1 hav, fun _ hchecks => ?_⟩
        obtain ⟨message, hpanic⟩ := hnorow hav hchecks
        refine ⟨message, ?_⟩
        rw [hpanic]
        rfl

end Rows

/-! ### The base fee that is added -/

section Next

variable {overflowChecks : Bool} {reads : Reads Tx Receipt E}
  {params : MonadEthHistoryParams Percentile} {newest : Header} {previous : UInt64}

theorem toU128_injective : Function.Injective toU128 := by
  intro a b h
  have hnat : (toU128 a).toNat = (toU128 b).toNat := congrArg BitVec.toNat h
  have htoNat : ∀ n : UInt64, (toU128 n).toNat = n.toNat := fun n => by
    rw [toU128, BitVec.toNat_setWidth]
    exact Nat.mod_eq_of_lt (n.toNat_lt.trans (by decide))
  rw [htoNat, htoNat] at hnat
  exact UInt64.toNat_inj.mp hnat

/-- The base fee that was pushed last. -/
theorem ofBitVec_toU128 (n : UInt64) : UInt64.ofBitVec ((toU128 n).setWidth 64) = n := by
  rw [toU128, BitVec.setWidth_setWidth_of_le _ (by decide)]
  simp

/-- **The base fee that is added** is right, or wrong, or there is a panic. -/
theorem getNextBlockBaseFee_spec
    (hnewest : reads.newest.getBlockHeader params.newestBlock = .ok newest) :
    (NextRight reads params newest previous →
      (NextReadable reads params newest → ∃ fee,
        getNextBlockBaseFee overflowChecks reads params.newestBlock previous = .ok fee ∧
        ∀ header, IsNext reads newest header → header.baseFee = fee) ∧
      (¬NextReadable reads params newest → ∃ e,
        getNextBlockBaseFee overflowChecks reads params.newestBlock previous =
          .error (.error e))) ∧
    (¬NextRight reads params newest previous → overflowChecks = true →
      (∃ message, getNextBlockBaseFee overflowChecks reads params.newestBlock previous =
        .error (.panic message)) ∨
      ∃ fee header, getNextBlockBaseFee overflowChecks reads params.newestBlock previous =
        .ok fee ∧ IsNext reads newest header ∧ header.baseFee ≠ fee) := by
  unfold NextRight NextReadable getNextBlockBaseFee
  cases htag : params.newestBlock with
  | latest | safe =>
    refine ⟨fun hright => ⟨fun _ => ⟨previous, rfl, hright⟩, fun hnot => absurd trivial hnot⟩,
      fun hnot _ => .inr ?_⟩
    obtain ⟨header, hheader⟩ := not_forall.mp hnot
    obtain ⟨hnext, hne⟩ := Classical.not_imp.mp hheader
    exact ⟨previous, header, rfl, hnext, hne⟩
  | finalized =>
    simp only
    cases hlatest : reads.next.getBlockHeader .latest with
    | error e =>
      refine ⟨fun _ => ⟨fun ⟨latest, h⟩ => (by cases h), fun _ => ⟨_, rfl⟩⟩, fun hnot => ?_⟩
      exact absurd (fun latest h => (by cases h)) hnot
    | ok latest =>
      refine ⟨fun hright => ⟨fun _ => ⟨latest.baseFee, rfl, hright latest rfl⟩,
        fun hnot => absurd ⟨latest, rfl⟩ hnot⟩, fun hnot _ => .inr ?_⟩
      simp only [Except.ok.injEq, forall_eq', not_forall] at hnot
      obtain ⟨header, hnext, hne⟩ := hnot
      exact ⟨latest.baseFee, header, rfl, hnext, hne⟩
  | number num =>
    have hnum : newest.number = num.value :=
      reads.newest.number_eq num newest (htag ▸ hnewest)
    simp only [← hnum]
    have hone : (1 : UInt64).toNat = 1 := rfl
    by_cases hfits : newest.number.toNat + 1 < UInt64.size
    · rw [addU64_of_lt (show newest.number.toNat + (1 : UInt64).toNat < UInt64.size from hfits),
        ok_bind]
      simp only [hfits, true_and]
      by_cases hlatest : reads.latestNumber.getLatestBlockNumber < newest.number + 1
      · simp only [hlatest, if_true, forall_true_left, true_or, not_true_eq_false,
          IsEmpty.forall_iff, and_true]
        refine ⟨fun hright => ⟨previous, rfl, hright⟩, fun hnot _ => .inr ?_⟩
        obtain ⟨header, hheader⟩ := not_forall.mp hnot
        obtain ⟨hnext, hne⟩ := Classical.not_imp.mp hheader
        exact ⟨previous, header, rfl, hnext, hne⟩
      · simp only [hlatest, if_false, IsEmpty.forall_iff, forall_true_left, false_or,
          not_true_eq_false, and_true]
        cases hheader : reads.next.getBlockHeader (.number ⟨newest.number + 1⟩) with
        | error e => exact ⟨fun ⟨header, h⟩ => (by cases h), fun _ => ⟨_, rfl⟩⟩
        | ok header =>
          refine ⟨fun _ => ⟨header.baseFee, rfl, fun header' hnext => ?_⟩,
            fun hnot => absurd ⟨header, rfl⟩ hnot⟩
          rw [Except.ok.inj (hnext.2.symm.trans hheader)]
    · simp only [hfits, false_and, IsEmpty.forall_iff, not_false_eq_true, forall_true_left,
        true_and]
      intro hchecks
      obtain ⟨message, hpanic⟩ := exists_addU64_eq_panic (ε := Jsonrpc.JsonRpcError)
        (a := newest.number) (b := 1) hchecks (Nat.not_lt.mp hfits)
      refine .inl ⟨message, ?_⟩
      rw [hpanic]
      rfl

end Next

/-! ### The whole response -/

section Whole

variable {env : Env Tx Receipt Percentile F} {overflowChecks : Bool} {reads : Reads Tx Receipt E}
  {params : MonadEthHistoryParams Percentile} {newest : Header}
  {percentiles : Option (List Percentile)}

theorem toNat_oldestBlock (newest blockCount : UInt64) :
    (oldestBlock newest blockCount).toNat = newest.toNat - (blockCount.toNat - 1) :=
  UInt64.toNat_ofNat_of_lt' (Nat.lt_of_le_of_lt (Nat.sub_le _ _) newest.toNat_lt)

theorem length_range (hpos : 0 < params.blockCount.toNat) :
    (rangeInclusive (oldestBlock newest.number params.blockCount) newest.number).length =
      covered newest params.blockCount := by
  rw [length_rangeInclusive, toNat_oldestBlock, covered]
  omega

/-- The base fee that is handed on. -/
theorem lastBaseFee_eq {rows : List (Row F)} {blocks : List (Block Tx × List Receipt)}
    (h : rows.map (·.baseFee) = blocks.map fun x => toU128 x.1.header.baseFee) :
    (((rows.map (·.baseFee)).getLast?).map fun fee => UInt64.ofBitVec (fee.setWidth 64)).getD 0 =
      previousBaseFee blocks := by
  rw [h, List.getLast?_map, Option.map_map, previousBaseFee]
  refine congrArg (Option.getD · 0) (congrArg (Option.map · blocks.getLast?) (funext fun x => ?_))
  exact ofBitVec_toU128 _

/-- The response to a request with a number of blocks that is accepted. -/
theorem monadEthFeeHistory_eq (hpos : 0 < params.blockCount.toNat)
    (hle : params.blockCount.toNat ≤ 1024)
    (hnewest : reads.newest.getBlockHeader params.newestBlock = .ok newest)
    (hparams : checkPercentiles env params.rewardPercentiles = .ok percentiles) :
    monadEthFeeHistory env overflowChecks reads params =
      (do
        let rows ← (rangeInclusive (oldestBlock newest.number params.blockCount)
          newest.number).mapM (step env overflowChecks reads percentiles)
        let fee ← getNextBlockBaseFee overflowChecks reads params.newestBlock
          ((((rows.map (·.baseFee)).getLast?).map fun fee =>
            UInt64.ofBitVec (fee.setWidth 64)).getD 0)
        return response env params.blockCount (oldestBlock newest.number params.blockCount)
          percentiles rows fee) := by
  have hzero : params.blockCount ≠ 0 := fun h => by
    rw [h] at hpos
    exact absurd hpos (by decide)
  have hmany : ¬1024 < params.blockCount := by
    rw [UInt64.lt_iff_toNat_lt]
    exact Nat.not_lt.mpr hle
  rw [monadEthFeeHistory, if_neg hzero, if_neg hmany, hnewest, hparams]
  rfl

/-- **A response to what can be read has the right shape** if there are enough blocks. -/
theorem shape_response {rows : List (Row F)} {fee : UInt64}
    (hpos : 0 < params.blockCount.toNat)
    (hcount : params.blockCount.toNat ≤ newest.number.toNat + 1)
    (hparams : checkPercentiles env params.rewardPercentiles = .ok percentiles)
    (hlen : (readable reads (rangeInclusive (oldestBlock newest.number params.blockCount)
      newest.number)).length =
      (rangeInclusive (oldestBlock newest.number params.blockCount) newest.number).length)
    (hrows : rows.map (·.baseFee) = (readable reads (rangeInclusive
      (oldestBlock newest.number params.blockCount) newest.number)).map
        fun x => toU128 x.1.header.baseFee)
    (hfee : ∀ header, IsNext reads newest header → header.baseFee = fee) :
    Shape env reads params newest (response env params.blockCount
      (oldestBlock newest.number params.blockCount) percentiles rows fee) := by
  have hcovered : covered newest params.blockCount = params.blockCount.toNat :=
    Nat.min_eq_left hcount
  have hlength : rows.length = covered newest params.blockCount := by
    rw [← length_range hpos, ← hlen, ← List.length_map (f := (·.baseFee)), hrows, List.length_map]
  have hfees : (rows.map (·.baseFee)).length = covered newest params.blockCount := by
    rw [List.length_map, hlength]
  constructor
  · change (oldestBlock newest.number params.blockCount).toNat + _ = _
    rw [toNat_oldestBlock, hcovered]
    omega
  · change (_ ++ [_]).length = _
    rw [List.length_append, hfees]
    rfl
  · intro i hi
    have hread := forall₂_readable hlen
    rw [List.forall₂_iff_get] at hread
    have hrange : i < (rangeInclusive (oldestBlock newest.number params.blockCount)
        newest.number).length := by rwa [length_range hpos]
    have hreadable := hrange
    rw [← hlen] at hreadable
    have hblock := getBlock_of_readBlock (hread.2 i hrange hreadable)
    rw [List.get_eq_getElem, List.get_eq_getElem] at hblock
    refine ⟨_, _, toNat_getElem_rangeInclusive hrange, hblock, ?_⟩
    change (_ ++ [_])[i]? = _
    rw [List.getElem?_append_left (by rwa [hfees]), hrows, List.getElem?_map,
      List.getElem?_eq_getElem hreadable, Option.map_some]
  · intro header hnext
    change (_ ++ [_])[_]? = _
    rw [List.getElem?_append_right hfees.le, hfees, Nat.sub_self, hfee header hnext]
    rfl
  · change (rows.map _).length = _
    rw [List.length_map, hlength]
  · change (List.replicate _ _).length = _
    rw [List.length_replicate, hcovered]
  · change (List.replicate _ _).length = _
    rw [List.length_replicate, hcovered]
  · intro ps hps
    obtain rfl := Except.ok.inj (hparams.symm.trans hps)
    exact ⟨rows.map (·.rewards), rfl, by rw [List.length_map, hlength]⟩

/-- The condition, for a request whose first read succeeds. -/
theorem meets_of_good (hpos : 0 < params.blockCount.toNat) (hle : params.blockCount.toNat ≤ 1024)
    (hnewest : reads.newest.getBlockHeader params.newestBlock = .ok newest)
    (hparams : checkPercentiles env params.rewardPercentiles = .ok percentiles)
    (hgood : Good env reads params newest percentiles) :
    Meets env reads params (monadEthFeeHistory env overflowChecks reads params) := by
  rw [monadEthFeeHistory_eq hpos hle hnewest hparams]
  obtain ⟨hall, hpartial⟩ := (@mapM_step_spec _ _ _ _ _ env overflowChecks reads _ _ hparams
    (rangeInclusive (oldestBlock newest.number params.blockCount) newest.number)).1 hgood.rewards
  by_cases hlen : (readable reads (rangeInclusive (oldestBlock newest.number params.blockCount)
      newest.number)).length =
      (rangeInclusive (oldestBlock newest.number params.blockCount) newest.number).length
  · obtain ⟨rows, hrows, hfees⟩ := hall hlen
    obtain ⟨hright, hcount⟩ := hgood.next (hlen.trans (length_range hpos))
    obtain ⟨hread, hunread⟩ := (@getNextBlockBaseFee_spec _ _ _ _ overflowChecks _ _ _ _
      hnewest).1 hright
    rw [hrows, ok_bind, lastBaseFee_eq hfees]
    by_cases hnext : NextReadable reads params newest
    · obtain ⟨fee, hfee, hisNext⟩ := hread hnext
      rw [hfee, ok_bind]
      refine ⟨fun _ h => (by cases h), fun newest' h hnewest' hh => ?_⟩
      obtain rfl := Except.ok.inj (hnewest.symm.trans hnewest')
      obtain rfl := Except.ok.inj hh
      exact shape_response hpos (hcount hnext) hparams hlen hfees hisNext
    · obtain ⟨e, he⟩ := hunread hnext
      rw [he]
      exact ⟨fun _ h => (by cases h), fun _ _ _ h => (by cases h)⟩
  · obtain ⟨e, he⟩ := hpartial hlen
    rw [he]
    exact ⟨fun _ h => (by cases h), fun _ _ _ h => (by cases h)⟩

/-- The condition is needed. -/
theorem good_of_meets (hpos : 0 < params.blockCount.toNat) (hle : params.blockCount.toNat ≤ 1024)
    (hnewest : reads.newest.getBlockHeader params.newestBlock = .ok newest)
    (hparams : checkPercentiles env params.rewardPercentiles = .ok percentiles)
    (h : Meets env reads params (monadEthFeeHistory env true reads params)) :
    Good env reads params newest percentiles := by
  rw [monadEthFeeHistory_eq hpos hle hnewest hparams] at h
  obtain ⟨hloop, hpanics⟩ := @mapM_step_spec _ _ _ _ _ env true reads _ _ hparams
    (rangeInclusive (oldestBlock newest.number params.blockCount) newest.number)
  have hrewards : ∀ x ∈ readable reads (rangeInclusive
      (oldestBlock newest.number params.blockCount) newest.number),
      RewardsAvailable env percentiles x := by
    by_contra hnot
    obtain ⟨message, hpanic⟩ := hpanics hnot rfl
    rw [hpanic] at h
    exact h.no_panic message rfl
  refine ⟨hrewards, fun hlen => ?_⟩
  obtain ⟨rows, hrows, hfees⟩ := (hloop hrewards).1 (hlen.trans (length_range hpos).symm)
  obtain ⟨hgood, hbad⟩ := @getNextBlockBaseFee_spec _ _ _ _ true reads params newest
    (previousBaseFee (readable reads (rangeInclusive
      (oldestBlock newest.number params.blockCount) newest.number))) hnewest
  rw [hrows, ok_bind, lastBaseFee_eq hfees] at h
  have hlength : rows.length = covered newest params.blockCount := by
    rw [← hlen, ← List.length_map (f := (·.baseFee)), hfees, List.length_map]
  have hright : NextRight reads params newest (previousBaseFee (readable reads (rangeInclusive
      (oldestBlock newest.number params.blockCount) newest.number))) := by
    by_contra hnot
    obtain ⟨message, hpanic⟩ | ⟨fee, header, hfee, hnext, hne⟩ := hbad hnot rfl
    · rw [hpanic] at h
      exact h.no_panic message rfl
    · rw [hfee, ok_bind] at h
      have hshape := (h.shape newest _ hnewest rfl).next header hnext
      change (_ ++ [_])[_]? = _ at hshape
      rw [List.getElem?_append_right (by rw [List.length_map, hlength]), List.length_map, hlength,
        Nat.sub_self] at hshape
      exact hne (toU128_injective (Option.some.inj hshape)).symm
  refine ⟨hright, fun hread => ?_⟩
  obtain ⟨fee, hfee, -⟩ := (hgood hright).1 hread
  rw [hfee, ok_bind] at h
  have hblobs := (h.shape newest _ hnewest rfl).length_blobFee
  change (List.replicate _ _).length = _ at hblobs
  rw [List.length_replicate, covered] at hblobs
  omega

/-- **The response is as expected if and only if the condition holds**, for every request for 1 to
1024 blocks, whatever the reads of the store return. -/
theorem meets_iff (env : Env Tx Receipt Percentile F) (reads : Reads Tx Receipt E)
    (params : MonadEthHistoryParams Percentile)
    (hcount : 1 ≤ params.blockCount ∧ params.blockCount ≤ 1024) :
    (∀ overflowChecks, Meets env reads params
      (monadEthFeeHistory env overflowChecks reads params)) ↔
      ∀ newest percentiles, reads.newest.getBlockHeader params.newestBlock = .ok newest →
        checkPercentiles env params.rewardPercentiles = .ok percentiles →
        Good env reads params newest percentiles := by
  have hpos : 0 < params.blockCount.toNat := UInt64.le_iff_toNat_le.mp hcount.1
  have hle : params.blockCount.toNat ≤ 1024 := UInt64.le_iff_toNat_le.mp hcount.2
  constructor
  · intro h newest percentiles hnewest hparams
    exact good_of_meets hpos hle hnewest hparams (h true)
  · intro h overflowChecks
    have hzero : params.blockCount ≠ 0 := fun h => by
      rw [h] at hpos
      exact absurd hpos (by decide)
    have hmany : ¬1024 < params.blockCount := UInt64.not_lt.mpr hcount.2
    cases hnewest : reads.newest.getBlockHeader params.newestBlock with
    | error e =>
      rw [monadEthFeeHistory, if_neg hzero, if_neg hmany, hnewest]
      exact ⟨fun _ h => (by cases h), fun _ _ _ h => (by cases h)⟩
    | ok newest =>
      cases hparams : checkPercentiles env params.rewardPercentiles with
      | error e =>
        rw [monadEthFeeHistory, if_neg hzero, if_neg hmany, hnewest, hparams]
        refine ⟨fun message h => ?_, fun _ _ _ h => (by cases h)⟩
        have hpanic : e = .panic message := Except.error.inj h
        exact checkPercentiles_ne_panic _ message (hpanic ▸ hparams)
      | ok percentiles => exact meets_of_good hpos hle hnewest hparams (h _ _ hnewest hparams)

end Whole

/-! ### Short chains -/

def sampleHistoryEnv : Env ℕ UInt64 UInt64 (UInt64 × UInt64) where
  toRewardEnv := sampleEnv
  inRange := fun p => p ≤ 100
  le := fun p q => p ≤ q
  div := Prod.mk
  zero := (0, 1)
  gasThreshold_mono := fun _ _ _ h => of_decide_eq_true h

/-- The number that a tag stands for in a chain. -/
def sampleNumber (chain : List (UInt64 × List ℕ)) : BlockTags → UInt64
  | .number n => n.value
  | _ => UInt64.ofNat (chain.length - 1)

/-- A block of a chain of base fees and tips. -/
def sampleBlock (chain : List (UInt64 × List ℕ)) (tag : BlockTags) : Except Unit (Block ℕ) :=
  match chain[(sampleNumber chain tag).toNat]? with
  | some (fee, tips) => .ok ⟨⟨sampleNumber chain tag, some fee, 0, 30000000⟩, tips⟩
  | none => .error ()

/-- What is stored of a chain, with some receipts. -/
def sampleView (chain : List (UInt64 × List ℕ)) (receipts : List UInt64) :
    View ℕ UInt64 Unit where
  getLatestBlockNumber := UInt64.ofNat (chain.length - 1)
  getBlockHeader := fun tag => (sampleBlock chain tag).map Block.header
  getBlock := sampleBlock chain
  getBlockReceipts := fun _ => .ok receipts
  number_eq := by
    intro n header h
    obtain ⟨block, hblock, rfl⟩ := map_eq_ok.mp h
    unfold sampleBlock at hblock
    split at hblock
    · rw [← Except.ok.inj hblock]
      rfl
    · cases hblock

/-- A store that does not change. -/
def Reads.constant (view : View Tx Receipt E) : Reads Tx Receipt E :=
  ⟨view, fun _ => view, fun _ => view, view, view⟩

/-- The first of two blocks, with two transactions. -/
theorem meets_firstBlock :
    Meets sampleHistoryEnv (.constant (sampleView [(7, [1, 2]), (8, [])] [21000, 21000]))
      ⟨1, .number ⟨0⟩, some [0, 50]⟩ (monadEthFeeHistory sampleHistoryEnv true
        (.constant (sampleView [(7, [1, 2]), (8, [])] [21000, 21000]))
        ⟨1, .number ⟨0⟩, some [0, 50]⟩) := by
  refine (meets_iff _ _ _ (by decide)).mpr (fun newest percentiles hnewest hparams => ?_) _
  obtain rfl := Except.ok.inj hnewest
  have hpercentiles : checkPercentiles sampleHistoryEnv (some [0, 50]) = .ok (some [0, 50]) := rfl
  obtain rfl := Except.ok.inj (hpercentiles.symm.trans hparams)
  refine ⟨fun x hx => ?_, fun _ => ⟨⟨by decide, fun h => ?_⟩, fun _ => ?_⟩⟩
  · obtain rfl := List.mem_singleton.mp hx
    exact rewardsAvailable_of_length (by decide) (by decide)
  · exact absurd h (by decide)
  · decide

/-- **More blocks are asked for than there are**: two of a chain with one. -/
theorem not_meets_shortChain :
    ¬∀ overflowChecks, Meets sampleHistoryEnv (.constant (sampleView [(7, [])] []))
      ⟨2, .latest, none⟩ (monadEthFeeHistory sampleHistoryEnv overflowChecks
        (.constant (sampleView [(7, [])] [])) ⟨2, .latest, none⟩) := by
  intro h
  have hgood := good_of_meets (by decide) (by decide) rfl rfl (h true)
  exact absurd ((hgood.next rfl).2 trivial) (by decide)

end FeeHistory

end Rpc

end MonadServices
