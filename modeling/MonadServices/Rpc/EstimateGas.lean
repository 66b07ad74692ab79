import MonadServices.Lib.Loop
import MonadServices.Rpc.CallRequest

/-!
# The search for a gas limit

`eth_estimateGas` runs a transaction with its own gas limit first, and then once more with what this
run used and some more, if this is less. The two runs give a limit that is enough and a lower bound,
which is not a limit that was tried if the second run succeeded too. Between the two there is a
binary search, until they differ by one or by less than 1.5 percent.

The bounds stay in order, and the upper one is always a limit with which the transaction was run and
succeeded. **The lower bound is below every threshold** of an executor that never uses more than its
threshold: it is one less than some gas that was used, or it is the limit of a run that failed
(`MonadServices.Rpc.EstimateGas.Good`). What is added to the gas of the first run is multiplied by
64 before it is divided: it has to be below 2⁵⁸.
-/

namespace MonadServices

namespace Rpc

open Jsonrpc

/-! ### Results of calls -/

/-- `monad_ethcall::EthCallResult`, as far as it is told apart here. -/
inductive EthCallResult where
  | executionError
  | outOfGas
  | reserveBalanceViolation
  | otherError
  deriving DecidableEq

structure SuccessCallResult where
  gasUsed : UInt64
  gasRefund : UInt64
  outputData : Bytes
  deriving DecidableEq

structure FailureCallResult where
  errorCode : EthCallResult
  gasUsed : UInt64
  gasRefund : UInt64
  message : String
  data : Option String
  deriving DecidableEq

inductive CallResult where
  | success (result : SuccessCallResult)
  | failure (error : FailureCallResult)
  | revert (trace : Bytes)
  deriving DecidableEq

/-- `From<FailureCallResult> for JsonRpcError`. -/
def FailureCallResult.toJsonRpcError (error : FailureCallResult) : Jsonrpc.JsonRpcError :=
  match error.errorCode with
  | .executionError => .ethCallExecutionRevert error.message error.data
  | .outOfGas => .withMessageAndData .internalError error.message error.data
  | _ => .ethCallError error.message error.data

namespace EstimateGas

/-! ### The search -/

/-- A transaction that was run, and its result. -/
structure Run where
  tx : TxEnvelope
  result : CallResult
  deriving DecidableEq

/-- What runs transactions. A result may depend on the runs before. -/
abbrev Executor := List Run → TxEnvelope → CallResult

/-- What makes a transaction from a request: it has the gas limit that is asked for. -/
structure TxBuilder where
  build : CallRequest → Result TxEnvelope
  noPanic : ∀ request, NoPanic (build request)
  gasLimit_eq : ∀ request tx gas, build request = .ok tx → request.gas = some gas →
    gas = toU256 tx.gasLimit

/-- The transaction of a request without a choice of its type. -/
def TxBuilder.ofRequest (maxCodeSize : ℕ) : TxBuilder where
  build := CallRequest.toTxEnvelope maxCodeSize
  noPanic := noPanic_toTxEnvelope maxCodeSize
  gasLimit_eq := fun _ _ _ => gasLimit_of_toTxEnvelope maxCodeSize

/-- `CALL_STIPEND`. -/
def callStipend : UInt64 := 2300

/-- The bounds between which the limit is searched, and the runs until now. -/
structure Search where
  lower : UInt64
  upper : UInt64
  runs : List Run

section Search

variable (exec : Executor) (builder : TxBuilder) (overflowChecks : Bool) (request : CallRequest)

/-- The transaction with a gas limit. -/
def buildWith (gas : UInt64) : Result TxEnvelope :=
  builder.build { request with gas := some (toU256 gas) }

/-- An error for a result that there is only for traces. -/
def unexpected {α : Type} : Result α := fail (.internalError "Unexpected CallResult type")

/-- The bounds after the first run, which has used some gas of its limit. -/
def boundsAfter (upper : UInt64) (runs : List Run) (first : SuccessCallResult) :
    Result Search := do
  let used ← addU64 overflowChecks first.gasUsed first.gasRefund
  let withStipend ← addU64 overflowChecks used callStipend
  let product ← mulU64 overflowChecks withStipend 64
  let tx ← buildWith builder request (product / 63)
  if tx.gasLimit < upper then
    let result := exec runs tx
    match result with
    | .success second => do
      let lower ← subU64 overflowChecks second.gasUsed 1
      return ⟨lower, tx.gasLimit, runs ++ [⟨tx, result⟩]⟩
    | .failure _ => return ⟨tx.gasLimit, upper, runs ++ [⟨tx, result⟩]⟩
    | .revert _ => unexpected
  else do
    let lower ← subU64 overflowChecks first.gasUsed 1
    return ⟨lower, upper, runs⟩

/-- Why there is no estimate after the first run has failed. -/
def firstError (originalTxGas : BitVec 256) (providerGasLimit protocolGasLimit : UInt64)
    (error : FailureCallResult) : Jsonrpc.JsonRpcError :=
  if error.errorCode = .outOfGas then
    if providerGasLimit < protocolGasLimit ∧ toU256 providerGasLimit < originalTxGas then
      .withMessageAndData .transactionRejected
        "provider-specified eth_estimateGas gas limit exceeded" error.data
    else .withMessageAndData .transactionRejected Msg.outOfGasAllowance error.data
  else error.toJsonRpcError

/-- The first bounds. -/
def bounds (originalTxGas : BitVec 256) (providerGasLimit protocolGasLimit : UInt64) :
    Result Search := do
  let tx ← builder.build request
  let result := exec [] tx
  match result with
  | .success first =>
    boundsAfter exec builder overflowChecks request tx.gasLimit [⟨tx, result⟩] first
  | .failure error => fail (firstError originalTxGas providerGasLimit protocolGasLimit error)
  | .revert _ => unexpected

/-- The test that ends the search early, on exact numbers: 0.015 is 3 of 200. -/
def closeEnough (width upper : UInt64) : Bool := width.toNat * 200 < 3 * upper.toNat

/-- A round of the binary search. -/
def halve (s : Search) : Result (Search ⊕ Search) := do
  let width ← subU64 overflowChecks s.upper s.lower
  if width ≤ 1 then return .inr s
  else if closeEnough width s.upper then return .inr s
  else do
    let sum ← addU64 overflowChecks s.upper s.lower
    let tx ← buildWith builder request (sum / 2)
    let result := exec s.runs tx
    match result with
    | .success _ => return .inl ⟨s.lower, sum / 2, s.runs ++ [⟨tx, result⟩]⟩
    | .failure _ => return .inl ⟨sum / 2, s.upper, s.runs ++ [⟨tx, result⟩]⟩
    | .revert _ => unexpected

/-- `estimate_gas_with_builder`, and the bounds and runs in the end. -/
def estimateGasWithBuilder (originalTxGas : BitVec 256)
    (providerGasLimit protocolGasLimit : UInt64) (fuel : ℕ) :
    Option (Result (Quantity × Search)) :=
  match bounds exec builder overflowChecks request originalTxGas providerGasLimit
    protocolGasLimit with
  | .error e => some (.error e)
  | .ok s => (Loop.run (halve exec builder overflowChecks request) fuel s).map
    fun r => r.map fun s => (⟨s.upper⟩, s)

end Search

/-! ### What is known of an executor -/

section Executor

variable (exec : Executor) (builder : TxBuilder) (request : CallRequest)

/-- The transactions of the request with any gas limit. -/
def Built (tx : TxEnvelope) : Prop :=
  ∃ gas, builder.build { request with gas := gas } = .ok tx

/-- The executor succeeds and reports gas. -/
def Succeeds (runs : List Run) (tx : TxEnvelope) (r : SuccessCallResult) : Prop :=
  Built builder request tx ∧ exec runs tx = .success r

/-- **Successful runs use gas, up to their limit.** -/
structure Reports : Prop where
  one_le : ∀ runs tx r, Succeeds exec builder request runs tx r → 1 ≤ r.gasUsed
  le_limit : ∀ runs tx r, Succeeds exec builder request runs tx r → r.gasUsed ≤ tx.gasLimit

/-- The limit of the first run is below a bound. -/
def InitialBelow (bound : ℕ) : Prop :=
  ∀ tx, builder.build request = .ok tx → tx.gasLimit.toNat < bound

/-- **Success is monotone with a threshold**, and no more than this is used. -/
structure Threshold (m : ℕ) : Prop where
  success_iff : ∀ runs tx, Built builder request tx →
    ((∃ r, exec runs tx = .success r) ↔ m ≤ tx.gasLimit.toNat)
  used_le : ∀ runs tx r, Succeeds exec builder request runs tx r → r.gasUsed.toNat ≤ m

/-- Runs that the executor has made one after the other. -/
inductive Recorded : List Run → Prop where
  | nil : Recorded []
  | snoc {runs : List Run} {tx : TxEnvelope} (h : Recorded runs)
    (hbuilt : Built builder request tx) : Recorded (runs ++ [⟨tx, exec runs tx⟩])

/-- Some run with a gas limit has succeeded. -/
def HasSucceeded (runs : List Run) (gas : UInt64) : Prop :=
  ∃ run ∈ runs, run.tx.gasLimit = gas ∧ ∃ r, run.result = .success r

/-- **An estimate**: the gas limit of a run that has succeeded, and near any threshold. -/
structure Estimate (gas : UInt64) (runs : List Run) : Prop where
  recorded : Recorded exec builder request runs
  succeeded : HasSucceeded runs gas
  near : ∀ m, Threshold exec builder request m → m ≤ gas.toNat ∧
    (gas.toNat = m ∨ (gas.toNat - m) * 200 < 3 * gas.toNat)

/-- **What is asked of the search**, with and without checks for overflows: it ends after at most 58
rounds without an overflow, what is returned is an estimate, and the bounds stay in order. -/
structure Meets : Prop where
  terminates : ∀ overflowChecks originalTxGas providerGasLimit protocolGasLimit fuel, 58 ≤ fuel →
    ∃ r, estimateGasWithBuilder exec builder overflowChecks request originalTxGas
      providerGasLimit protocolGasLimit fuel = some r ∧ NoPanic r ∧
      ∀ gas s, r = .ok (gas, s) → Estimate exec builder request gas.value s.runs
  lower_lt : ∀ overflowChecks originalTxGas providerGasLimit protocolGasLimit s s',
    bounds exec builder overflowChecks request originalTxGas providerGasLimit
      protocolGasLimit = .ok s →
    Loop.Reaches (halve exec builder overflowChecks request) s s' → s'.lower < s'.upper

/-- **What holds between the rounds.** -/
structure Good (s : Search) : Prop where
  lt : s.lower < s.upper
  upper_lt : s.upper.toNat < 2 ^ 57
  recorded : Recorded exec builder request s.runs
  succeeded : HasSucceeded s.runs s.upper
  below : ∀ m, Threshold exec builder request m → s.lower.toNat < m

/-- The bounds in the end. -/
structure Final (s : Search) : Prop extends Good exec builder request s where
  near : s.upper.toNat ≤ s.lower.toNat + 1 ∨
    (s.upper.toNat - s.lower.toNat) * 200 < 3 * s.upper.toNat

end Executor

/-- There is no panic, and what is given satisfies a property. -/
def Gives {α : Type} (P : α → Prop) (r : Result α) : Prop := NoPanic r ∧ ∀ a, r = .ok a → P a

namespace Gives

variable {α β : Type} {P : α → Prop} {Q : β → Prop}

theorem ok {a : α} (h : P a) : Gives P (.ok a) :=
  ⟨.ok _, fun _ h' => Except.ok.inj h' ▸ h⟩

theorem fail (e : Jsonrpc.JsonRpcError) : Gives P (Rpc.fail e) :=
  ⟨noPanic_fail e, fun _ h' => by cases h'⟩

theorem bind {x : Result α} {f : α → Result β} (hx : NoPanic x)
    (hf : ∀ a, x = .ok a → Gives Q (f a)) : Gives Q (x >>= f) := by
  refine ⟨hx.bind fun a ha => (hf a ha).1, fun b hb => ?_⟩
  obtain ⟨a, ha, h⟩ := bind_eq_ok.mp hb
  exact (hf a ha).2 b h

end Gives

/-- What was run, and when. -/
theorem Recorded.exists_of_mem {exec : Executor} {builder : TxBuilder} {request : CallRequest}
    {runs : List Run} {run : Run} (h : Recorded exec builder request runs) (hrun : run ∈ runs) :
    ∃ before, run.result = exec before run.tx ∧ Built builder request run.tx := by
  induction h with
  | nil => cases hrun
  | @snoc runs tx _ hbuilt ih =>
    rcases List.mem_append.mp hrun with hrun | hrun
    · exact ih hrun
    · obtain rfl := List.mem_singleton.mp hrun
      exact ⟨runs, rfl, hbuilt⟩

/-! ### A round -/

section Rounds

variable {exec : Executor} {builder : TxBuilder} {overflowChecks : Bool} {request : CallRequest}
  {s : Search} {tx : TxEnvelope} {gas : UInt64} {runs : List Run} {m : ℕ}

theorem gasLimit_of_buildWith (h : buildWith builder request gas = .ok tx) : tx.gasLimit = gas :=
  (toU256_injective (builder.gasLimit_eq _ _ _ h rfl)).symm

theorem noPanic_buildWith (builder : TxBuilder) (request : CallRequest) (gas : UInt64) :
    NoPanic (buildWith builder request gas) :=
  builder.noPanic _

theorem built_of_buildWith (h : buildWith builder request gas = .ok tx) :
    Built builder request tx :=
  ⟨_, h⟩

theorem hasSucceeded_snoc {r : SuccessCallResult} (h : exec runs tx = .success r) :
    HasSucceeded (runs ++ [⟨tx, exec runs tx⟩]) tx.gasLimit :=
  ⟨⟨tx, exec runs tx⟩, by simp, rfl, r, h⟩

theorem HasSucceeded.append (h : HasSucceeded runs gas) (rest : List Run) :
    HasSucceeded (runs ++ rest) gas := by
  obtain ⟨run, hrun, hlimit⟩ := h
  exact ⟨run, List.mem_append_left _ hrun, hlimit⟩

/-- **A failed run is below every threshold.** -/
theorem lt_of_failure {error : FailureCallResult} (hbuilt : Built builder request tx)
    (h : exec runs tx = .failure error) (hm : Threshold exec builder request m) :
    tx.gasLimit.toNat < m := by
  by_contra hle
  obtain ⟨r, hr⟩ := (hm.success_iff runs tx hbuilt).mpr (Nat.le_of_not_lt hle)
  rw [h] at hr
  cases hr

/-- **So is one less than what a run has used.** -/
theorem lt_of_used {r : SuccessCallResult} (hone : 1 ≤ r.gasUsed)
    (h : Succeeds exec builder request runs tx r) (hm : Threshold exec builder request m) :
    (r.gasUsed - 1).toNat < m := by
  have hused := hm.used_le runs tx r h
  have hpos : 1 ≤ r.gasUsed.toNat := UInt64.le_iff_toNat_le.mp hone
  rw [toNat_sub_of_le hone]
  change r.gasUsed.toNat - 1 < m
  omega

/-- How far the bounds are apart, in rounds. -/
def roundsLeft (s : Search) : ℕ := Nat.clog 2 (s.upper.toNat - s.lower.toNat)

/-- The middle of the bounds. -/
theorem middle (h : Good exec builder request s) :
    (addU64 overflowChecks s.upper s.lower : Result UInt64) = .ok (s.upper + s.lower) ∧
      ((s.upper + s.lower) / 2).toNat = (s.upper.toNat + s.lower.toNat) / 2 := by
  have hlt : s.lower.toNat < s.upper.toNat := UInt64.lt_iff_toNat_lt.mp h.lt
  have hsum : s.upper.toNat + s.lower.toNat < UInt64.size := by
    have := h.upper_lt
    have hsize : UInt64.size = 2 ^ 64 := rfl
    omega
  refine ⟨addU64_of_lt hsum, ?_⟩
  rw [UInt64.toNat_div, toNat_add_of_lt hsum]
  rfl

/-- **A round keeps what holds between the rounds**, and halves the distance. -/
theorem round_halve (h : Good exec builder request s) :
    Loop.Round (Good exec builder request) (Gives (Final exec builder request)) roundsLeft s
      (halve exec builder overflowChecks request s) := by
  have hle : s.lower ≤ s.upper := UInt64.le_of_lt h.lt
  have hwidth : (s.upper - s.lower).toNat = s.upper.toNat - s.lower.toNat := toNat_sub_of_le hle
  unfold halve
  rw [subU64_of_le hle, ok_bind]
  split
  · rename_i hone
    refine Gives.ok ⟨h, .inl ?_⟩
    have := UInt64.le_iff_toNat_le.mp hone
    rw [hwidth] at this
    change _ ≤ 1 at this
    omega
  · rename_i hone
    have hone : 1 < s.upper.toNat - s.lower.toNat := by
      rw [← hwidth]
      exact UInt64.lt_iff_toNat_lt.mp (UInt64.not_le.mp hone)
    split
    · rename_i hclose
      refine Gives.ok ⟨h, .inr ?_⟩
      rw [closeEnough, decide_eq_true_iff, hwidth] at hclose
      exact hclose
    · obtain ⟨hadd, hmid⟩ := @middle _ _ overflowChecks _ _ h
      rw [hadd, ok_bind]
      cases hbuild : buildWith builder request ((s.upper + s.lower) / 2) with
      | error e =>
        have hno := noPanic_buildWith builder request ((s.upper + s.lower) / 2)
        rw [hbuild] at hno
        exact ⟨hno.of_error, fun s' h' => by cases h'⟩
      | ok tx =>
        have hlimit := gasLimit_of_buildWith hbuild
        have hbuilt := built_of_buildWith hbuild
        have hrecorded := h.recorded.snoc hbuilt
        have hlt : s.lower.toNat < s.upper.toNat := UInt64.lt_iff_toNat_lt.mp h.lt
        have hsmall := h.upper_lt
        rw [ok_bind]
        cases hexec : exec s.runs tx with
        | success r =>
          rw [hexec] at hrecorded
          refine ⟨⟨?_, ?_, hrecorded, ?_, h.below⟩, ?_⟩
          · rw [UInt64.lt_iff_toNat_lt, hmid]
            change s.lower.toNat < _
            omega
          · rw [hmid]
            omega
          · rw [← hlimit, ← hexec]
            exact hasSucceeded_snoc hexec
          · refine Loop.clog_lt_clog_of_le_half hone ?_
            change 2 * (((s.upper + s.lower) / 2).toNat - s.lower.toNat) ≤ _
            rw [hmid]
            omega
        | failure error =>
          rw [hexec] at hrecorded
          refine ⟨⟨?_, h.upper_lt, hrecorded, h.succeeded.append _, fun m hm => ?_⟩, ?_⟩
          · rw [UInt64.lt_iff_toNat_lt, hmid]
            change _ < s.upper.toNat
            omega
          · change ((s.upper + s.lower) / 2).toNat < m
            rw [← hlimit]
            exact lt_of_failure hbuilt hexec hm
          · refine Loop.clog_lt_clog_of_le_half hone ?_
            change 2 * (s.upper.toNat - ((s.upper + s.lower) / 2).toNat) ≤ _
            rw [hmid]
            omega
        | revert trace => exact ⟨noPanic_fail _, fun s' h' => by cases h'⟩

end Rounds

/-! ### The first bounds -/

section Bounds

variable {exec : Executor} {builder : TxBuilder} {overflowChecks : Bool} {request : CallRequest}

/-- What is added to the gas of the first run. -/
theorem padded (used refund : UInt64) (h : used.toNat + refund.toNat + 2300 < 2 ^ 58) :
    (addU64 overflowChecks used refund : Result UInt64) = .ok (used + refund) ∧
    (addU64 overflowChecks (used + refund) callStipend : Result UInt64) =
      .ok (used + refund + callStipend) ∧
    (mulU64 overflowChecks (used + refund + callStipend) 64 : Result UInt64) =
      .ok ((used + refund + callStipend) * 64) := by
  have hsize : UInt64.size = 2 ^ 64 := rfl
  have hstipend : callStipend.toNat = 2300 := rfl
  have hfirst : used.toNat + refund.toNat < UInt64.size := by omega
  have hsum := toNat_add_of_lt hfirst
  have hsecond : (used + refund).toNat + callStipend.toNat < UInt64.size := by omega
  have hpadded := toNat_add_of_lt hsecond
  refine ⟨addU64_of_lt hfirst, addU64_of_lt hsecond, mulU64_of_lt ?_⟩
  change (used + refund + callStipend).toNat * 64 < UInt64.size
  omega

/-- One less than what was used is below the limit. -/
theorem sub_one_lt {used limit : UInt64} (hone : 1 ≤ used) (hle : used ≤ limit) :
    used - 1 < limit := by
  have hpos : 1 ≤ used.toNat := UInt64.le_iff_toNat_le.mp hone
  have hlimit : used.toNat ≤ limit.toNat := UInt64.le_iff_toNat_le.mp hle
  rw [UInt64.lt_iff_toNat_lt, toNat_sub_of_le hone]
  change used.toNat - 1 < limit.toNat
  omega

/-- **The bounds after the first run are good.** -/
theorem gives_boundsAfter {tx : TxEnvelope} {first : SuccessCallResult}
    (hreports : Reports exec builder request) (hbuilt : Built builder request tx)
    (hlimit : tx.gasLimit.toNat < 2 ^ 57) (hexec : exec [] tx = .success first)
    (hfits : first.gasUsed.toNat + first.gasRefund.toNat + 2300 < 2 ^ 58) :
    Gives (Good exec builder request) (boundsAfter exec builder overflowChecks request tx.gasLimit
      [⟨tx, .success first⟩] first) := by
  obtain ⟨hadd, hstipend, hmul⟩ := @padded overflowChecks _ _ hfits
  have hrecorded : Recorded exec builder request [⟨tx, .success first⟩] := by
    have hfirst : Recorded exec builder request ([] ++ [⟨tx, exec [] tx⟩]) :=
      Recorded.nil.snoc hbuilt
    rwa [hexec] at hfirst
  have hsucceeded : HasSucceeded [⟨tx, .success first⟩] tx.gasLimit :=
    ⟨_, List.mem_singleton_self _, rfl, first, rfl⟩
  have hone := hreports.one_le [] tx first ⟨hbuilt, hexec⟩
  rw [boundsAfter, hadd, ok_bind, hstipend, ok_bind, hmul, ok_bind]
  refine Gives.bind (noPanic_buildWith _ _ _) fun tx' hbuild => ?_
  have hbuilt' := built_of_buildWith hbuild
  split
  · rename_i hless
    have hless' : tx'.gasLimit.toNat < tx.gasLimit.toNat := UInt64.lt_iff_toNat_lt.mp hless
    have hrecorded' := hrecorded.snoc hbuilt'
    cases hexec' : exec [⟨tx, .success first⟩] tx' with
    | success second =>
      rw [hexec'] at hrecorded'
      have hone' := hreports.one_le _ tx' second ⟨hbuilt', hexec'⟩
      have hle' := hreports.le_limit _ tx' second ⟨hbuilt', hexec'⟩
      change Gives _ (subU64 overflowChecks second.gasUsed 1 >>= _)
      rw [subU64_of_le hone', ok_bind]
      refine Gives.ok ⟨?_, Nat.lt_trans hless' hlimit, hrecorded', ?_, fun m hm => ?_⟩
      · exact sub_one_lt hone' hle'
      · rw [← hexec']
        exact hasSucceeded_snoc hexec'
      · exact lt_of_used hone' ⟨hbuilt', hexec'⟩ hm
    | failure error =>
      rw [hexec'] at hrecorded'
      refine Gives.ok ⟨hless, hlimit, hrecorded', hsucceeded.append _, fun m hm => ?_⟩
      exact lt_of_failure hbuilt' hexec' hm
    | revert trace => exact Gives.fail _
  · rw [subU64_of_le hone, ok_bind]
    have hle := hreports.le_limit [] tx first ⟨hbuilt, hexec⟩
    refine Gives.ok ⟨?_, hlimit, hrecorded, hsucceeded, fun m hm => ?_⟩
    · exact sub_one_lt hone hle
    · exact lt_of_used hone ⟨hbuilt, hexec⟩ hm

theorem gives_bounds (hreports : Reports exec builder request)
    (hinitial : InitialBelow builder request (2 ^ 57))
    (hfits : ∀ runs tx r, Succeeds exec builder request runs tx r →
      r.gasUsed.toNat + r.gasRefund.toNat + 2300 < 2 ^ 58)
    (originalTxGas : BitVec 256) (providerGasLimit protocolGasLimit : UInt64) :
    Gives (Good exec builder request) (bounds exec builder overflowChecks request originalTxGas
      providerGasLimit protocolGasLimit) := by
  refine Gives.bind (builder.noPanic _) fun tx hbuild => ?_
  have hbuilt : Built builder request tx := ⟨request.gas, hbuild⟩
  cases hexec : exec [] tx with
  | success first =>
    exact gives_boundsAfter hreports hbuilt (hinitial tx hbuild) hexec
      (hfits [] tx first ⟨hbuilt, hexec⟩)
  | failure error => exact Gives.fail _
  | revert trace => exact Gives.fail _

/-- What the search ends with is an estimate. -/
theorem Final.estimate {s : Search} (h : Final exec builder request s) :
    Estimate exec builder request s.upper s.runs := by
  refine ⟨h.recorded, h.succeeded, fun m hm => ?_⟩
  have hbelow := h.below m hm
  have hle : m ≤ s.upper.toNat := by
    obtain ⟨run, hrun, hlimit, r, hr⟩ := h.succeeded
    obtain ⟨runs, hexec, hbuilt⟩ := h.recorded.exists_of_mem hrun
    rw [← hlimit]
    exact (hm.success_iff runs run.tx hbuilt).mp ⟨r, hexec ▸ hr⟩
  refine ⟨hle, ?_⟩
  rcases h.near with hnext | hclose
  · exact .inl (by omega)
  · exact .inr (by omega)

/-- **The search gives an estimate**, if limits and reports are small. -/
theorem meets_of_small (hreports : Reports exec builder request)
    (hinitial : InitialBelow builder request (2 ^ 57))
    (hfits : ∀ runs tx r, Succeeds exec builder request runs tx r →
      r.gasUsed.toNat + r.gasRefund.toNat + 2300 < 2 ^ 58) :
    Meets exec builder request := by
  constructor
  · intro overflowChecks originalTxGas providerGasLimit protocolGasLimit fuel hfuel
    have hbounds := @gives_bounds _ _ overflowChecks _ hreports hinitial hfits originalTxGas
      providerGasLimit protocolGasLimit
    rw [estimateGasWithBuilder]
    cases hs : bounds exec builder overflowChecks request originalTxGas providerGasLimit
      protocolGasLimit with
    | error e =>
      rw [hs] at hbounds
      exact ⟨_, rfl, hbounds.1.of_error, fun _ _ h => by cases h⟩
    | ok s =>
      have hgood : Good exec builder request s := hbounds.2 s hs
      have hrounds : roundsLeft s < fuel := by
        have hwidth : s.upper.toNat - s.lower.toNat ≤ 2 ^ 57 := by
          have := hgood.upper_lt
          omega
        exact Nat.lt_of_le_of_lt (Nat.clog_le_of_le_pow hwidth) hfuel
      obtain ⟨r, hrun, hno, hfinal⟩ := Loop.run_spec
        (fun s hs => @round_halve _ _ overflowChecks _ s hs) hgood hrounds
      refine ⟨_, congrArg (Option.map _) hrun, hno.map _, fun gas s' h => ?_⟩
      obtain ⟨s'', hr, hpair⟩ := map_eq_ok.mp h
      obtain ⟨rfl, rfl⟩ := Prod.mk.inj hpair
      exact (hfinal s'' hr).estimate
  · intro overflowChecks originalTxGas providerGasLimit protocolGasLimit s s' hs hreaches
    have hgood := (gives_bounds hreports hinitial hfits originalTxGas providerGasLimit
      protocolGasLimit).2 s hs
    exact (Loop.inv_of_reaches (fun s hs => round_halve hs) hgood hreaches).lt

end Bounds

/-! ### Executors of tests -/

/-- An executor that needs what it uses and what it gives back. -/
def mockEthCall (gasUsed gasRefund : UInt64) : Executor := fun _ tx =>
  if gasUsed + gasRefund ≤ tx.gasLimit then .success ⟨gasUsed, gasRefund, []⟩
  else .failure ⟨.outOfGas, 0, 0, "out of gas", some "0x"⟩

/-- An executor that uses almost as much as it can report, and gives back as much. -/
def greedyEthCall (most : UInt64) : Executor := fun _ tx =>
  if tx.gasLimit = 0 then .failure ⟨.outOfGas, 0, 0, "out of gas", some "0x"⟩
  else .success ⟨if tx.gasLimit < most then tx.gasLimit else most, most, []⟩

/-- A call with a gas limit. -/
def sampleRequest (gas : UInt64) : CallRequest :=
  { CallRequest.default with dest := some ⟨List.replicate 20 3, rfl⟩, gas := some (toU256 gas) }

theorem initialBelow_sampleRequest {builder : TxBuilder} {gas : UInt64} {bound : ℕ}
    (h : gas.toNat < bound) : InitialBelow builder (sampleRequest gas) bound := by
  intro tx hbuild
  have hlimit := toU256_injective (builder.gasLimit_eq _ tx _ hbuild rfl)
  rwa [← hlimit]

section Mock

variable {builder : TxBuilder} {request : CallRequest} {gasUsed gasRefund : UInt64}
  {runs : List Run} {tx : TxEnvelope} {r : SuccessCallResult}

theorem mockEthCall_eq_success (h : mockEthCall gasUsed gasRefund runs tx = .success r) :
    gasUsed + gasRefund ≤ tx.gasLimit ∧ r = ⟨gasUsed, gasRefund, []⟩ := by
  unfold mockEthCall at h
  split at h
  · rename_i hle
    exact ⟨hle, (CallResult.success.inj h).symm⟩
  · cases h

/-- The threshold of this executor. -/
theorem threshold_mockEthCall (h : gasUsed.toNat + gasRefund.toNat < UInt64.size) :
    Threshold (mockEthCall gasUsed gasRefund) builder request (gasUsed + gasRefund).toNat := by
  constructor
  · intro runs tx _
    rw [← UInt64.le_iff_toNat_le]
    constructor
    · rintro ⟨r, hr⟩
      exact (mockEthCall_eq_success hr).1
    · exact fun hle => ⟨_, if_pos hle⟩
  · intro runs tx r hr
    rw [(mockEthCall_eq_success hr.2).2, toNat_add_of_lt h]
    exact Nat.le_add_right _ _

theorem reports_mockEthCall (hone : 1 ≤ gasUsed)
    (h : gasUsed.toNat + gasRefund.toNat < UInt64.size) :
    Reports (mockEthCall gasUsed gasRefund) builder request := by
  constructor
  · intro runs tx r hr
    rw [(mockEthCall_eq_success hr.2).2]
    exact hone
  · intro runs tx r hr
    obtain ⟨hle, rfl⟩ := mockEthCall_eq_success hr.2
    refine UInt64.le_trans ?_ hle
    rw [UInt64.le_iff_toNat_le, toNat_add_of_lt h]
    exact Nat.le_add_right _ _

/-- What the search gives for the mock, with a limit that is enough and one that is just so. -/
example : ((estimateGasWithBuilder (mockEthCall 50000 10000) (.ofRequest 1000) true
      (sampleRequest 70000) 70000 (-1) (-1) 58).bind fun r =>
        r.toOption.map fun p => p.1.value) = some 60795 := by
  decide +kernel

theorem greedyEthCall_eq_success {most : UInt64} (h : greedyEthCall most runs tx = .success r) :
    tx.gasLimit ≠ 0 ∧ r.gasUsed = (if tx.gasLimit < most then tx.gasLimit else most) ∧
      r.gasRefund = most := by
  unfold greedyEthCall at h
  split at h
  · cases h
  · rename_i hne
    obtain rfl := CallResult.success.inj h
    exact ⟨hne, rfl, rfl⟩

theorem reports_greedyEthCall {most : UInt64} (hmost : 1 ≤ most) :
    Reports (greedyEthCall most) builder request := by
  have hpos : ∀ n : UInt64, n ≠ 0 → 1 ≤ n := fun n hne => UInt64.not_lt.mp fun hlt =>
    hne (UInt64.toNat_inj.mp (Nat.lt_one_iff.mp (UInt64.lt_iff_toNat_lt.mp hlt)))
  constructor
  · intro runs tx r hr
    obtain ⟨hne, hused, -⟩ := greedyEthCall_eq_success hr.2
    rw [hused]
    split
    · exact hpos _ hne
    · exact hmost
  · intro runs tx r hr
    obtain ⟨-, hused, -⟩ := greedyEthCall_eq_success hr.2
    rw [hused]
    split
    · exact UInt64.le_refl _
    · rename_i hle
      exact UInt64.not_lt.mp hle

end Mock

/-- **A mock with the threshold 60000.** -/
theorem meets_mockEthCall :
    Meets (mockEthCall 50000 10000) (.ofRequest 1000) (sampleRequest 70000) ∧
      Threshold (mockEthCall 50000 10000) (.ofRequest 1000) (sampleRequest 70000) 60000 := by
  refine ⟨?_, threshold_mockEthCall (by decide)⟩
  refine meets_of_small (reports_mockEthCall (by decide) (by decide))
    (initialBelow_sampleRequest (by decide)) fun runs tx r hr => ?_
  rw [(mockEthCall_eq_success hr.2).2]
  decide

/-- **Reports below 2⁵⁷ are not small enough**: two of them are added and multiplied by 64. -/
theorem not_meets_greedyEthCall :
    ¬∀ exec builder request, Reports exec builder request →
      InitialBelow builder request (2 ^ 57) →
      (∀ runs tx r, Succeeds exec builder request runs tx r →
        r.gasUsed.toNat < 2 ^ 57 ∧ r.gasRefund.toNat < 2 ^ 57) →
      Meets exec builder request := by
  intro h
  have hmeets := h (greedyEthCall 144115188075855871) (.ofRequest 1000)
    (sampleRequest 144115188075855871) (reports_greedyEthCall (by decide))
    (initialBelow_sampleRequest (by decide)) ?_
  · obtain ⟨r, hr, hno, -⟩ := hmeets.terminates true 0 0 0 58 le_rfl
    have hpanic : estimateGasWithBuilder (greedyEthCall 144115188075855871) (.ofRequest 1000) true
        (sampleRequest 144115188075855871) 0 0 0 58 =
        some (.error (.panic "attempt to multiply with overflow")) := rfl
    rw [hpanic] at hr
    exact hno _ (Option.some.inj hr).symm
  · intro runs tx r hr
    obtain ⟨-, hused, hrefund⟩ := greedyEthCall_eq_success hr.2
    refine ⟨?_, by rw [hrefund]; decide⟩
    rw [hused]
    split
    · rename_i hlt
      exact Nat.lt_trans (UInt64.lt_iff_toNat_lt.mp hlt) (by decide)
    · decide

end EstimateGas

end Rpc

end MonadServices
