import Mathlib.Tactic
import MonadServices.Lib.IterOrder
import MonadServices.Rpc.FillTransaction
import MonadServices.Rpc.Receipts
import MonadServices.Rpc.SendRawTransactionSync
import MonadServices.Rpc.SimulateFees

/-!
# Calls and access lists

`eth_call` looks up the key of a block, completes the request with what it reads of triedb under
this key, makes a transaction of it and runs it. `eth_createAccessList` runs the request twice: the
first run gives the list of what it has accessed, and the second one, with this list and that of the
request, the gas. Triedb may change between any two reads.

**What is run is about the block that was looked up, and within its limits**: the gas is at most the
limit of the provider, the fee is not below the base fee, the sender has the value that is sent, and
it can pay for the gas where the request leaves the amount open
(`MonadServices.Rpc.EthCall.runnable_of_monadEthCall`,
`MonadServices.Rpc.EthCall.runnable_of_monadCreateAccessList`).

**If what is read has not changed, the two runs of an access list are of the same transaction but
for the list**, which the second one has with all keys of the first one and of the request. A
request with a gas price makes a transaction without a list: for it the gas is that of a transaction
that lists nothing, whatever was accessed
(`MonadServices.Rpc.EthCall.monadCreateAccessList_runs`).
-/

namespace MonadServices

namespace Rpc

namespace EthCall

open Jsonrpc FillTransaction

open Receipts (ReceiptAlloy)

open Simulate (StateOverrideObject fillGasParams resolveSenderBalance priced)

/-! ### Results of the executor -/

/-- `monad_ethcall::EthCallError`. A failure does not have the code of a success. -/
inductive EthCallError where
  | failure (errorCode : EthCallResult) (gasUsed gasRefund : UInt64) (message : String)
    (data : Option String)
  | gasLimitTooHigh
  | internalError
  | other (message : String)
  | reserveBalanceViolation (gasUsed gasRefund : UInt64)
  | traced (trace : Bytes)
  deriving DecidableEq

/-- `From<EthCallError> for CallResult`. -/
def EthCallError.toCallResult : EthCallError → CallResult
  | .failure errorCode gasUsed gasRefund message data =>
    .failure ⟨errorCode, gasUsed, gasRefund, message, data⟩
  | .gasLimitTooHigh => .failure ⟨.otherError, 0, 0, "gas limit too high", none⟩
  | .internalError => .failure ⟨.otherError, 0, 0, "internal eth_call error", none⟩
  | .other message => .failure ⟨.otherError, 0, 0, message, none⟩
  | .reserveBalanceViolation gasUsed gasRefund =>
    .failure ⟨.reserveBalanceViolation, gasUsed, gasRefund, "reserve balance violation", none⟩
  | .traced trace => .revert trace

/-! ### Requests to the executor -/

/-- The tracers that are used here. -/
inductive MonadTracer where
  | noopTracer
  | accessListTracer
  deriving DecidableEq

abbrev StateOverrideSet := Address → Option StateOverrideObject

/-- A header, with its fees as they were filled in. -/
structure FilledHeader (alloy : ReceiptAlloy) where
  header : alloy.Header
  fees : Simulate.Header

/-- `monad_ethcall::EthCallRequest`. -/
structure EthCallRequest (alloy : ReceiptAlloy) where
  chainId : UInt64
  transaction : TxEnvelope
  blockHeader : FilledHeader alloy
  sender : Address
  blockNumber : UInt64
  blockId : Option B256
  stateOverrideSet : StateOverrideSet
  tracer : MonadTracer
  gasSpecified : Bool

/-- What runs the requests. A result may depend on the runs before. -/
abbrev Executor (alloy : ReceiptAlloy) :=
  List (EthCallRequest alloy) → EthCallRequest alloy → Except EthCallError SuccessCallResult

/-- **What triedb answers**, about blocks and accounts. -/
structure Triedb (alloy : ReceiptAlloy) where
  blocks : Receipts.Triedb alloy
  /-- The balance of an account. -/
  getAccount : BlockKey → Address → Except String (BitVec 256)

/-- What is configured, the chains that the executor knows, and what is read of a header. -/
structure Config (alloy : ReceiptAlloy) where
  providerGasLimitEthCall : UInt64
  chainId : UInt64
  supported : UInt64 → Bool
  maxCodeSize : ℕ
  fees : alloy.Header → Simulate.Header

/-! ### Preparing a call -/

inductive OutOfGasHandling where
  | rpcError
  | returnAsCallFailure
  deriving DecidableEq

structure EthCallExecutionParams where
  transaction : CallRequest
  stateOverrides : StateOverrideSet
  tracer : MonadTracer

/-- The limit of the provider for the gas that is asked for. -/
def capGas (limit : UInt64) (handling : OutOfGasHandling) (tx : CallRequest) :
    Result CallRequest :=
  match tx.gas with
  | none => .ok tx
  | some gas =>
    if toU256 limit < gas then
      match handling with
      | .rpcError => fail (.ethCallError "user-specified gas exceeds provider limit" none)
      | .returnAsCallFailure => .ok { tx with gas := some (toU256 limit) }
    else .ok tx

def checkChainId (chainId : UInt64) (tx : CallRequest) : Result CallRequest :=
  match tx.chainId with
  | some txChainId =>
    if txChainId = chainId then .ok tx else fail (.invalidChainId chainId txChainId)
  | none => .ok { tx with chainId := some chainId }

def checkValueTransferBalance (env : Simulate.Env) (tx : CallRequest) : Result Unit :=
  if tx.value.getD 0 = 0 then .ok ()
  else do
    let balance ← resolveSenderBalance env (tx.sender.getD zeroAddress)
    if balance < tx.value.getD 0 then fail .insufficientFunds else .ok ()

/-- `parse_ethcall_chain_id`. -/
def parseEthcallChainId (supported : UInt64 → Bool) (chainId : UInt64) : Result UInt64 :=
  if supported chainId then .ok chainId
  else fail (.ethCallError "unsupported chain id" (some s!"{chainId.toNat}"))

/-- The id of a block that is not finalized. -/
def blockIdOf : BlockKey → Option B256
  | .finalized _ => none
  | .proposed _ id => some id

/-- A call that is ready, and what a message about its gas depends on. -/
structure Prepared (alloy : ReceiptAlloy) where
  request : EthCallRequest alloy
  originalTxGas : BitVec 256
  ethCallProviderGasLimit : UInt64

/-- What was run until now, and what a handler makes of it. -/
structure Handled (alloy : ReceiptAlloy) (α : Type) where
  requests : List (EthCallRequest alloy)
  answer : Result α

/-- The answer is processed further. -/
def Handled.andThen {alloy : ReceiptAlloy} {α β : Type} (handled : Handled alloy α)
    (f : α → Result β) : Handled alloy β :=
  ⟨handled.requests, handled.answer >>= f⟩

section Prepare

variable {alloy : ReceiptAlloy} (config : Config alloy)

def readHeader (triedb : Triedb alloy) (key : BlockKey) : Result alloy.Header :=
  match triedb.blocks.getBlockHeader key with
  | .error e => fail (.internalError e)
  | .ok none => fail .blockNotFound
  | .ok (some header) => .ok header.header

/-- The limit for gas that is filled in. -/
def ethCallProviderGasLimit (header : alloy.Header) : UInt64 :=
  if config.providerGasLimitEthCall ≤ (config.fees header).gasLimit then
    config.providerGasLimitEthCall
  else (config.fees header).gasLimit

/-- What accounts have under a key, with the overrides of the request. -/
def envAt (triedb : Triedb alloy) (key : BlockKey) (stateOverrides : StateOverrideSet)
    (header : alloy.Header) : Simulate.Env :=
  ⟨triedb.getAccount key, stateOverrides, ethCallProviderGasLimit config header⟩

variable (params : EthCallExecutionParams) (handling : OutOfGasHandling) (key : BlockKey)

/-- What is left to do once gas and fees have been filled in. -/
def finish (triedb : Triedb alloy) (header : alloy.Header) (gas : Option (BitVec 256))
    (filled : Simulate.Header × CallRequest) : Result (Prepared alloy) := do
  let tx ← checkChainId config.chainId filled.2
  checkValueTransferBalance (envAt config triedb key params.stateOverrides header) tx
  let chainId ← parseEthcallChainId config.supported (tx.chainId.getD 0)
  let transaction ← tx.toTxEnvelope config.maxCodeSize
  return ⟨⟨chainId, transaction, ⟨header, filled.1⟩, tx.sender.getD zeroAddress, key.seqNum,
    blockIdOf key, params.stateOverrides, params.tracer, gas.isSome⟩,
    gas.getD (toU256 (config.fees header).gasLimit), ethCallProviderGasLimit config header⟩

/-- What is done before anything is read. -/
def normalize : Result CallRequest := do
  let input ← mergeInput params.transaction.input
  capGas config.providerGasLimitEthCall handling { params.transaction with input := input }

/-- `prepare_eth_call_at_block`, up to the run. What triedb answers may be another thing at each of
the reads: the header, the balance for the gas and the balance for the value. -/
def prepare (triedb : ℕ → Triedb alloy) : Result (Prepared alloy) := do
  let tx ← normalize config params handling
  let header ← readHeader (triedb 0) key
  let filled ← fillGasParams (envAt config (triedb 1) key params.stateOverrides header)
    (config.fees header) tx
  finish config params key (triedb 2) header tx.gas filled

/-- What is said when the gas is not enough. -/
def outOfGasMessage (prepared : Prepared alloy) : String :=
  if prepared.ethCallProviderGasLimit < prepared.request.blockHeader.fees.gasLimit ∧
      toU256 prepared.ethCallProviderGasLimit < prepared.originalTxGas then
    "provider-specified max eth_call gas limit exceeded"
  else "out of gas"

/-- What a run has given. -/
def callResult (prepared : Prepared alloy) :
    Except EthCallError SuccessCallResult → Result CallResult
  | .ok result => .ok (.success result)
  | .error (.failure .outOfGas gasUsed gasRefund _ _) =>
    match handling with
    | .rpcError => fail (.withMessage .internalError (outOfGasMessage prepared))
    | .returnAsCallFailure => .ok (.failure ⟨.outOfGas, gasUsed, gasRefund, "out of gas", none⟩)
  | .error error => .ok error.toCallResult

variable (exec : Executor alloy)

/-- `prepare_eth_call_at_block`, after some runs. -/
def prepareEthCallAtBlock (runs : List (EthCallRequest alloy)) (triedb : ℕ → Triedb alloy) :
    Handled alloy CallResult :=
  match prepare config params handling key triedb with
  | .error e => ⟨runs, .error e⟩
  | .ok prepared => ⟨runs ++ [prepared.request],
      callResult handling prepared (exec runs prepared.request)⟩

/-- `prepare_eth_call`, with what is done after it under the same key. -/
def withBlockKey {α : Type} (triedb : Triedb alloy) (block : BlockTagOrHash)
    (f : BlockKey → Handled alloy α) : Handled alloy α :=
  match Receipts.getBlockKeyFromTagOrHash triedb.blocks block with
  | some key => f key
  | none => ⟨[], fail .blockNotFound⟩

/-- The bytes that a call has returned. -/
def returnedData : CallResult → Result String
  | .success result => .ok (encodeBytes result.outputData)
  | .failure error => fail error.toJsonRpcError
  | .revert _ => fail (.internalError "Unexpected CallResult type")

variable (transaction : CallRequest) (stateOverrides : StateOverrideSet) (block : BlockTagOrHash)
  (triedb : ℕ → Triedb alloy)

/-- `monad_eth_call`. -/
def monadEthCall : Handled alloy String :=
  withBlockKey (triedb 0) block fun key =>
    (prepareEthCallAtBlock config ⟨transaction, stateOverrides, .noopTracer⟩ .rpcError key exec []
      fun i => triedb (i + 1)).andThen returnedData

end Prepare

/-! ### Access lists -/

/-- The orders in which the map and the sets of a merge are iterated. -/
structure MergeOrders where
  items : IterOrder AccessListItem
  keys : Address → IterOrder B256

/-- An item is added to the map: its keys join those of its address. -/
def extendItem (item : AccessListItem) : List AccessListItem → List AccessListItem
  | [] => [⟨item.address, item.storageKeys ∪ []⟩]
  | first :: rest =>
    if first.address = item.address then
      ⟨first.address, item.storageKeys ∪ first.storageKeys⟩ :: rest
    else first :: extendItem item rest

/-- The map of the keys of all addresses, as a list of its entries. -/
def accessMap (items : AccessList) : List AccessListItem :=
  items.foldl (fun map item => extendItem item map) []

def mergeAccessLists (orders : MergeOrders) (generated : AccessList) :
    Option AccessList → AccessList
  | none => generated
  | some original => (orders.items.order (accessMap (generated ++ original))).map fun item =>
      ⟨item.address, (orders.keys item.address).order item.storageKeys⟩

structure MonadCreateAccessListResult where
  accessList : AccessList
  gasUsed : BitVec 256
  error : Option String
  deriving DecidableEq

/-- `decode_access_list_trace`; the reading of CBOR is given. -/
def decodeAccessListTrace (fromSlice : Bytes → Except String AccessList) (rawPayload : Bytes) :
    Result AccessList :=
  if rawPayload = [] then .ok []
  else
    match fromSlice rawPayload with
    | .ok accessList => .ok accessList
    | .error e => fail (.internalError ("failed to decode access list: " ++ e))

def accessListFromTraceCallResult (fromSlice : Bytes → Except String AccessList) :
    CallResult → Result AccessList
  | .success result => decodeAccessListTrace fromSlice result.outputData
  | .failure error => fail error.toJsonRpcError
  | .revert trace => decodeAccessListTrace fromSlice trace

/-- The text of an error of the second run. -/
def followUpMessage (error : FailureCallResult) : String :=
  if error.errorCode = .executionError ∧ error.message.startsWith "execution reverted:" then
    "execution reverted"
  else error.message

/-- `MonadCreateAccessListResult::from_follow_up_call_result`. -/
def fromFollowUpCallResult (accessList : AccessList) : CallResult →
    Result MonadCreateAccessListResult
  | .success result => .ok ⟨accessList, toU256 result.gasUsed, none⟩
  | .failure error =>
    match error.errorCode with
    | .outOfGas | .executionError | .reserveBalanceViolation =>
      .ok ⟨accessList, toU256 error.gasUsed, some (followUpMessage error)⟩
    | .otherError => fail (.ethCallError error.message error.data)
  | .revert _ => fail (.internalError
      "unexpected traced revert from NoopTracer eth_createAccessList follow-up call")

/-- The request with another list. -/
def withList (tx : CallRequest) (accessList : AccessList) : CallRequest :=
  { tx with accessList := some accessList }

section AccessLists

variable {alloy : ReceiptAlloy} (config : Config alloy) (exec : Executor alloy)
  (orders : MergeOrders) (fromSlice : Bytes → Except String AccessList)
  (transaction : CallRequest) (stateOverrides : StateOverrideSet)

/-- The second run, with the list that the first one has given and that of the request. -/
def followUp (key : BlockKey) (traced : Handled alloy AccessList) (triedb : ℕ → Triedb alloy) :
    Handled alloy MonadCreateAccessListResult :=
  match traced.answer with
  | .error e => ⟨traced.requests, .error e⟩
  | .ok accessList =>
    (prepareEthCallAtBlock config
      ⟨withList transaction (mergeAccessLists orders accessList transaction.accessList),
        stateOverrides, .noopTracer⟩
      .returnAsCallFailure key exec traced.requests triedb).andThen
      (fromFollowUpCallResult accessList)

/-- The first run, and the list that it gives. -/
def trace (key : BlockKey) (triedb : ℕ → Triedb alloy) : Handled alloy AccessList :=
  (prepareEthCallAtBlock config ⟨transaction, stateOverrides, .accessListTracer⟩
    .returnAsCallFailure key exec [] triedb).andThen (accessListFromTraceCallResult fromSlice)

/-- `monad_createAccessList`. -/
def monadCreateAccessList (block : BlockTagOrHash) (triedb : ℕ → Triedb alloy) :
    Handled alloy MonadCreateAccessListResult :=
  withBlockKey (triedb 0) block fun key =>
    followUp config exec orders transaction stateOverrides key
      (trace config exec fromSlice transaction stateOverrides key fun i => triedb (i + 1))
      fun i => triedb (i + 4)

end AccessLists

/-! ### What can be run -/

/-- `Transaction::max_fee_per_gas`. -/
def maxFeePerGas : TypedTransaction → BitVec 128
  | .legacy tx => tx.gasPrice
  | .eip2930 tx => tx.gasPrice
  | .eip1559 tx => tx.maxFeePerGas
  | .eip7702 tx => tx.maxFeePerGas

/-- `Transaction::value`. -/
def valueOf : TypedTransaction → BitVec 256
  | .legacy tx => tx.value
  | .eip2930 tx => tx.value
  | .eip1559 tx => tx.value
  | .eip7702 tx => tx.value

/-- A sender has what it takes: some gas at a price, and a value. -/
def Covers (env : Simulate.Env) (sender : Address) (gas price value : ℕ) : Prop :=
  ∃ balance, resolveSenderBalance env sender = .ok balance ∧ gas * price + value ≤ balance.toNat

/-- **A request can be run**: it is about the block of a key, within the limit of the provider, not
below the base fee, which is zero for a request that does not say what it pays, and its sender has
the value that it sends. It can also pay for the gas, where the amount is left open. -/
structure Runnable {alloy : ReceiptAlloy} (config : Config alloy) (params : EthCallExecutionParams)
    (key : BlockKey) (triedb : ℕ → Triedb alloy) (request : EthCallRequest alloy) : Prop where
  blockNumber : request.blockNumber = key.seqNum
  blockId : request.blockId = blockIdOf key
  stateOverrideSet : request.stateOverrideSet = params.stateOverrides
  header : readHeader (triedb 0) key = .ok request.blockHeader.header
  fees : request.blockHeader.fees = if priced params.transaction.gasPriceDetails then
    config.fees request.blockHeader.header else (config.fees request.blockHeader.header).free
  gasLimit : request.transaction.gasLimit.toNat ≤ config.providerGasLimitEthCall.toNat
  fee : request.blockHeader.fees.baseFee ≤ widen (maxFeePerGas request.transaction.transaction)
  value : valueOf request.transaction.transaction ≠ 0 →
    Covers (envAt config (triedb 2) key params.stateOverrides request.blockHeader.header)
      request.sender 0 0 (valueOf request.transaction.transaction).toNat
  gas : params.transaction.gas = none → params.transaction.sender.isSome →
    priced params.transaction.gasPriceDetails → maxFeePerGas request.transaction.transaction ≠ 0 →
    Covers (envAt config (triedb 1) key params.stateOverrides request.blockHeader.header)
      request.sender request.transaction.gasLimit.toNat
      (maxFeePerGas request.transaction.transaction).toNat
      (valueOf request.transaction.transaction).toNat

/-! ### What is filled in -/

section Filled

variable {env : Simulate.Env} {header : Simulate.Header} {tx : CallRequest}
  {filled : Simulate.Header × CallRequest} {sender : Address}

/-- A fee that is filled in is not below the base fee. -/
theorem le_cap_of_fill {baseFee : BitVec 256} {details filled : GasPriceDetails}
    (h : details.fill baseFee = .ok filled) : baseFee ≤ filled.cap.getD 0 := by
  cases details with
  | legacy gasPrice =>
    rw [fill_legacy] at h
    obtain rfl := Except.ok.inj h
    change baseFee ≤ if gasPrice < baseFee then baseFee else gasPrice
    split
    · exact BitVec.le_refl baseFee
    · rename_i hnot
      exact BitVec.not_lt.mp hnot
  | eip1559 cap tip =>
    cases cap with
    | none =>
      rw [GasPriceDetails.fill] at h
      split at h
      · cases h
      · rename_i effective hsum
        obtain rfl := Except.ok.inj h
        have hsum := checkedAddU256_eq_some.mp hsum
        exact BitVec.le_def.mpr (hsum ▸ Nat.le_add_right _ _)
    | some cap =>
      obtain ⟨effective, hsum, hcap, -, rfl⟩ := fill_capped_eq_ok.mp h
      have hsum := checkedAddU256_eq_some.mp hsum
      refine BitVec.le_def.mpr ?_
      change _ ≤ (minU256 cap effective).toNat
      rw [toNat_minU256]
      exact le_min (BitVec.le_def.mp hcap) (hsum ▸ Nat.le_add_right _ _)

theorem isLegacy_of_fill {baseFee : BitVec 256} {details filled : GasPriceDetails}
    (h : details.fill baseFee = .ok filled) : isLegacy filled = isLegacy details := by
  cases details with
  | legacy gasPrice =>
    rw [fill_legacy] at h
    obtain rfl := Except.ok.inj h
    rfl
  | eip1559 cap tip =>
    cases cap with
    | none =>
      rw [GasPriceDetails.fill] at h
      split at h
      · cases h
      · obtain rfl := Except.ok.inj h
        rfl
    | some cap =>
      obtain ⟨effective, -, -, -, rfl⟩ := fill_capped_eq_ok.mp h
      rfl

/-- The gas that is affordable can be paid for. -/
theorem pays_of_affordable {price value balance : BitVec 256} {gas : UInt64}
    (h : Simulate.affordable header price value balance = .ok gas) :
    gas.toNat * price.toNat + value.toNat ≤ balance.toNat := by
  unfold Simulate.affordable at h
  split at h
  · cases h
  · split at h
    · cases h
    · rename_i hlow
      have hvalue : value.toNat ≤ balance.toNat := BitVec.le_def.mp (BitVec.not_lt.mp hlow)
      obtain rfl := Except.ok.inj h
      have hdiv : ((balance - value) / price).toNat =
          (balance.toNat - value.toNat) / price.toNat := by
        rw [BitVec.toNat_udiv, BitVec.toNat_sub_of_le (BitVec.not_lt.mp hlow)]
      have hmul := Nat.div_mul_le_self (balance.toNat - value.toNat) price.toNat
      refine Nat.add_le_of_le_sub hvalue (le_trans (Nat.mul_le_mul_right _ ?_) hmul)
      split
      · rename_i hlt
        rw [UInt64.toNat_ofNat', hdiv]
        exact Nat.mod_le _ _
      · rename_i hge
        exact hdiv ▸ Nat.le_of_not_lt hge

theorem covers_of_senderGasAllowance {price : BitVec 256} {gas : UInt64}
    (h : Simulate.senderGasAllowance env header tx = .ok gas) (hsender : tx.sender = some sender)
    (hcap : tx.gasPriceDetails.cap = some price) (hprice : price ≠ 0) :
    Covers env sender gas.toNat price.toNat (tx.value.getD 0).toNat := by
  unfold Simulate.senderGasAllowance at h
  rw [hsender, hcap] at h
  dsimp only at h
  rw [if_neg hprice] at h
  obtain ⟨balance, hbalance, h⟩ := bind_eq_ok.mp h
  exact ⟨balance, hbalance, pays_of_affordable h⟩

/-- **What is filled in.** -/
structure GasFilled (env : Simulate.Env) (tx : CallRequest)
    (filled : Simulate.Header × CallRequest) : Prop where
  fee : filled.1.baseFee ≤ filled.2.gasPriceDetails.cap.getD 0
  legacy : isLegacy filled.2.gasPriceDetails = isLegacy tx.gasPriceDetails
  sender : filled.2.sender = tx.sender
  value : filled.2.value = tx.value
  specified : ∀ gas, tx.gas = some gas → filled.2.gas = some gas
  unspecified : tx.gas = none → ∃ gas, filled.2.gas = some gas ∧ gas ≤ toU256 env.callGasLimit ∧
    ∀ sender price, tx.sender = some sender → priced tx.gasPriceDetails = true →
      filled.2.gasPriceDetails.cap = some price → price ≠ 0 →
      Covers env sender gas.toNat price.toNat (tx.value.getD 0).toNat

theorem withGas_gas (gas : UInt64) : ∃ g, (Simulate.withGas env tx gas).gas = some g ∧
    g ≤ toU256 env.callGasLimit ∧ g.toNat ≤ gas.toNat := by
  have hmin := toNat_minU256 (toU256 gas) (toU256 env.callGasLimit)
  refine ⟨_, rfl, BitVec.le_def.mpr ?_, ?_⟩
  · rw [hmin]
    exact min_le_right _ _
  · rw [hmin, toNat_toU256]
    exact min_le_left _ _

theorem filled_of_fillGasParams (h : fillGasParams env header tx = .ok filled) :
    GasFilled env tx filled := by
  cases hpriced : priced tx.gasPriceDetails with
  | true =>
    obtain ⟨details, hfill, hgas⟩ := (Simulate.fillGasParams_of_priced hpriced).mp h
    have hfee := le_cap_of_fill hfill
    have hlegacy := isLegacy_of_fill hfill
    obtain ⟨gas, hgas, rfl⟩ | ⟨hgas, allowance, hallowance, rfl⟩ := hgas
    · exact ⟨hfee, hlegacy, rfl, rfl, fun _ h => h, fun h => absurd (hgas.symm.trans h) (by simp)⟩
    · refine ⟨hfee, hlegacy, rfl, rfl, fun _ h => absurd (hgas.symm.trans h) (by simp), fun _ => ?_⟩
      obtain ⟨gas, heq, hle, hallow⟩ := @withGas_gas env { tx with gasPriceDetails := details }
        allowance
      refine ⟨gas, heq, hle, fun sender price hsender _ hcap hprice => ?_⟩
      obtain ⟨balance, hbalance, hpays⟩ :=
        covers_of_senderGasAllowance hallowance hsender hcap hprice
      exact ⟨balance, hbalance,
        le_trans (Nat.add_le_add_right (Nat.mul_le_mul_right _ hallow) _) hpays⟩
  | false =>
    unfold fillGasParams at h
    rw [hpriced] at h
    obtain ⟨details, hfill, h⟩ := bind_eq_ok.mp h
    have hfee := le_cap_of_fill hfill
    have hlegacy := isLegacy_of_fill hfill
    cases hgas : tx.gas with
    | some gas =>
      rw [hgas] at h
      obtain rfl := Except.ok.inj h
      exact ⟨hfee, hlegacy, rfl, rfl, fun _ h => hgas.symm.trans h,
        fun h => absurd (hgas.symm.trans h) (by simp)⟩
    | none =>
      rw [hgas] at h
      obtain rfl := Except.ok.inj h
      refine ⟨hfee, hlegacy, rfl, rfl, fun _ h => absurd (hgas.symm.trans h) (by simp), fun _ => ?_⟩
      obtain ⟨gas, heq, hle, -⟩ := @withGas_gas env { tx with gasPriceDetails := details }
        header.gasLimit
      exact ⟨gas, heq, hle, fun _ _ _ h => absurd (hpriced.symm.trans h) (by simp)⟩

theorem toNat_widen (n : BitVec 128) : (widen n).toNat = n.toNat := by
  unfold widen
  rw [BitVec.toNat_setWidth]
  exact Nat.mod_eq_of_lt (Nat.lt_trans n.isLt (by decide))

/-- The gas is within a limit for what is asked for and what is filled in. -/
theorem exists_gas_le {limit : BitVec 256} (h : GasFilled env tx filled)
    (hgas : ∀ gas, tx.gas = some gas → gas ≤ limit) (hlimit : toU256 env.callGasLimit ≤ limit) :
    ∃ gas, filled.2.gas = some gas ∧ gas ≤ limit := by
  cases hopen : tx.gas with
  | some gas => exact ⟨gas, h.specified gas hopen, hgas gas hopen⟩
  | none =>
    obtain ⟨gas, hsome, hle, -⟩ := h.unspecified hopen
    exact ⟨gas, hsome, BitVec.le_trans hle hlimit⟩

/-- Gas that is filled in can be paid for, with the value. -/
theorem exists_gas_covers {fee : BitVec 128} (h : GasFilled env tx filled) (hopen : tx.gas = none)
    (hsender : tx.sender = some sender) (hpriced : priced tx.gasPriceDetails = true)
    (hfee : widen fee = filled.2.gasPriceDetails.cap.getD 0) (hne : fee ≠ 0) :
    ∃ gas, filled.2.gas = some gas ∧
      Covers env sender gas.toNat fee.toNat (tx.value.getD 0).toNat := by
  obtain ⟨gas, hgas, -, hcovers⟩ := h.unspecified hopen
  have hwiden : widen fee ≠ 0 := by
    intro hzero
    refine hne (BitVec.eq_of_toNat_eq ?_)
    rw [← toNat_widen, hzero]
    rfl
  cases hcap : filled.2.gasPriceDetails.cap with
  | none =>
    rw [hcap] at hfee
    exact absurd hfee hwiden
  | some price =>
    rw [hcap] at hfee
    have hprice : widen fee = price := hfee
    refine ⟨gas, hgas, ?_⟩
    rw [← toNat_widen, hprice]
    exact hcovers sender price hsender hpriced hcap (hprice ▸ hwiden)

end Filled

/-! ### What is run -/

section Runs

variable {alloy : ReceiptAlloy} {config : Config alloy} {params : EthCallExecutionParams}
  {handling : OutOfGasHandling} {key : BlockKey} {exec : Executor alloy} {tx : CallRequest}
  {runs : List (EthCallRequest alloy)} {triedb : ℕ → Triedb alloy} {request : EthCallRequest alloy}

/-- The fee and the value of a transaction are those of its request. -/
theorem fee_of_toTxEnvelope {maxCodeSize : ℕ} {envelope : TxEnvelope}
    (h : tx.toTxEnvelope maxCodeSize = .ok envelope) :
    widen (maxFeePerGas envelope.transaction) = tx.gasPriceDetails.cap.getD 0 ∧
      valueOf envelope.transaction = tx.value.getD 0 := by
  cases hdetails : tx.gasPriceDetails with
  | legacy gasPrice =>
    obtain ⟨gasLimit, price, -, hprice, -, rfl⟩ := (envelope_legacy hdetails).mp h
    exact ⟨(tryU128_eq_ok.mp hprice).symm, rfl⟩
  | eip1559 cap tip =>
    cases hlist : tx.authorizationList with
    | some authorizationList =>
      obtain ⟨gasLimit, fee, _, dest, -, hfee, -, -, rfl⟩ := (envelope_eip7702 hdetails hlist).mp h
      exact ⟨(tryU128_eq_ok.mp hfee).symm, rfl⟩
    | none =>
      obtain ⟨gasLimit, fee, _, -, hfee, -, -, rfl⟩ := (envelope_eip1559 hdetails hlist).mp h
      exact ⟨(tryU128_eq_ok.mp hfee).symm, rfl⟩

theorem checkChainId_eq_ok {chainId : UInt64} {checked : CallRequest}
    (h : checkChainId chainId tx = .ok checked) :
    checked = { tx with chainId := some chainId } := by
  unfold checkChainId at h
  split at h
  · rename_i txChainId hchain
    split at h
    · rename_i heq
      rw [← Except.ok.inj h, ← heq, ← hchain]
    · cases h
  · exact (Except.ok.inj h).symm

/-- The value that is sent is there. -/
theorem covers_of_checkValueTransferBalance {env : Simulate.Env}
    (h : checkValueTransferBalance env tx = .ok ()) (hvalue : tx.value.getD 0 ≠ 0) :
    Covers env (tx.sender.getD zeroAddress) 0 0 (tx.value.getD 0).toNat := by
  unfold checkValueTransferBalance at h
  rw [if_neg hvalue] at h
  obtain ⟨balance, hbalance, h⟩ := bind_eq_ok.mp h
  split at h
  · cases h
  · rename_i hlow
    refine ⟨balance, hbalance, ?_⟩
    rw [Nat.zero_mul, Nat.zero_add]
    exact BitVec.le_def.mp (BitVec.not_lt.mp hlow)

/-- What is left of a request before anything is read: the gas is within the limit. -/
theorem normalize_eq_ok (h : normalize config params handling = .ok tx) :
    tx.sender = params.transaction.sender ∧
      tx.gasPriceDetails = params.transaction.gasPriceDetails ∧
      (tx.gas = none ↔ params.transaction.gas = none) ∧
      ∀ gas, tx.gas = some gas → gas ≤ toU256 config.providerGasLimitEthCall := by
  obtain ⟨input, -, h⟩ := bind_eq_ok.mp h
  unfold capGas at h
  dsimp only at h
  cases hgas : params.transaction.gas with
  | none =>
    rw [hgas] at h
    obtain rfl := Except.ok.inj h
    exact ⟨rfl, rfl, by simp, fun _ h => by cases h⟩
  | some gas =>
    rw [hgas] at h
    dsimp only at h
    split at h
    · cases handling with
      | rpcError => cases h
      | returnAsCallFailure =>
        obtain rfl := Except.ok.inj h
        refine ⟨rfl, rfl, by simp, fun _ h => ?_⟩
        rw [← Option.some.inj h]
        exact BitVec.le_refl _
    · rename_i hle
      obtain rfl := Except.ok.inj h
      refine ⟨rfl, rfl, by simp, fun _ h => ?_⟩
      rw [← Option.some.inj h]
      exact BitVec.not_lt.mp hle

theorem le_providerGasLimit (header : alloy.Header) :
    toU256 (ethCallProviderGasLimit config header) ≤ toU256 config.providerGasLimitEthCall := by
  rw [BitVec.le_def, toNat_toU256, toNat_toU256]
  unfold ethCallProviderGasLimit
  split
  · exact le_rfl
  · rename_i h
    exact Nat.le_of_lt (Nat.not_le.mp h)

/-- The steps up to the run. -/
theorem prepare_eq_ok {prepared : Prepared alloy}
    (h : prepare config params handling key triedb = .ok prepared) :
    ∃ tx header filled, normalize config params handling = .ok tx ∧
      readHeader (triedb 0) key = .ok header ∧
      fillGasParams (envAt config (triedb 1) key params.stateOverrides header)
        (config.fees header) tx = .ok filled ∧
      finish config params key (triedb 2) header tx.gas filled = .ok prepared := by
  obtain ⟨tx, htx, h⟩ := bind_eq_ok.mp h
  obtain ⟨header, hheader, h⟩ := bind_eq_ok.mp h
  obtain ⟨filled, hfilled, h⟩ := bind_eq_ok.mp h
  exact ⟨tx, header, filled, htx, hheader, hfilled, h⟩

/-- The request that is run, by what was filled in. -/
theorem finish_eq_ok {triedb : Triedb alloy} {header : alloy.Header} {gas : Option (BitVec 256)}
    {filled : Simulate.Header × CallRequest} {prepared : Prepared alloy}
    (h : finish config params key triedb header gas filled = .ok prepared) :
    ∃ chainId transaction, checkValueTransferBalance
        (envAt config triedb key params.stateOverrides header) filled.2 = .ok () ∧
      CallRequest.toTxEnvelope config.maxCodeSize
        { filled.2 with chainId := some config.chainId } = .ok transaction ∧
      prepared.request = ⟨chainId, transaction, ⟨header, filled.1⟩,
        filled.2.sender.getD zeroAddress, key.seqNum, blockIdOf key, params.stateOverrides,
        params.tracer, gas.isSome⟩ := by
  obtain ⟨tx, hchecked, h⟩ := bind_eq_ok.mp h
  obtain rfl := checkChainId_eq_ok hchecked
  obtain ⟨⟨⟩, hvalue, h⟩ := bind_eq_ok.mp h
  obtain ⟨chainId, -, h⟩ := bind_eq_ok.mp h
  obtain ⟨transaction, htransaction, h⟩ := bind_eq_ok.mp h
  exact ⟨chainId, transaction, hvalue, htransaction, by rw [← Except.ok.inj h]⟩

/-- **What is prepared can be run.** -/
theorem runnable_of_prepare {prepared : Prepared alloy}
    (h : prepare config params handling key triedb = .ok prepared) :
    Runnable config params key triedb prepared.request := by
  obtain ⟨tx, header, filled, htx, hheader, hfill, hfinish⟩ := prepare_eq_ok h
  obtain ⟨hsender, hdetails, hopen, hlimit⟩ := normalize_eq_ok htx
  have hfilled := filled_of_fillGasParams hfill
  obtain ⟨chainId, transaction, hvalue, htransaction, hrequest⟩ := finish_eq_ok hfinish
  obtain ⟨hfee, hamount⟩ := fee_of_toTxEnvelope htransaction
  rw [hrequest]
  refine ⟨rfl, rfl, rfl, hheader, hdetails ▸ Simulate.header_of_fillGasParams hfill, ?_, ?_,
    fun hne => ?_, fun hnone hsome hpriced hne => ?_⟩
  · obtain ⟨gas, hgas, hle⟩ := exists_gas_le hfilled hlimit (le_providerGasLimit header)
    rw [gasLimit_of_toTxEnvelope config.maxCodeSize htransaction hgas] at hle
    simpa only [toNat_toU256] using BitVec.le_def.mp hle
  · exact BitVec.le_trans hfilled.fee (BitVec.le_of_eq hfee.symm)
  · have hvalueOf : valueOf transaction.transaction = filled.2.value.getD 0 := hamount
    rw [hvalueOf] at hne ⊢
    exact covers_of_checkValueTransferBalance hvalue hne
  · obtain ⟨sender, hsome⟩ := Option.isSome_iff_exists.mp hsome
    have hfrom : tx.sender = some sender := hsender.trans hsome
    obtain ⟨gas, hgas, hcovers⟩ := exists_gas_covers hfilled (hopen.mpr hnone) hfrom
      (hdetails ▸ hpriced) hfee hne
    have hvalueOf : valueOf transaction.transaction = tx.value.getD 0 :=
      hamount.trans (by rw [← hfilled.value])
    have hto : filled.2.sender.getD zeroAddress = sender := by
      rw [hfilled.sender, hfrom]
      rfl
    rw [gasLimit_of_toTxEnvelope config.maxCodeSize htransaction hgas, toNat_toU256] at hcovers
    rw [hvalueOf, hto]
    exact hcovers

/-- Either there is nothing to run, or one request is run. -/
theorem prepareEthCallAtBlock_cases :
    (∃ e, prepareEthCallAtBlock config params handling key exec runs triedb = ⟨runs, .error e⟩) ∨
      ∃ prepared, prepare config params handling key triedb = .ok prepared ∧
        prepareEthCallAtBlock config params handling key exec runs triedb =
          ⟨runs ++ [prepared.request],
            callResult handling prepared (exec runs prepared.request)⟩ := by
  unfold prepareEthCallAtBlock
  split
  · exact .inl ⟨_, rfl⟩
  · rename_i prepared hprepare
    exact .inr ⟨prepared, hprepare, rfl⟩

/-- A run that is added can be run. -/
theorem mem_requests_of_prepareEthCallAtBlock
    (h : request ∈ (prepareEthCallAtBlock config params handling key exec runs triedb).requests) :
    request ∈ runs ∨ Runnable config params key triedb request := by
  obtain ⟨e, heq⟩ | ⟨prepared, hprepare, heq⟩ := @prepareEthCallAtBlock_cases alloy config params
    handling key exec runs triedb
  · rw [heq] at h
    exact .inl h
  · rw [heq] at h
    rcases List.mem_append.mp h with h | h
    · exact .inl h
    · rw [List.mem_singleton.mp h]
      exact .inr (runnable_of_prepare hprepare)

theorem mem_requests_of_withBlockKey {α : Type} {triedb : Triedb alloy} {block : BlockTagOrHash}
    {f : BlockKey → Handled alloy α} (h : request ∈ (withBlockKey triedb block f).requests) :
    ∃ key, Receipts.getBlockKeyFromTagOrHash triedb.blocks block = some key ∧
      request ∈ (f key).requests := by
  unfold withBlockKey at h
  split at h
  · rename_i key hkey
    exact ⟨key, hkey, h⟩
  · cases h

end Runs

/-! ### Requests that differ in their list -/

/-- A transaction with another list, if it has one. -/
def withAccessList (accessList : AccessList) : TypedTransaction → TypedTransaction
  | .legacy tx => .legacy tx
  | .eip2930 tx => .eip2930 { tx with accessList := accessList }
  | .eip1559 tx => .eip1559 { tx with accessList := accessList }
  | .eip7702 tx => .eip7702 { tx with accessList := accessList }

/-- A request with another list, and another tracer. -/
def EthCallRequest.withList {alloy : ReceiptAlloy} (request : EthCallRequest alloy)
    (accessList : AccessList) (tracer : MonadTracer) : EthCallRequest alloy :=
  { request with
    transaction := ⟨withAccessList accessList request.transaction.transaction,
      request.transaction.signature⟩
    tracer := tracer }

def Prepared.withList {alloy : ReceiptAlloy} (accessList : AccessList) (tracer : MonadTracer)
    (prepared : Prepared alloy) : Prepared alloy :=
  { prepared with request := prepared.request.withList accessList tracer }

section Lists

variable {alloy : ReceiptAlloy} {config : Config alloy} {params : EthCallExecutionParams}
  {handling : OutOfGasHandling} {key : BlockKey} {tx : CallRequest} {triedb : ℕ → Triedb alloy}
  (accessList : AccessList) (tracer : MonadTracer)

theorem capGas_withList {limit : UInt64} : capGas limit handling (withList tx accessList) =
    (capGas limit handling tx).map fun tx => withList tx accessList := by
  obtain ⟨sender, dest, gas⟩ := tx
  cases gas with
  | none => rfl
  | some gas =>
    dsimp only [capGas, withList]
    split
    · cases handling with
      | rpcError => rfl
      | returnAsCallFailure => rfl
    · rfl

theorem normalize_withList :
    normalize config ⟨withList params.transaction accessList, params.stateOverrides, tracer⟩
        handling =
      (normalize config params handling).map fun tx => withList tx accessList := by
  unfold normalize
  change mergeInput params.transaction.input >>= _ = _
  cases mergeInput params.transaction.input with
  | error e => rfl
  | ok input =>
    exact @capGas_withList handling { params.transaction with input := input } accessList
      config.providerGasLimitEthCall

/-- The gas that is allowed does not depend on the list. -/
theorem bind_withList {env : Simulate.Env} {header : Simulate.Header} :
    (Simulate.senderGasAllowance env header (withList tx accessList) >>= fun allowance =>
      pure (header, Simulate.withGas env (withList tx accessList) allowance)) =
    (Simulate.senderGasAllowance env header tx >>= fun allowance =>
      (pure (header, Simulate.withGas env tx allowance) : Result _)).map
      fun filled => (filled.1, withList filled.2 accessList) := by
  change (Simulate.senderGasAllowance env header tx >>= _) = _
  cases Simulate.senderGasAllowance env header tx with
  | error e => rfl
  | ok allowance => rfl

theorem fillGasParams_withList {env : Simulate.Env} {header : Simulate.Header} :
    fillGasParams env header (withList tx accessList) =
      (fillGasParams env header tx).map fun filled => (filled.1, withList filled.2 accessList) := by
  obtain ⟨sender, dest, gas, gasPriceDetails, value, input, nonce, chainId, list, authorizations,
    blobFee, blobs, type⟩ := tx
  unfold fillGasParams
  change (if priced gasPriceDetails then _ else _) = Except.map _ (if _ then _ else _)
  by_cases hpriced : priced gasPriceDetails = true
  · rw [if_pos hpriced, if_pos hpriced]
    dsimp only [withList]
    cases gasPriceDetails.fill header.baseFee with
    | error e => rfl
    | ok details =>
      cases gas with
      | some gas => rfl
      | none => exact @bind_withList ⟨sender, dest, none, details, value, input, nonce, chainId,
          list, authorizations, blobFee, blobs, type⟩ accessList env header
  · rw [if_neg hpriced, if_neg hpriced]
    dsimp only [withList]
    cases gasPriceDetails.fill 0 with
    | error e => rfl
    | ok details =>
      cases gas with
      | some gas => rfl
      | none => rfl

theorem checkChainId_withList {chainId : UInt64} :
    checkChainId chainId (withList tx accessList) =
      (checkChainId chainId tx).map fun tx => withList tx accessList := by
  obtain ⟨sender, dest, gas, gasPriceDetails, value, input, nonce, txChainId⟩ := tx
  cases txChainId with
  | none => rfl
  | some txChainId =>
    dsimp only [checkChainId, withList]
    split
    · rfl
    · rfl

theorem toTxEnvelope_withList {maxCodeSize : ℕ} :
    (withList tx accessList).toTxEnvelope maxCodeSize = (tx.toTxEnvelope maxCodeSize).map
      fun envelope => ⟨withAccessList accessList envelope.transaction, envelope.signature⟩ := by
  obtain ⟨sender, dest, gas, gasPriceDetails, value, input, nonce, chainId, list,
    authorizationList⟩ := tx
  dsimp only [CallRequest.toTxEnvelope, withList]
  cases tryU64 (gas.getD (toU256 (-1))) with
  | error e => rfl
  | ok gasLimit =>
    rw [ok_bind, ok_bind]
    cases gasPriceDetails with
    | legacy gasPrice =>
      dsimp only
      cases tryU128 gasPrice with
      | error e => rfl
      | ok price =>
        dsimp only [ok_bind]
        cases checkedKind maxCodeSize (input.input.getD []) dest with
        | error e => rfl
        | ok kind => rfl
    | eip1559 cap tip =>
      dsimp only
      cases tryU128 (cap.getD 0) with
      | error e => rfl
      | ok fee =>
        rw [ok_bind, ok_bind]
        cases tryU128 (tip.getD 0) with
        | error e => rfl
        | ok priority =>
          rw [ok_bind, ok_bind]
          cases authorizationList with
          | some authorizationList =>
            cases dest with
            | some dest => rfl
            | none => rfl
          | none =>
            dsimp only
            cases checkedKind maxCodeSize (input.input.getD []) dest with
            | error e => rfl
            | ok kind => rfl

theorem finish_withList {triedb : Triedb alloy} {header : alloy.Header}
    {gas : Option (BitVec 256)} {filled : Simulate.Header × CallRequest} :
    finish config ⟨withList params.transaction accessList, params.stateOverrides, tracer⟩ key triedb
        header gas (filled.1, withList filled.2 accessList) =
      (finish config params key triedb header gas filled).map
        (Prepared.withList accessList tracer) := by
  unfold finish
  dsimp only
  rw [checkChainId_withList]
  cases checkChainId config.chainId filled.2 with
  | error e => rfl
  | ok tx =>
    change (checkValueTransferBalance (envAt config triedb key params.stateOverrides header) tx >>=
      _) = _
    dsimp only [ok_bind]
    cases checkValueTransferBalance (envAt config triedb key params.stateOverrides header) tx with
    | error e => rfl
    | ok checked =>
      change (parseEthcallChainId config.supported (tx.chainId.getD 0) >>= _) = _
      rw [ok_bind]
      cases parseEthcallChainId config.supported (tx.chainId.getD 0) with
      | error e => rfl
      | ok chainId =>
        rw [ok_bind, ok_bind, toTxEnvelope_withList]
        cases tx.toTxEnvelope config.maxCodeSize with
        | error e => rfl
        | ok envelope => rfl

/-- **A call with another list is prepared in the same way.** -/
theorem prepare_withList :
    prepare config ⟨withList params.transaction accessList, params.stateOverrides, tracer⟩ handling
        key triedb =
      (prepare config params handling key triedb).map (Prepared.withList accessList tracer) := by
  unfold prepare
  rw [normalize_withList]
  cases normalize config params handling with
  | error e => rfl
  | ok tx =>
    change (readHeader (triedb 0) key >>= _) = _
    rw [ok_bind]
    cases readHeader (triedb 0) key with
    | error e => rfl
    | ok header =>
      rw [ok_bind, ok_bind, fillGasParams_withList]
      dsimp only
      cases fillGasParams (envAt config (triedb 1) key params.stateOverrides header)
        (config.fees header) tx with
      | error e => rfl
      | ok filled => exact finish_withList accessList tracer

/-- Triedb has the same under a key. -/
def SameAt (key : BlockKey) (triedb triedb' : Triedb alloy) : Prop :=
  triedb.blocks.getBlockHeader key = triedb'.blocks.getBlockHeader key ∧
    triedb.getAccount key = triedb'.getAccount key

theorem prepare_congr {triedb' : ℕ → Triedb alloy}
    (h : ∀ i < 3, SameAt key (triedb i) (triedb' i)) :
    prepare config params handling key triedb = prepare config params handling key triedb' := by
  unfold prepare finish readHeader envAt
  rw [(h 0 (by decide)).1, (h 1 (by decide)).2, (h 2 (by decide)).2]

end Lists

/-! ### Lists that are merged -/

/-- A list has a key under an address. -/
def Listed (l : AccessList) (address : Address) (key : B256) : Prop :=
  ∃ item ∈ l, item.address = address ∧ key ∈ item.storageKeys

/-- **A list is the union of two**: it has their addresses and keys, each of them once. -/
structure Merged (l₁ l₂ merged : AccessList) : Prop where
  address : ∀ a, a ∈ merged.map AccessListItem.address ↔
    a ∈ l₁.map AccessListItem.address ∨ a ∈ l₂.map AccessListItem.address
  listed : ∀ a k, Listed merged a k ↔ Listed l₁ a k ∨ Listed l₂ a k
  addresses : (merged.map AccessListItem.address).Nodup
  keys : ∀ item ∈ merged, item.storageKeys.Nodup

section Merge

variable {item : AccessListItem} {map : List AccessListItem} {a : Address} {k : B256}

theorem listed_cons {first : AccessListItem} : Listed (first :: map) a k ↔
    first.address = a ∧ k ∈ first.storageKeys ∨ Listed map a k := by
  unfold Listed
  simp only [List.mem_cons, exists_eq_or_imp]

theorem listed_append {l₁ l₂ : AccessList} :
    Listed (l₁ ++ l₂) a k ↔ Listed l₁ a k ∨ Listed l₂ a k := by
  unfold Listed
  simp only [List.mem_append, or_and_right, exists_or]

/-- What is added is what is there more. -/
theorem listed_extendItem : Listed (extendItem item map) a k ↔
    item.address = a ∧ k ∈ item.storageKeys ∨ Listed map a k := by
  induction map with
  | nil =>
    rw [extendItem, listed_cons]
    simp
  | cons first map ih =>
    rw [extendItem]
    split
    · rename_i heq
      rw [listed_cons, listed_cons, heq, List.mem_union_iff]
      tauto
    · rw [listed_cons, listed_cons, ih]
      tauto

/-- The addresses of a map stay, and one is added if it is a new one. -/
theorem addresses_extendItem : (extendItem item map).map AccessListItem.address =
    if item.address ∈ map.map AccessListItem.address then map.map AccessListItem.address
    else map.map AccessListItem.address ++ [item.address] := by
  induction map with
  | nil => rfl
  | cons first map ih =>
    rw [extendItem]
    by_cases heq : first.address = item.address
    · rw [if_pos heq, if_pos (by simp [heq])]
      rfl
    · rw [if_neg heq, List.map_cons, List.map_cons, ih]
      by_cases hmem : item.address ∈ map.map AccessListItem.address
      · rw [if_pos hmem, if_pos (List.mem_cons_of_mem _ hmem)]
      · rw [if_neg hmem, if_neg (by simpa [Ne.symm heq] using hmem)]
        rfl

theorem nodup_keys_extendItem (h : ∀ i ∈ map, i.storageKeys.Nodup) :
    ∀ i ∈ extendItem item map, i.storageKeys.Nodup := by
  induction map with
  | nil =>
    intro i hi
    rw [List.mem_singleton.mp hi]
    exact List.Nodup.union _ List.nodup_nil
  | cons first map ih =>
    obtain ⟨hfirst, hrest⟩ := List.forall_mem_cons.mp h
    rw [extendItem]
    split
    · exact List.forall_mem_cons.mpr ⟨hfirst.union _, hrest⟩
    · exact List.forall_mem_cons.mpr ⟨hfirst, ih hrest⟩

/-- What a map has once items have been added: what it had, and the items. -/
theorem merged_foldl {items : AccessList}
    (haddresses : (map.map AccessListItem.address).Nodup)
    (hkeys : ∀ i ∈ map, i.storageKeys.Nodup) :
    Merged map items (items.foldl (fun map item => extendItem item map) map) := by
  induction items generalizing map with
  | nil => exact ⟨by simp, by simp [Listed], haddresses, hkeys⟩
  | cons item items ih =>
    have hadd := @addresses_extendItem item map
    have hnodup : ((extendItem item map).map AccessListItem.address).Nodup := by
      rw [hadd]
      split
      · exact haddresses
      · rename_i hnot
        exact List.nodup_append.mpr ⟨haddresses, List.nodup_singleton _, fun a ha b hb h =>
          hnot (List.mem_singleton.mp hb ▸ h ▸ ha)⟩
    have hrest := ih hnodup (nodup_keys_extendItem hkeys)
    refine ⟨fun a => ?_, fun a k => ?_, hrest.addresses, hrest.keys⟩
    · rw [List.foldl_cons, hrest.address, hadd, List.map_cons, List.mem_cons]
      split
      · rename_i hmem
        constructor
        · rintro (h | h)
          · exact .inl h
          · exact .inr (.inr h)
        · rintro (h | rfl | h)
          · exact .inl h
          · exact .inl hmem
          · exact .inr h
      · rw [List.mem_append, List.mem_singleton, or_assoc]
    · rw [List.foldl_cons, hrest.listed, listed_extendItem, listed_cons]
      tauto

/-- **A merge is a union**, in the orders that the map and its sets have. -/
theorem merged_mergeAccessLists {orders : MergeOrders} {generated original : AccessList} :
    Merged generated original (mergeAccessLists orders generated (some original)) := by
  have hmap : Merged [] (generated ++ original) (accessMap (generated ++ original)) :=
    merged_foldl List.nodup_nil (by simp)
  have haddresses : (mergeAccessLists orders generated (some original)).map
      AccessListItem.address =
      (orders.items.order (accessMap (generated ++ original))).map AccessListItem.address := by
    rw [mergeAccessLists, List.map_map]
    rfl
  have hperm := orders.items.perm (accessMap (generated ++ original))
  refine ⟨fun a => ?_, fun a k => ?_, ?_, fun item hitem => ?_⟩
  · rw [haddresses, (hperm.map _).mem_iff, hmap.address]
    simp
  · have hlisted := hmap.listed a k
    have hnil : ¬Listed [] a k := by
      rintro ⟨_, h, -⟩
      cases h
    rw [listed_append, or_iff_right hnil] at hlisted
    rw [← hlisted]
    constructor
    · rintro ⟨item, hitem, haddress, hkey⟩
      obtain ⟨i, hi, rfl⟩ := List.mem_map.mp hitem
      exact ⟨i, (orders.items.mem_order _ i).mp hi, haddress,
        ((orders.keys i.address).mem_order _ k).mp hkey⟩
    · rintro ⟨i, hi, haddress, hkey⟩
      exact ⟨_, List.mem_map.mpr ⟨i, (orders.items.mem_order _ i).mpr hi, rfl⟩, haddress,
        ((orders.keys i.address).mem_order _ k).mpr hkey⟩
  · rw [haddresses]
    exact (hperm.map _).nodup_iff.mpr hmap.addresses
  · obtain ⟨i, hi, rfl⟩ := List.mem_map.mp hitem
    exact (orders.keys i.address).nodup_order (hmap.keys i ((orders.items.mem_order _ i).mp hi))

end Merge

/-! ### A triedb that does not change -/

def sampleConfig : Config ReceiptAlloy.sample where
  providerGasLimitEthCall := 30000000
  chainId := 1
  supported := fun chainId => chainId == 1
  maxCodeSize := 131072
  fees := fun _ => ⟨some 100, 200000000⟩

def sampleTriedb : Triedb ReceiptAlloy.sample := ⟨Receipts.sampleTriedb, fun _ _ => .ok 1000000000⟩

/-- Every call is a success, and returns one byte. -/
def sampleExecutor : Executor ReceiptAlloy.sample := fun _ _ => .ok ⟨21000, 0, [1]⟩

/-- A request that leaves the gas open. -/
def sampleCall (details : GasPriceDetails) : CallRequest :=
  { CallRequest.default with
    sender := some zeroAddress
    gasPriceDetails := details
    value := some 5
    accessList := some [⟨zeroAddress, [word 2, word 1]⟩] }

/-- Every trace is the list of one key. -/
def sampleFromSlice : Bytes → Except String AccessList :=
  fun _ => .ok [⟨zeroAddress, [word 1]⟩]

def sampleOrders : MergeOrders := ⟨inOrder _, fun _ => inOrder _⟩

/-! ### What the handlers run -/

section Handlers

variable {alloy : ReceiptAlloy} {config : Config alloy} {exec : Executor alloy}
  {orders : MergeOrders} {fromSlice : Bytes → Except String AccessList} {transaction : CallRequest}
  {stateOverrides : StateOverrideSet} {block : BlockTagOrHash} {triedb : ℕ → Triedb alloy}
  {request : EthCallRequest alloy}

/-- **What `eth_call` runs can be run**, under the key that the block had first. -/
theorem runnable_of_monadEthCall (h : request ∈
      (monadEthCall config exec transaction stateOverrides block triedb).requests) :
    ∃ key, Receipts.getBlockKeyFromTagOrHash (triedb 0).blocks block = some key ∧
      Runnable config ⟨transaction, stateOverrides, .noopTracer⟩ key (fun i => triedb (i + 1))
        request := by
  obtain ⟨key, hkey, h⟩ := mem_requests_of_withBlockKey h
  exact ⟨key, hkey, (mem_requests_of_prepareEthCallAtBlock h).resolve_left (by simp)⟩

/-- **What is left after the value pays for the gas**, also where the limit is higher. -/
theorem runnable_of_monadEthCall_sample : ∃ request ∈
    (monadEthCall sampleConfig sampleExecutor (sampleCall (.legacy 150)) (fun _ => none)
      (.blockTags .latest) fun _ => sampleTriedb).requests,
    request.transaction.gasLimit = 6666666 ∧
    ∃ key, Receipts.getBlockKeyFromTagOrHash sampleTriedb.blocks (.blockTags .latest) = some key ∧
      Runnable sampleConfig ⟨sampleCall (.legacy 150), fun _ => none, .noopTracer⟩ key
        (fun _ => sampleTriedb) request := by
  have hgas : (monadEthCall sampleConfig sampleExecutor (sampleCall (.legacy 150)) (fun _ => none)
      (.blockTags .latest) fun _ => sampleTriedb).requests.map
      (fun request => request.transaction.gasLimit) = [6666666] := by decide
  obtain ⟨request, hrequests, hlimit⟩ := List.map_eq_singleton_iff.mp hgas
  have hmem : request ∈ (monadEthCall sampleConfig sampleExecutor (sampleCall (.legacy 150))
      (fun _ => none) (.blockTags .latest) fun _ => sampleTriedb).requests :=
    hrequests ▸ List.mem_singleton_self request
  exact ⟨request, hmem, hlimit, runnable_of_monadEthCall hmem⟩

/-- **What `eth_createAccessList` runs can be run**, twice under the key that the block had first,
also when the block has another one by then. -/
theorem runnable_of_monadCreateAccessList (h : request ∈ (monadCreateAccessList config exec orders
      fromSlice transaction stateOverrides block triedb).requests) :
    ∃ key, Receipts.getBlockKeyFromTagOrHash (triedb 0).blocks block = some key ∧
      (Runnable config ⟨transaction, stateOverrides, .accessListTracer⟩ key
        (fun i => triedb (i + 1)) request ∨
      ∃ accessList, Runnable config ⟨withList transaction
        (mergeAccessLists orders accessList transaction.accessList), stateOverrides, .noopTracer⟩
        key (fun i => triedb (i + 4)) request) := by
  obtain ⟨key, hkey, h⟩ := mem_requests_of_withBlockKey h
  refine ⟨key, hkey, ?_⟩
  unfold followUp at h
  split at h
  · exact .inl ((mem_requests_of_prepareEthCallAtBlock h).resolve_left (by simp))
  · rename_i accessList _
    rcases mem_requests_of_prepareEthCallAtBlock h with h | h
    · exact .inl ((mem_requests_of_prepareEthCallAtBlock h).resolve_left (by simp))
    · exact .inr ⟨accessList, h⟩

/-- **Two runs**, of which both can be run. -/
theorem runnable_of_monadCreateAccessList_sample : ∃ first second,
    (monadCreateAccessList sampleConfig sampleExecutor sampleOrders sampleFromSlice
      (sampleCall (.legacy 150)) (fun _ => none) (.blockTags .latest)
      fun _ => sampleTriedb).requests = [first, second] ∧
    ∀ request ∈ [first, second], ∃ key, Receipts.getBlockKeyFromTagOrHash sampleTriedb.blocks
        (.blockTags .latest) = some key ∧
      (Runnable sampleConfig ⟨sampleCall (.legacy 150), fun _ => none, .accessListTracer⟩ key
        (fun _ => sampleTriedb) request ∨
      ∃ accessList, Runnable sampleConfig ⟨withList (sampleCall (.legacy 150))
        (mergeAccessLists sampleOrders accessList (sampleCall (.legacy 150)).accessList),
        fun _ => none, .noopTracer⟩ key (fun _ => sampleTriedb) request) := by
  obtain ⟨first, second, hrequests⟩ := List.length_eq_two.mp (show (monadCreateAccessList
    sampleConfig sampleExecutor sampleOrders sampleFromSlice (sampleCall (.legacy 150))
    (fun _ => none) (.blockTags .latest) fun _ => sampleTriedb).requests.length = 2 by decide)
  refine ⟨first, second, hrequests, fun request hmem => ?_⟩
  rw [← hrequests] at hmem
  exact runnable_of_monadCreateAccessList hmem

/-- What the first run of `eth_createAccessList` has given. -/
def Traced (exec : Executor alloy) (fromSlice : Bytes → Except String AccessList)
    (first : EthCallRequest alloy) (accessList : AccessList) : Prop :=
  ∃ prepared : Prepared alloy, prepared.request = first ∧
    (callResult .returnAsCallFailure prepared (exec [] first) >>=
      accessListFromTraceCallResult fromSlice) = .ok accessList

variable {first second : EthCallRequest alloy} {params : EthCallExecutionParams}
  {handling : OutOfGasHandling} {key : BlockKey} {accessList : AccessList}

theorem withAccessList_of_toTxEnvelope {tx : CallRequest} {maxCodeSize : ℕ} {envelope : TxEnvelope}
    (h : tx.toTxEnvelope maxCodeSize = .ok envelope)
    (hlegacy : isLegacy tx.gasPriceDetails = true) :
    withAccessList accessList envelope.transaction = envelope.transaction := by
  cases hdetails : tx.gasPriceDetails with
  | legacy gasPrice =>
    obtain ⟨gasLimit, price, -, -, -, rfl⟩ := (envelope_legacy hdetails).mp h
    rfl
  | eip1559 cap tip =>
    rw [hdetails] at hlegacy
    cases hlegacy

/-- A request with a gas price makes a transaction without a list. -/
theorem withAccessList_of_prepare {prepared : Prepared alloy}
    (h : prepare config params handling key triedb = .ok prepared)
    (hlegacy : isLegacy params.transaction.gasPriceDetails = true) :
    withAccessList accessList prepared.request.transaction.transaction =
      prepared.request.transaction.transaction := by
  obtain ⟨tx, header, filled, htx, -, hfill, hfinish⟩ := prepare_eq_ok h
  obtain ⟨-, hdetails, -⟩ := normalize_eq_ok htx
  obtain ⟨chainId, transaction, -, htransaction, hrequest⟩ := finish_eq_ok hfinish
  have hfilled : isLegacy filled.2.gasPriceDetails = true := by
    rw [(filled_of_fillGasParams hfill).legacy, hdetails, hlegacy]
  rw [hrequest]
  exact withAccessList_of_toTxEnvelope htransaction hfilled

/-- **The two runs of `eth_createAccessList`**, if nothing has changed in triedb between them: the
second one is of the same request with the list that the first one has given, or with the union of
this list and that of the request. Of a request with a gas price both run the same transaction. -/
theorem monadCreateAccessList_runs
    (h : (monadCreateAccessList config exec orders fromSlice transaction stateOverrides block
      triedb).requests = [first, second])
    (hsame : ∀ key, Receipts.getBlockKeyFromTagOrHash (triedb 0).blocks block = some key →
      ∀ i < 3, SameAt key (triedb (i + 1)) (triedb (i + 4))) :
    ∃ accessList merged, Traced exec fromSlice first accessList ∧
      second = first.withList merged .noopTracer ∧
      (transaction.accessList = none → merged = accessList) ∧
      (∀ original, transaction.accessList = some original → Merged accessList original merged) ∧
      (isLegacy transaction.gasPriceDetails = true → second.transaction = first.transaction) := by
  have hmem : first ∈ (monadCreateAccessList config exec orders fromSlice transaction stateOverrides
      block triedb).requests := h ▸ List.mem_cons_self
  obtain ⟨key, hkey, -⟩ := mem_requests_of_withBlockKey hmem
  unfold monadCreateAccessList withBlockKey at h
  rw [hkey] at h
  dsimp only [trace] at h
  obtain ⟨e, heq⟩ | ⟨prepared, hprepare, heq⟩ := @prepareEthCallAtBlock_cases alloy config
    ⟨transaction, stateOverrides, .accessListTracer⟩ .returnAsCallFailure key exec []
    (fun i => triedb (i + 1))
  · rw [heq] at h
    cases h
  · rw [heq] at h
    unfold followUp Handled.andThen at h
    dsimp only at h
    split at h
    · cases h
    · rename_i accessList hanswer
      have hsecond := @prepare_withList alloy config
        ⟨transaction, stateOverrides, .accessListTracer⟩ .returnAsCallFailure key
        (fun i => triedb (i + 1))
        (mergeAccessLists orders accessList transaction.accessList) .noopTracer
      rw [prepare_congr (hsame key hkey), hprepare] at hsecond
      unfold prepareEthCallAtBlock at h
      rw [hsecond] at h
      obtain ⟨rfl, hrest⟩ := List.cons_eq_cons.mp h
      obtain ⟨rfl, -⟩ := List.cons_eq_cons.mp hrest
      refine ⟨accessList, _, ⟨prepared, rfl, hanswer⟩, rfl, fun hnone => ?_,
        fun original hsome => ?_, fun hlegacy => ?_⟩
      · rw [hnone]
        rfl
      · rw [hsome]
        exact merged_mergeAccessLists
      · exact congrArg (fun tx => TxEnvelope.mk tx prepared.request.transaction.signature)
          (withAccessList_of_prepare hprepare hlegacy)

/-- **A request with a fee cap**, whose second run has the keys of both lists. -/
theorem monadCreateAccessList_runs_sample : ∃ first second accessList merged,
    (monadCreateAccessList sampleConfig sampleExecutor sampleOrders sampleFromSlice
      (sampleCall (.eip1559 (some 150) none)) (fun _ => none) (.blockTags .latest)
      fun _ => sampleTriedb).requests = [first, second] ∧
    Traced sampleExecutor sampleFromSlice first accessList ∧
    second = first.withList merged .noopTracer ∧
    Merged accessList [⟨zeroAddress, [word 2, word 1]⟩] merged := by
  obtain ⟨first, second, hrequests⟩ := List.length_eq_two.mp (show (monadCreateAccessList
    sampleConfig sampleExecutor sampleOrders sampleFromSlice (sampleCall (.eip1559 (some 150) none))
    (fun _ => none) (.blockTags .latest) fun _ => sampleTriedb).requests.length = 2 by decide)
  obtain ⟨accessList, merged, htraced, hsecond, -, hmerged, -⟩ :=
    monadCreateAccessList_runs hrequests fun _ _ _ _ => ⟨rfl, rfl⟩
  exact ⟨first, second, accessList, merged, hrequests, htraced, hsecond, hmerged _ rfl⟩

end Handlers

end EthCall

end Rpc

end MonadServices
