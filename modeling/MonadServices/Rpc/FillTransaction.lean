import MonadServices.Rpc.EstimateGas

/-!
# Transactions that are filled in

`eth_fillTransaction` completes a request and returns the bytes that are to be signed, with the
request as it was completed. The gas limit is estimated with a transaction that is made from the
request, and the bytes are those of a transaction that is made from it again, by other code. The two
choose the type of the transaction, the defaults for what is missing and the conversions of its
numbers on their own.

**They make the same transaction** from a request that has been filled in, except that one checks
the size of a contract that is created where the other one does not
(`MonadServices.Rpc.FillTransaction.buildFillTransactionEnvelope_eq_ok`): they agree if and only if
there is no contract that is too large, in a transaction that has no other fault
(`MonadServices.Rpc.FillTransaction.agrees_iff`).
-/

namespace MonadServices

namespace Rpc

namespace FillTransaction

open Jsonrpc EstimateGas

/-! ### The types of transactions -/

def legacyTxTypeId : UInt8 := 0

def eip2930TxTypeId : UInt8 := 1

def eip1559TxTypeId : UInt8 := 2

def eip4844TxTypeId : UInt8 := 3

def eip7702TxTypeId : UInt8 := 4

def isLegacy : GasPriceDetails → Bool
  | .legacy _ => true
  | .eip1559 _ _ => false

def requiresEip2930Encoding (tx : CallRequest) : Bool :=
  match tx.gasPriceDetails with
  | .legacy _ =>
    match tx.transactionType with
    | some transactionType => transactionType == eip2930TxTypeId
    | none => tx.accessList.isSome
  | .eip1559 _ _ => false

/-- The type that the fields of a request are those of. -/
def expectedType (tx : CallRequest) : UInt8 :=
  match tx.gasPriceDetails with
  | .legacy _ => if tx.accessList.isSome then eip2930TxTypeId else legacyTxTypeId
  | .eip1559 _ _ => if tx.authorizationList.isSome then eip7702TxTypeId else eip1559TxTypeId

def validateFillTransactionType (tx : CallRequest) : Result Unit :=
  match tx.transactionType with
  | none => .ok ()
  | some transactionType =>
    if expectedType tx = transactionType then .ok () else fail .invalidParams

/-! ### The two ways to a transaction -/

section Build

variable (maxCodeSize : ℕ) (tx : CallRequest) (chainId : UInt64)

/-- The check of a contract that is created. -/
def checkIfCreated : Result Unit :=
  if tx.dest.isNone then checkContractCreationSize maxCodeSize tx.input.input else .ok ()

def buildFillTransactionEip2930 : Result TxEip2930 := do
  checkIfCreated maxCodeSize tx
  match tx.gasPriceDetails with
  | .eip1559 _ _ =>
    .error (.panic "EIP-2930 fill transaction builder requires legacy gas price details")
  | .legacy gasPrice => do
    let gasPrice ← tryU128 gasPrice
    let gasLimit ← tryU64 (tx.gas.getD 0)
    return ⟨chainId, tx.nonce.getD 0, gasPrice, gasLimit, (tx.dest.map TxKind.call).getD .create,
      tx.value.getD 0, tx.accessList.getD [], tx.input.input.getD []⟩

/-- `build_fill_transaction_envelope`. -/
def buildFillTransactionEnvelope : Result TxEnvelope :=
  if requiresEip2930Encoding tx then do
    let transaction ← buildFillTransactionEip2930 maxCodeSize tx chainId
    return TypedTransaction.intoSigned (.eip2930 transaction)
  else tx.toTxEnvelope maxCodeSize

/-- The transaction that `build_unsigned_transaction` encodes. -/
def unsignedTransaction : Result TypedTransaction := do
  let nonce := tx.nonce.getD 0
  let gasLimit ← tryU64 (tx.gas.getD 0)
  let value := tx.value.getD 0
  let input := tx.input.input.getD []
  match tx.gasPriceDetails with
  | .legacy gasPrice =>
    if requiresEip2930Encoding tx then do
      let unsigned ← buildFillTransactionEip2930 maxCodeSize tx chainId
      return .eip2930 unsigned
    else do
      let gasPrice ← tryU128 gasPrice
      return .legacy ⟨some chainId, nonce, gasPrice, gasLimit,
        (tx.dest.map TxKind.call).getD .create, value, input⟩
  | .eip1559 maxFeePerGas maxPriorityFeePerGas =>
    match tx.authorizationList with
    | some authList => do
      let maxFeePerGas ← tryU128 (maxFeePerGas.getD 0)
      let maxPriorityFeePerGas ← tryU128 (maxPriorityFeePerGas.getD 0)
      match tx.dest with
      | none => fail .invalidParams
      | some dest => return .eip7702 ⟨chainId, nonce, gasLimit, maxFeePerGas, maxPriorityFeePerGas,
          dest, value, tx.accessList.getD [], authList, input⟩
    | none => do
      let maxFeePerGas ← tryU128 (maxFeePerGas.getD 0)
      let maxPriorityFeePerGas ← tryU128 (maxPriorityFeePerGas.getD 0)
      return .eip1559 ⟨chainId, nonce, gasLimit, maxFeePerGas, maxPriorityFeePerGas,
        (tx.dest.map TxKind.call).getD .create, value, tx.accessList.getD [], input⟩

/-- The request as `build_unsigned_transaction` returns it. -/
def filledRequest : CallRequest :=
  { tx with
    sender := some (tx.sender.getD ⟨List.replicate 20 0, List.length_replicate⟩)
    gas := some (tx.gas.getD 0)
    value := some (tx.value.getD 0)
    nonce := some (tx.nonce.getD 0)
    chainId := some (tx.chainId.getD chainId)
    transactionType := if requiresEip2930Encoding tx then some eip2930TxTypeId
      else tx.transactionType }

/-- `build_unsigned_transaction`. The bytes for a signature are those of `encode_for_signing`. -/
def buildUnsignedTransaction (encodeForSigning : TypedTransaction → Bytes) :
    Result (UnformattedData × CallRequest) := do
  let unsigned ← unsignedTransaction maxCodeSize tx chainId
  return (⟨encodeForSigning unsigned⟩, filledRequest tx chainId)

end Build

/-! ### Filling in -/

/-- The input may come in two fields, and is moved to the first one. -/
def mergeInput : CallInput → Result CallInput
  | ⟨some input, some data⟩ =>
    if input ≠ data then fail .invalidParams else .ok ⟨some input, none⟩
  | ⟨none, data⟩ => .ok ⟨data, none⟩
  | ⟨input, none⟩ => .ok ⟨input, none⟩

/-- A limit of zero is none. -/
def withoutZeroGas (tx : CallRequest) : CallRequest :=
  { tx with gas := if tx.gas = some 0 then none else tx.gas }

/-- The checks of the lists and the type. -/
def checkNormalized (tx : CallRequest) : Result CallRequest :=
  if isLegacy tx.gasPriceDetails && tx.authorizationList.isSome then fail .invalidParams
  else do
    validateFillTransactionType tx
    return tx

def rejectBlobs (tx : CallRequest) : Result CallRequest :=
  if tx.transactionType == some eip4844TxTypeId || tx.maxFeePerBlobGas.isSome ||
      tx.blobVersionedHashes.isSome then
    fail .invalidParams
  else .ok tx

def normalizeFillTransactionRequest (tx : CallRequest) : Result CallRequest := do
  let input ← mergeInput tx.input
  let tx ← rejectBlobs { tx with input := input }
  checkNormalized (withoutZeroGas tx)

def maxU256 (a b : BitVec 256) : BitVec 256 := if a ≤ b then b else a

/-- A fee cap that is filled in, with a tip. A cap of zero is none. -/
def fillCap (currentBaseFee defaultFillBaseFee tip : BitVec 256) :
    Option (BitVec 256) → Result GasPriceDetails
  | none => GasPriceDetails.fill defaultFillBaseFee (.eip1559 none (some tip))
  | some maxFeePerGas =>
    if maxFeePerGas ≠ 0 then
      .ok (.eip1559 (some (maxU256 (maxU256 maxFeePerGas currentBaseFee) tip)) (some tip))
    else GasPriceDetails.fill defaultFillBaseFee (.eip1559 none (some tip))

/-- `fill_transaction_gas_price_details`. -/
def fillTransactionGasPriceDetails (currentBaseFee defaultFillBaseFee : BitVec 256)
    (suggestedPriorityFee : Option (BitVec 256)) : GasPriceDetails → Result GasPriceDetails
  | .legacy gasPrice => GasPriceDetails.fill defaultFillBaseFee (.legacy gasPrice)
  | .eip1559 maxFeePerGas maxPriorityFeePerGas =>
    fillCap currentBaseFee defaultFillBaseFee
      (maxPriorityFeePerGas.getD (suggestedPriorityFee.getD 0)) maxFeePerGas

/-- `suggested_priority_fee`. -/
def suggestedPriorityFee : UInt64 := 2000000000

/-- What is read of the chain. -/
structure Latest where
  baseFeePerGas : Option UInt64
  gasLimit : UInt64
  /-- The nonce of an account, or what is wrong. -/
  nonce : Address → Except String UInt64

/-- `U256::saturating_mul` by 3, and a division by 2. -/
def threeHalves (baseFee : UInt64) : BitVec 256 := toU256 baseFee * 3 / 2

/-- The nonce of a request, or that of its account. -/
def nonceOf (latest : Latest) (sender : Address) : Option UInt64 → Result UInt64
  | some nonce => .ok nonce
  | none =>
    match latest.nonce sender with
    | .ok nonce => .ok nonce
    | .error e => fail (.internalError e)

def fillFees (baseFee : UInt64) (details : GasPriceDetails) : Result GasPriceDetails :=
  if isLegacy details then
    fillTransactionGasPriceDetails (toU256 baseFee) (toU256 baseFee) none details
  else fillTransactionGasPriceDetails (toU256 baseFee) (threeHalves baseFee)
    (some (toU256 suggestedPriorityFee)) details

/-- What is filled in before the gas: value, chain, nonce and fees. -/
def fillFields (chainId : UInt64) (latest : Option Latest) (tx : CallRequest) :
    Result (Latest × CallRequest) :=
  match tx.sender with
  | none => fail .invalidParams
  | some sender =>
    match latest with
    | none => fail .blockNotFound
    | some latest => do
      let nonce ← nonceOf latest sender tx.nonce
      let gasPriceDetails ← fillFees (latest.baseFeePerGas.getD 0) tx.gasPriceDetails
      return (latest, { tx with
        value := some (tx.value.getD 0)
        chainId := some chainId
        nonce := some nonce
        gasPriceDetails := gasPriceDetails })

/-- What `eth_fillTransaction` depends on. -/
structure Env where
  maxCodeSize : ℕ
  chainId : UInt64
  /-- The limit of the provider for the gas of estimates. -/
  providerGasLimit : UInt64
  latest : Option Latest
  exec : Executor
  encodeForSigning : TypedTransaction → Bytes
  overflowChecks : Bool

/-! ### The builder of the search -/

section Builder

variable {maxCodeSize : ℕ} {tx : CallRequest} {chainId : UInt64}

theorem isLegacy_of_requires (h : requiresEip2930Encoding tx = true) :
    ∃ gasPrice, tx.gasPriceDetails = .legacy gasPrice := by
  unfold requiresEip2930Encoding at h
  split at h
  · rename_i gasPrice hdetails
    exact ⟨gasPrice, hdetails⟩
  · cases h

theorem noPanic_checkIfCreated : NoPanic (checkIfCreated maxCodeSize tx) := by
  unfold checkIfCreated checkContractCreationSize
  split
  · split
    · exact .ok _
    · split
      · exact noPanic_fail _
      · exact .ok _
  · exact .ok _

/-- The transaction is made with a gas price. -/
theorem noPanic_buildFillTransactionEip2930 (h : requiresEip2930Encoding tx = true) :
    NoPanic (buildFillTransactionEip2930 maxCodeSize tx chainId) := by
  obtain ⟨gasPrice, hdetails⟩ := isLegacy_of_requires h
  unfold buildFillTransactionEip2930
  rw [hdetails]
  exact noPanic_checkIfCreated.bind fun _ _ => (noPanic_tryU128 _).bind fun _ _ =>
    (noPanic_tryU64 _).bind fun _ _ => .ok _

theorem noPanic_buildFillTransactionEnvelope :
    NoPanic (buildFillTransactionEnvelope maxCodeSize tx chainId) := by
  unfold buildFillTransactionEnvelope
  split
  · rename_i h
    exact (noPanic_buildFillTransactionEip2930 h).bind fun _ _ => .ok _
  · exact noPanic_toTxEnvelope maxCodeSize tx

/-- What a transaction with an access list and a gas price is made of. -/
theorem buildFillTransactionEip2930_eq_ok {unsigned : TxEip2930} {gasPrice : BitVec 256}
    (hdetails : tx.gasPriceDetails = .legacy gasPrice) :
    buildFillTransactionEip2930 maxCodeSize tx chainId = .ok unsigned ↔
      checkIfCreated maxCodeSize tx = .ok () ∧ ∃ price gasLimit, tryU128 gasPrice = .ok price ∧
        tryU64 (tx.gas.getD 0) = .ok gasLimit ∧ unsigned = ⟨chainId, tx.nonce.getD 0, price,
          gasLimit, (tx.dest.map TxKind.call).getD .create, tx.value.getD 0,
          tx.accessList.getD [], tx.input.input.getD []⟩ := by
  unfold buildFillTransactionEip2930
  rw [hdetails]
  constructor
  · intro h
    obtain ⟨⟨⟩, hcheck, h⟩ := bind_eq_ok.mp h
    obtain ⟨price, hprice, h⟩ := bind_eq_ok.mp h
    obtain ⟨gasLimit, hlimit, h⟩ := bind_eq_ok.mp h
    exact ⟨hcheck, price, gasLimit, hprice, hlimit, (Except.ok.inj h).symm⟩
  · rintro ⟨hcheck, price, gasLimit, hprice, hlimit, rfl⟩
    rw [hcheck, ok_bind]
    change (tryU128 gasPrice >>= _) = _
    rw [hprice, ok_bind, hlimit, ok_bind]
    rfl

theorem gasLimit_of_buildFillTransactionEnvelope {envelope : TxEnvelope} {gas : BitVec 256}
    (h : buildFillTransactionEnvelope maxCodeSize tx chainId = .ok envelope)
    (hgas : tx.gas = some gas) : gas = toU256 envelope.gasLimit := by
  unfold buildFillTransactionEnvelope at h
  split at h
  · rename_i hrequires
    obtain ⟨gasPrice, hdetails⟩ := isLegacy_of_requires hrequires
    obtain ⟨unsigned, hunsigned, h⟩ := bind_eq_ok.mp h
    obtain ⟨-, price, gasLimit, -, hlimit, rfl⟩ :=
      (buildFillTransactionEip2930_eq_ok hdetails).mp hunsigned
    rw [hgas] at hlimit
    rw [← Except.ok.inj h]
    exact tryU64_eq_ok.mp hlimit
  · exact gasLimit_of_toTxEnvelope maxCodeSize h hgas

/-- The builder that gas is estimated with here. -/
def fillBuilder (maxCodeSize : ℕ) (chainId : UInt64) : TxBuilder where
  build := fun tx => buildFillTransactionEnvelope maxCodeSize tx chainId
  noPanic := fun _ => noPanic_buildFillTransactionEnvelope
  gasLimit_eq := fun _ _ _ => gasLimit_of_buildFillTransactionEnvelope

end Builder

/-! ### The handler -/

section Handler

variable (env : Env) (fuel : ℕ)

/-- The gas is estimated where it is missing. -/
def fillGas (latest : Latest) (tx : CallRequest) : Option (Result CallRequest) :=
  match tx.gas with
  | some _ => some (.ok tx)
  | none =>
    let gasLimit := if env.providerGasLimit ≤ latest.gasLimit then env.providerGasLimit
      else latest.gasLimit
    (estimateGasWithBuilder env.exec (fillBuilder env.maxCodeSize env.chainId) env.overflowChecks
      { tx with gas := some (toU256 gasLimit) } (toU256 latest.gasLimit) gasLimit latest.gasLimit
      fuel).map fun r => r.map fun estimated =>
        { tx with gas := some (toU256 estimated.1.value) }

/-- A request that has been filled in. -/
def fillRequest (tx : CallRequest) : Option (Result CallRequest) :=
  match normalizeFillTransactionRequest tx >>= fillFields env.chainId env.latest with
  | .error e => some (.error e)
  | .ok (latest, tx) => fillGas env fuel latest tx

/-- `fill_transaction_with_provider`. -/
def fillTransactionWithProvider (tx : CallRequest) :
    Option (Result (UnformattedData × CallRequest)) :=
  (fillRequest env fuel tx).map fun r => r >>= fun tx =>
    buildUnsignedTransaction env.maxCodeSize tx env.chainId env.encodeForSigning

end Handler

/-! ### What is asked of the two ways -/

/-- A number as one of 256 bits. -/
def widen (n : BitVec 128) : BitVec 256 := n.setWidth 256

/-- The type of the transaction that a request describes: the one that it names, or that of its
fields. -/
def describedType (request : CallRequest) : UInt8 :=
  request.transactionType.getD (expectedType request)

/-- What transactions of all types have, in a request. -/
structure DescribesCall (request : CallRequest) (chainId nonce gasLimit : UInt64) (dest : TxKind)
    (value : BitVec 256) (input : Bytes) : Prop where
  chainId : request.chainId = some chainId
  nonce : request.nonce = some nonce
  gas : request.gas = some (toU256 gasLimit)
  dest : (request.dest.map TxKind.call).getD .create = dest
  value : request.value = some value
  input : request.input.input.getD [] = input
  data : request.input.data = none
  noBlobs : request.maxFeePerBlobGas = none ∧ request.blobVersionedHashes = none

/-- **A request describes a transaction**: it has its type and its fields. -/
def Describes (request : CallRequest) : TypedTransaction → Prop
  | .legacy tx => describedType request = legacyTxTypeId ∧
    (∃ chainId, tx.chainId = some chainId ∧
      DescribesCall request chainId tx.nonce tx.gasLimit tx.dest tx.value tx.input) ∧
    request.gasPriceDetails = .legacy (widen tx.gasPrice) ∧
    request.accessList = none ∧ request.authorizationList = none
  | .eip2930 tx => describedType request = eip2930TxTypeId ∧
    DescribesCall request tx.chainId tx.nonce tx.gasLimit tx.dest tx.value tx.input ∧
    request.gasPriceDetails = .legacy (widen tx.gasPrice) ∧
    request.accessList = some tx.accessList ∧ request.authorizationList = none
  | .eip1559 tx => describedType request = eip1559TxTypeId ∧
    DescribesCall request tx.chainId tx.nonce tx.gasLimit tx.dest tx.value tx.input ∧
    request.gasPriceDetails =
      .eip1559 (some (widen tx.maxFeePerGas)) (some (widen tx.maxPriorityFeePerGas)) ∧
    request.accessList.getD [] = tx.accessList ∧ request.authorizationList = none
  | .eip7702 tx => describedType request = eip7702TxTypeId ∧
    DescribesCall request tx.chainId tx.nonce tx.gasLimit (.call tx.dest) tx.value tx.input ∧
    request.gasPriceDetails =
      .eip1559 (some (widen tx.maxFeePerGas)) (some (widen tx.maxPriorityFeePerGas)) ∧
    request.accessList.getD [] = tx.accessList ∧
    request.authorizationList = some tx.authorizationList

/-- **The two ways agree** on a request that has been filled in: they succeed together, and what is
returned is of the transaction that the gas was estimated with. -/
structure Agrees (env : Env) (tx : CallRequest) : Prop where
  succeeds_iff :
    (∃ r, buildUnsignedTransaction env.maxCodeSize tx env.chainId env.encodeForSigning = .ok r) ↔
      ∃ envelope, buildFillTransactionEnvelope env.maxCodeSize tx env.chainId = .ok envelope
  same : ∀ raw filled envelope,
    buildUnsignedTransaction env.maxCodeSize tx env.chainId env.encodeForSigning =
      .ok (raw, filled) →
    buildFillTransactionEnvelope env.maxCodeSize tx env.chainId = .ok envelope →
    raw.data = env.encodeForSigning envelope.transaction ∧ Describes filled envelope.transaction

/-- A contract that is too large is created, by a transaction without a check of it. -/
def Oversized (maxCodeSize : ℕ) (tx : CallRequest) : Prop :=
  tx.dest = none ∧ requiresEip2930Encoding tx = false ∧ tx.authorizationList = none ∧
    2 * maxCodeSize < (tx.input.input.getD []).length

/-- The gas and the fees fit into a transaction. -/
def Fits (tx : CallRequest) : Prop :=
  (∃ gasLimit, tx.gas.getD 0 = toU256 gasLimit) ∧
    match tx.gasPriceDetails with
    | .legacy gasPrice => ∃ price, gasPrice = widen price
    | .eip1559 maxFeePerGas maxPriorityFeePerGas =>
      (∃ fee, maxFeePerGas.getD 0 = widen fee) ∧ ∃ tip, maxPriorityFeePerGas.getD 0 = widen tip

/-- **What holds of a request that has been filled in.** -/
structure Filled (chainId : UInt64) (tx : CallRequest) : Prop where
  gas : tx.gas.isSome
  value : tx.value.isSome
  nonce : tx.nonce.isSome
  chainId : tx.chainId = some chainId
  fees : ∀ fee tip, tx.gasPriceDetails = .eip1559 fee tip → fee.isSome ∧ tip.isSome
  transactionType : ∀ t, tx.transactionType = some t → expectedType tx = t
  unauthorized : isLegacy tx.gasPriceDetails = true → tx.authorizationList = none
  data : tx.input.data = none
  noBlobs : tx.maxFeePerBlobGas = none ∧ tx.blobVersionedHashes = none

/-! ### A request that has been filled in -/

section Filling

variable {env : Env} {fuel : ℕ} {request tx : CallRequest}

theorem data_of_mergeInput {input merged : CallInput} (h : mergeInput input = .ok merged) :
    merged.data = none := by
  unfold mergeInput at h
  split at h
  · split at h
    · cases h
    · rw [← Except.ok.inj h]
  · rw [← Except.ok.inj h]
  · rw [← Except.ok.inj h]

theorem rejectBlobs_eq_ok (h : rejectBlobs request = .ok tx) :
    tx = request ∧ tx.maxFeePerBlobGas = none ∧ tx.blobVersionedHashes = none := by
  unfold rejectBlobs at h
  split at h
  · cases h
  · rename_i hblobs
    obtain rfl := Except.ok.inj h
    simp only [Bool.or_eq_true, not_or, Option.isSome_iff_ne_none, ne_eq, not_not] at hblobs
    exact ⟨rfl, hblobs.1.2, hblobs.2⟩

theorem checkNormalized_eq_ok (h : checkNormalized request = .ok tx) :
    tx = request ∧ (isLegacy tx.gasPriceDetails = true → tx.authorizationList = none) ∧
      ∀ t, tx.transactionType = some t → expectedType tx = t := by
  unfold checkNormalized at h
  split at h
  · cases h
  · rename_i hlegacy
    obtain ⟨⟨⟩, hvalid, h⟩ := bind_eq_ok.mp h
    obtain rfl := Except.ok.inj h
    simp only [Bool.and_eq_true, not_and, Option.isSome_iff_ne_none, ne_eq, not_not] at hlegacy
    refine ⟨rfl, hlegacy, fun t ht => ?_⟩
    unfold validateFillTransactionType at hvalid
    rw [ht] at hvalid
    change (if _ = t then _ else _) = _ at hvalid
    split at hvalid
    · rename_i heq
      exact heq
    · cases hvalid

/-- What holds of a request that is accepted. -/
theorem of_normalize (h : normalizeFillTransactionRequest request = .ok tx) :
    tx.input.data = none ∧ (tx.maxFeePerBlobGas = none ∧ tx.blobVersionedHashes = none) ∧
      (isLegacy tx.gasPriceDetails = true → tx.authorizationList = none) ∧
      ∀ t, tx.transactionType = some t → expectedType tx = t := by
  obtain ⟨input, hinput, h⟩ := bind_eq_ok.mp h
  obtain ⟨tx', hblobs, h⟩ := bind_eq_ok.mp h
  obtain ⟨rfl, hfee, hhashes⟩ := rejectBlobs_eq_ok hblobs
  obtain ⟨rfl, hlegacy, htype⟩ := checkNormalized_eq_ok h
  exact ⟨data_of_mergeInput hinput, ⟨hfee, hhashes⟩, hlegacy, htype⟩

/-- Fees that are filled in are of the kind that they were, and none is missing. -/
structure FilledFees (details filled : GasPriceDetails) : Prop where
  isLegacy_eq : isLegacy filled = isLegacy details
  isSome : ∀ fee tip, filled = .eip1559 fee tip → fee.isSome ∧ tip.isSome

theorem filledFees_of_fill {baseFee tip : BitVec 256} {cap : Option (BitVec 256)}
    {filled : GasPriceDetails}
    (h : GasPriceDetails.fill baseFee (.eip1559 cap (some tip)) = .ok filled) :
    ∃ fee, filled = .eip1559 (some fee) (some tip) := by
  rw [GasPriceDetails.fill] at h
  split at h
  · cases h
  · split at h
    · exact ⟨_, (Except.ok.inj h).symm⟩
    · split at h
      · cases h
      · split at h
        · cases h
        · exact ⟨_, (Except.ok.inj h).symm⟩

theorem isLegacy_of_fill {baseFee gasPrice : BitVec 256} {filled : GasPriceDetails}
    (h : GasPriceDetails.fill baseFee (.legacy gasPrice) = .ok filled) :
    ∃ price, filled = .legacy price := by
  rw [GasPriceDetails.fill] at h
  split at h
  · exact ⟨_, (Except.ok.inj h).symm⟩
  · exact ⟨_, (Except.ok.inj h).symm⟩

theorem filledFees {current default : BitVec 256} {suggested : Option (BitVec 256)}
    {details filled : GasPriceDetails}
    (h : fillTransactionGasPriceDetails current default suggested details = .ok filled) :
    FilledFees details filled := by
  cases details with
  | legacy gasPrice =>
    obtain ⟨price, rfl⟩ := isLegacy_of_fill h
    exact ⟨rfl, fun fee tip h => by cases h⟩
  | eip1559 maxFeePerGas maxPriorityFeePerGas =>
    have hsome : ∃ fee tip, filled = .eip1559 (some fee) (some tip) := by
      rw [fillTransactionGasPriceDetails] at h
      unfold fillCap at h
      split at h
      · obtain ⟨fee, hfee⟩ := filledFees_of_fill h
        exact ⟨fee, _, hfee⟩
      · split at h
        · exact ⟨_, _, (Except.ok.inj h).symm⟩
        · obtain ⟨fee, hfee⟩ := filledFees_of_fill h
          exact ⟨fee, _, hfee⟩
    obtain ⟨fee, tip, rfl⟩ := hsome
    refine ⟨rfl, fun fee' tip' h => ?_⟩
    obtain ⟨rfl, rfl⟩ := GasPriceDetails.eip1559.inj h
    exact ⟨rfl, rfl⟩

theorem expectedType_legacy {gasPrice : BitVec 256} (h : tx.gasPriceDetails = .legacy gasPrice) :
    expectedType tx = if tx.accessList.isSome then eip2930TxTypeId else legacyTxTypeId := by
  rw [expectedType, h]

theorem expectedType_eip1559 {fee tip : Option (BitVec 256)}
    (h : tx.gasPriceDetails = .eip1559 fee tip) : expectedType tx =
      if tx.authorizationList.isSome then eip7702TxTypeId else eip1559TxTypeId := by
  rw [expectedType, h]

/-- The type of a request depends on how gas is paid, and on the two lists. -/
theorem expectedType_congr {details : GasPriceDetails} {gas value : Option (BitVec 256)}
    {nonce chainId : Option UInt64} (h : isLegacy details = isLegacy tx.gasPriceDetails) :
    expectedType { tx with
      gas := gas, value := value, nonce := nonce, chainId := chainId, gasPriceDetails := details } =
      expectedType tx := by
  unfold expectedType
  cases hdetails : tx.gasPriceDetails <;> cases details <;> rw [hdetails] at h <;>
    first | rfl | cases h

theorem fillFields_eq_ok {chainId : UInt64} {latest? : Option Latest} {latest : Latest}
    (h : fillFields chainId latest? request = .ok (latest, tx)) :
    ∃ nonce details, FilledFees request.gasPriceDetails details ∧ tx = { request with
      value := some (request.value.getD 0)
      chainId := some chainId
      nonce := some nonce
      gasPriceDetails := details } := by
  unfold fillFields at h
  split at h
  · cases h
  · split at h
    · cases h
    · obtain ⟨nonce, -, h⟩ := bind_eq_ok.mp h
      obtain ⟨details, hdetails, h⟩ := bind_eq_ok.mp h
      obtain ⟨rfl, rfl⟩ := Prod.mk.inj (Except.ok.inj h)
      refine ⟨nonce, details, ?_, rfl⟩
      unfold fillFees at hdetails
      split at hdetails
      · exact filledFees hdetails
      · exact filledFees hdetails

theorem fillGas_eq_ok {latest : Latest} (h : fillGas env fuel latest request = some (.ok tx)) :
    ∃ gas, tx = { request with gas := some gas } := by
  unfold fillGas at h
  split at h
  · rename_i gas hgas
    rw [← Except.ok.inj (Option.some.inj h)]
    refine ⟨gas, ?_⟩
    rw [← hgas]
  · obtain ⟨r, -, hr⟩ := Option.map_eq_some_iff.mp h
    obtain ⟨estimated, -, rfl⟩ := map_eq_ok.mp hr
    exact ⟨_, rfl⟩

/-- **What is filled in is complete.** -/
theorem filled_of_fillRequest (h : fillRequest env fuel request = some (.ok tx)) :
    Filled env.chainId tx := by
  unfold fillRequest at h
  split at h
  · cases h
  · rename_i latest tx₁ hfields
    obtain ⟨tx₀, hnormal, hfields⟩ := bind_eq_ok.mp hfields
    obtain ⟨hdata, hblobs, hlegacy, htype⟩ := of_normalize hnormal
    obtain ⟨nonce, details, hfees, rfl⟩ := fillFields_eq_ok hfields
    obtain ⟨gas, rfl⟩ := fillGas_eq_ok h
    refine ⟨rfl, rfl, rfl, rfl, hfees.isSome, fun t ht => ?_, fun hl => ?_, hdata, hblobs⟩
    · exact (expectedType_congr hfees.isLegacy_eq).trans (htype t ht)
    · exact hlegacy (hfees.isLegacy_eq ▸ hl)

end Filling

/-! ### The transactions of the two ways -/

section Ways

variable {maxCodeSize : ℕ} {tx : CallRequest} {chainId : UInt64} {t : TypedTransaction}
  {envelope : TxEnvelope} {gasPrice : BitVec 256} {fee tip : Option (BitVec 256)}

/-- Where a transaction goes to. -/
abbrev kindOf (tx : CallRequest) : TxKind := (tx.dest.map TxKind.call).getD .create

theorem unsigned_eip2930 (hrequires : requiresEip2930Encoding tx = true) :
    unsignedTransaction maxCodeSize tx chainId = .ok t ↔
      ∃ u, buildFillTransactionEip2930 maxCodeSize tx chainId = .ok u ∧ t = .eip2930 u := by
  obtain ⟨gasPrice, hdetails⟩ := isLegacy_of_requires hrequires
  unfold unsignedTransaction
  rw [hdetails, hrequires]
  constructor
  · intro h
    obtain ⟨gasLimit, -, h⟩ := bind_eq_ok.mp h
    obtain ⟨u, hu, h⟩ := bind_eq_ok.mp h
    exact ⟨u, hu, (Except.ok.inj h).symm⟩
  · rintro ⟨u, hu, rfl⟩
    obtain ⟨-, -, gasLimit, -, hlimit, -⟩ := (buildFillTransactionEip2930_eq_ok hdetails).mp hu
    exact bind_eq_ok.mpr ⟨gasLimit, hlimit, bind_eq_ok.mpr ⟨u, hu, rfl⟩⟩

theorem unsigned_legacy (hdetails : tx.gasPriceDetails = .legacy gasPrice)
    (hrequires : requiresEip2930Encoding tx = false) :
    unsignedTransaction maxCodeSize tx chainId = .ok t ↔
      ∃ gasLimit price, tryU64 (tx.gas.getD 0) = .ok gasLimit ∧ tryU128 gasPrice = .ok price ∧
        t = .legacy ⟨some chainId, tx.nonce.getD 0, price, gasLimit, kindOf tx, tx.value.getD 0,
          tx.input.input.getD []⟩ := by
  unfold unsignedTransaction
  rw [hdetails, hrequires]
  constructor
  · intro h
    obtain ⟨gasLimit, hlimit, h⟩ := bind_eq_ok.mp h
    obtain ⟨price, hprice, h⟩ := bind_eq_ok.mp h
    exact ⟨gasLimit, price, hlimit, hprice, (Except.ok.inj h).symm⟩
  · rintro ⟨gasLimit, price, hlimit, hprice, rfl⟩
    exact bind_eq_ok.mpr ⟨gasLimit, hlimit, bind_eq_ok.mpr ⟨price, hprice, rfl⟩⟩

theorem unsigned_eip7702 {authList : List SignedAuthorization}
    (hdetails : tx.gasPriceDetails = .eip1559 fee tip)
    (hlist : tx.authorizationList = some authList) :
    unsignedTransaction maxCodeSize tx chainId = .ok t ↔
      ∃ gasLimit fee' tip' dest, tryU64 (tx.gas.getD 0) = .ok gasLimit ∧
        tryU128 (fee.getD 0) = .ok fee' ∧ tryU128 (tip.getD 0) = .ok tip' ∧
        tx.dest = some dest ∧ t = .eip7702 ⟨chainId, tx.nonce.getD 0, gasLimit, fee', tip', dest,
          tx.value.getD 0, tx.accessList.getD [], authList, tx.input.input.getD []⟩ := by
  unfold unsignedTransaction
  rw [hdetails, hlist]
  constructor
  · intro h
    obtain ⟨gasLimit, hlimit, h⟩ := bind_eq_ok.mp h
    obtain ⟨fee', hfee, h⟩ := bind_eq_ok.mp h
    obtain ⟨tip', htip, h⟩ := bind_eq_ok.mp h
    cases hdest : tx.dest with
    | none =>
      rw [hdest] at h
      cases h
    | some dest =>
      rw [hdest] at h
      exact ⟨gasLimit, fee', tip', dest, hlimit, hfee, htip, rfl, (Except.ok.inj h).symm⟩
  · rintro ⟨gasLimit, fee', tip', dest, hlimit, hfee, htip, hdest, rfl⟩
    rw [hdest]
    exact bind_eq_ok.mpr ⟨gasLimit, hlimit, bind_eq_ok.mpr ⟨fee', hfee,
      bind_eq_ok.mpr ⟨tip', htip, rfl⟩⟩⟩

theorem unsigned_eip1559 (hdetails : tx.gasPriceDetails = .eip1559 fee tip)
    (hlist : tx.authorizationList = none) :
    unsignedTransaction maxCodeSize tx chainId = .ok t ↔
      ∃ gasLimit fee' tip', tryU64 (tx.gas.getD 0) = .ok gasLimit ∧
        tryU128 (fee.getD 0) = .ok fee' ∧ tryU128 (tip.getD 0) = .ok tip' ∧
        t = .eip1559 ⟨chainId, tx.nonce.getD 0, gasLimit, fee', tip', kindOf tx, tx.value.getD 0,
          tx.accessList.getD [], tx.input.input.getD []⟩ := by
  unfold unsignedTransaction
  rw [hdetails, hlist]
  constructor
  · intro h
    obtain ⟨gasLimit, hlimit, h⟩ := bind_eq_ok.mp h
    obtain ⟨fee', hfee, h⟩ := bind_eq_ok.mp h
    obtain ⟨tip', htip, h⟩ := bind_eq_ok.mp h
    exact ⟨gasLimit, fee', tip', hlimit, hfee, htip, (Except.ok.inj h).symm⟩
  · rintro ⟨gasLimit, fee', tip', hlimit, hfee, htip, rfl⟩
    exact bind_eq_ok.mpr ⟨gasLimit, hlimit, bind_eq_ok.mpr ⟨fee', hfee,
      bind_eq_ok.mpr ⟨tip', htip, rfl⟩⟩⟩

/-- The gas limit of an envelope, when there is one. -/
theorem getD_gas {gas : BitVec 256} (hgas : tx.gas = some gas) (d d' : BitVec 256) :
    tx.gas.getD d = tx.gas.getD d' := by
  rw [hgas]
  rfl

/-- A contract that is created is too large. -/
def TooLarge (maxCodeSize : ℕ) (tx : CallRequest) : Prop :=
  tx.dest = none ∧ 2 * maxCodeSize < (tx.input.input.getD []).length

theorem envelope_legacy (hdetails : tx.gasPriceDetails = .legacy gasPrice) :
    tx.toTxEnvelope maxCodeSize = .ok envelope ↔
      ∃ gasLimit price, tryU64 (tx.gas.getD (toU256 (-1))) = .ok gasLimit ∧
        tryU128 gasPrice = .ok price ∧ ¬TooLarge maxCodeSize tx ∧
        envelope = TypedTransaction.intoSigned (.legacy ⟨tx.chainId, tx.nonce.getD 0, price,
          gasLimit, kindOf tx, tx.value.getD 0, tx.input.input.getD []⟩) := by
  unfold CallRequest.toTxEnvelope
  rw [hdetails]
  constructor
  · intro h
    obtain ⟨gasLimit, hlimit, h⟩ := bind_eq_ok.mp h
    obtain ⟨price, hprice, h⟩ := bind_eq_ok.mp h
    obtain ⟨kind, hkind, h⟩ := bind_eq_ok.mp h
    obtain ⟨rfl, hsmall⟩ := (checkedKind_eq_ok maxCodeSize).mp hkind
    exact ⟨gasLimit, price, hlimit, hprice, hsmall, (Except.ok.inj h).symm⟩
  · rintro ⟨gasLimit, price, hlimit, hprice, hsmall, rfl⟩
    refine bind_eq_ok.mpr ⟨gasLimit, hlimit, bind_eq_ok.mpr ⟨price, hprice, ?_⟩⟩
    exact bind_eq_ok.mpr ⟨_, (checkedKind_eq_ok maxCodeSize).mpr ⟨rfl, hsmall⟩, rfl⟩

theorem envelope_eip7702 {authList : List SignedAuthorization}
    (hdetails : tx.gasPriceDetails = .eip1559 fee tip)
    (hlist : tx.authorizationList = some authList) :
    tx.toTxEnvelope maxCodeSize = .ok envelope ↔
      ∃ gasLimit fee' tip' dest, tryU64 (tx.gas.getD (toU256 (-1))) = .ok gasLimit ∧
        tryU128 (fee.getD 0) = .ok fee' ∧ tryU128 (tip.getD 0) = .ok tip' ∧
        tx.dest = some dest ∧ envelope = TypedTransaction.intoSigned
          (.eip7702 ⟨tx.chainId.getD 0, tx.nonce.getD 0, gasLimit, fee', tip', dest,
            tx.value.getD 0, tx.accessList.getD [], authList, tx.input.input.getD []⟩) := by
  unfold CallRequest.toTxEnvelope
  rw [hdetails, hlist]
  constructor
  · intro h
    obtain ⟨gasLimit, hlimit, h⟩ := bind_eq_ok.mp h
    obtain ⟨fee', hfee, h⟩ := bind_eq_ok.mp h
    obtain ⟨tip', htip, h⟩ := bind_eq_ok.mp h
    cases hdest : tx.dest with
    | none =>
      rw [hdest] at h
      cases h
    | some dest =>
      rw [hdest] at h
      exact ⟨gasLimit, fee', tip', dest, hlimit, hfee, htip, rfl, (Except.ok.inj h).symm⟩
  · rintro ⟨gasLimit, fee', tip', dest, hlimit, hfee, htip, hdest, rfl⟩
    rw [hdest]
    exact bind_eq_ok.mpr ⟨gasLimit, hlimit, bind_eq_ok.mpr ⟨fee', hfee,
      bind_eq_ok.mpr ⟨tip', htip, rfl⟩⟩⟩

theorem envelope_eip1559 (hdetails : tx.gasPriceDetails = .eip1559 fee tip)
    (hlist : tx.authorizationList = none) :
    tx.toTxEnvelope maxCodeSize = .ok envelope ↔
      ∃ gasLimit fee' tip', tryU64 (tx.gas.getD (toU256 (-1))) = .ok gasLimit ∧
        tryU128 (fee.getD 0) = .ok fee' ∧ tryU128 (tip.getD 0) = .ok tip' ∧
        ¬TooLarge maxCodeSize tx ∧ envelope = TypedTransaction.intoSigned
          (.eip1559 ⟨tx.chainId.getD 0, tx.nonce.getD 0, gasLimit, fee', tip', kindOf tx,
            tx.value.getD 0, tx.accessList.getD [], tx.input.input.getD []⟩) := by
  unfold CallRequest.toTxEnvelope
  rw [hdetails, hlist]
  constructor
  · intro h
    obtain ⟨gasLimit, hlimit, h⟩ := bind_eq_ok.mp h
    obtain ⟨fee', hfee, h⟩ := bind_eq_ok.mp h
    obtain ⟨tip', htip, h⟩ := bind_eq_ok.mp h
    obtain ⟨kind, hkind, h⟩ := bind_eq_ok.mp h
    obtain ⟨rfl, hsmall⟩ := (checkedKind_eq_ok maxCodeSize).mp hkind
    exact ⟨gasLimit, fee', tip', hlimit, hfee, htip, hsmall, (Except.ok.inj h).symm⟩
  · rintro ⟨gasLimit, fee', tip', hlimit, hfee, htip, hsmall, rfl⟩
    refine bind_eq_ok.mpr ⟨gasLimit, hlimit, bind_eq_ok.mpr ⟨fee', hfee,
      bind_eq_ok.mpr ⟨tip', htip, ?_⟩⟩⟩
    exact bind_eq_ok.mpr ⟨_, (checkedKind_eq_ok maxCodeSize).mpr ⟨rfl, hsmall⟩, rfl⟩

theorem oversized_iff (hrequires : requiresEip2930Encoding tx = false)
    (hlist : tx.authorizationList = none) :
    Oversized maxCodeSize tx ↔ TooLarge maxCodeSize tx :=
  ⟨fun h => ⟨h.1, h.2.2.2⟩, fun h => ⟨h.1, hrequires, hlist, h.2⟩⟩

/-- **The envelope is of the transaction that is encoded**, if no contract is too large. -/
theorem buildFillTransactionEnvelope_eq_ok (h : Filled chainId tx) :
    buildFillTransactionEnvelope maxCodeSize tx chainId = .ok envelope ↔
      ¬Oversized maxCodeSize tx ∧ ∃ t, unsignedTransaction maxCodeSize tx chainId = .ok t ∧
        envelope = t.intoSigned := by
  obtain ⟨gas, hgas⟩ := Option.isSome_iff_exists.mp h.gas
  have hlimit := getD_gas hgas (toU256 (-1)) 0
  have hchain : tx.chainId.getD 0 = chainId := by rw [h.chainId]; rfl
  unfold buildFillTransactionEnvelope
  cases hrequires : requiresEip2930Encoding tx with
  | true =>
    rw [if_pos rfl, bind_eq_ok]
    simp only [unsigned_eip2930 hrequires]
    constructor
    · rintro ⟨u, hu, henvelope⟩
      refine ⟨fun hover => ?_, _, ⟨u, hu, rfl⟩, (Except.ok.inj henvelope).symm⟩
      rw [hover.2.1] at hrequires
      cases hrequires
    · rintro ⟨-, t, ⟨u, hu, rfl⟩, rfl⟩
      exact ⟨u, hu, rfl⟩
  | false =>
    rw [if_neg Bool.false_ne_true]
    cases hdetails : tx.gasPriceDetails with
    | legacy gasPrice =>
      have hlist := h.unauthorized (by rw [hdetails]; rfl)
      simp only [unsigned_legacy hdetails hrequires, envelope_legacy hdetails, hlimit, h.chainId,
        oversized_iff hrequires hlist]
      constructor
      · rintro ⟨gasLimit, price, hgas, hprice, hsmall, rfl⟩
        exact ⟨hsmall, _, ⟨gasLimit, price, hgas, hprice, rfl⟩, rfl⟩
      · rintro ⟨hsmall, t, ⟨gasLimit, price, hgas, hprice, rfl⟩, rfl⟩
        exact ⟨gasLimit, price, hgas, hprice, hsmall, rfl⟩
    | eip1559 fee tip =>
      cases hlist : tx.authorizationList with
      | some authList =>
        simp only [unsigned_eip7702 hdetails hlist, envelope_eip7702 hdetails hlist, hlimit, hchain]
        constructor
        · rintro ⟨gasLimit, fee', tip', dest, hgas, hfee, htip, hdest, rfl⟩
          refine ⟨fun hover => ?_, _, ⟨gasLimit, fee', tip', dest, hgas, hfee, htip, hdest, rfl⟩,
            rfl⟩
          rw [hover.1] at hdest
          cases hdest
        · rintro ⟨-, t, ⟨gasLimit, fee', tip', dest, hgas, hfee, htip, hdest, rfl⟩, rfl⟩
          exact ⟨gasLimit, fee', tip', dest, hgas, hfee, htip, hdest, rfl⟩
      | none =>
        simp only [unsigned_eip1559 hdetails hlist, envelope_eip1559 hdetails hlist, hlimit, hchain,
          oversized_iff hrequires hlist]
        constructor
        · rintro ⟨gasLimit, fee', tip', hgas, hfee, htip, hsmall, rfl⟩
          exact ⟨hsmall, _, ⟨gasLimit, fee', tip', hgas, hfee, htip, rfl⟩, rfl⟩
        · rintro ⟨hsmall, t, ⟨gasLimit, fee', tip', hgas, hfee, htip, rfl⟩, rfl⟩
          exact ⟨gasLimit, fee', tip', hgas, hfee, htip, hsmall, rfl⟩

end Ways

/-! ### The request that is returned -/

section Returned

variable {maxCodeSize : ℕ} {tx : CallRequest} {chainId : UInt64} {t : TypedTransaction}
  {gasPrice : BitVec 256}

/-- With a gas price, it is the access list that tells. -/
theorem requires_eq (h : Filled chainId tx) (hdetails : tx.gasPriceDetails = .legacy gasPrice) :
    requiresEip2930Encoding tx = tx.accessList.isSome := by
  unfold requiresEip2930Encoding
  rw [hdetails]
  cases htype : tx.transactionType with
  | none => rfl
  | some t =>
    have hexpected := h.transactionType t htype
    rw [expectedType_legacy hdetails] at hexpected
    change (t == eip2930TxTypeId) = _
    cases hlist : tx.accessList <;> rw [hlist] at hexpected <;> rw [← hexpected] <;> rfl

/-- The type of the request that is returned. -/
theorem describedType_filledRequest (h : Filled chainId tx) :
    describedType (filledRequest tx chainId) = expectedType tx := by
  have hexpected : expectedType (filledRequest tx chainId) = expectedType tx := rfl
  have htype : (filledRequest tx chainId).transactionType =
      if requiresEip2930Encoding tx then some eip2930TxTypeId else tx.transactionType := rfl
  rw [describedType, htype, hexpected]
  cases hrequires : requiresEip2930Encoding tx with
  | true =>
    obtain ⟨gasPrice, hdetails⟩ := isLegacy_of_requires hrequires
    have hlist := requires_eq h hdetails
    rw [hrequires] at hlist
    rw [expectedType_legacy hdetails, ← hlist]
    rfl
  | false =>
    rw [if_neg Bool.false_ne_true]
    cases ht : tx.transactionType with
    | none => rfl
    | some t => exact (h.transactionType t ht).symm

theorem describesCall_filledRequest (h : Filled chainId tx) {gasLimit : UInt64}
    (hlimit : tryU64 (tx.gas.getD 0) = .ok gasLimit) :
    DescribesCall (filledRequest tx chainId) chainId (tx.nonce.getD 0) gasLimit (kindOf tx)
      (tx.value.getD 0) (tx.input.input.getD []) where
  chainId := by
    change some (tx.chainId.getD chainId) = _
    rw [h.chainId]
    rfl
  nonce := rfl
  gas := congrArg some (tryU64_eq_ok.mp hlimit)
  dest := rfl
  value := rfl
  input := rfl
  data := h.data
  noBlobs := h.noBlobs

/-- **The request that is returned describes the transaction.** -/
theorem describes_filledRequest (h : Filled chainId tx)
    (ht : unsignedTransaction maxCodeSize tx chainId = .ok t) :
    Describes (filledRequest tx chainId) t := by
  have htype := describedType_filledRequest h
  cases hdetails : tx.gasPriceDetails with
  | legacy gasPrice =>
    have hauth := h.unauthorized (by rw [hdetails]; rfl)
    have hrequires := requires_eq h hdetails
    have hexpected := expectedType_legacy hdetails
    cases hlist : tx.accessList with
    | none =>
      rw [hlist] at hrequires hexpected
      obtain ⟨gasLimit, price, hlimit, hprice, rfl⟩ := (unsigned_legacy hdetails hrequires).mp ht
      refine ⟨htype.trans hexpected, ⟨chainId, rfl, describesCall_filledRequest h hlimit⟩, ?_,
        hlist, hauth⟩
      exact hdetails.trans (congrArg _ (tryU128_eq_ok.mp hprice))
    | some list =>
      rw [hlist] at hrequires hexpected
      obtain ⟨u, hu, rfl⟩ := (unsigned_eip2930 hrequires).mp ht
      obtain ⟨-, price, gasLimit, hprice, hlimit, rfl⟩ :=
        (buildFillTransactionEip2930_eq_ok hdetails).mp hu
      refine ⟨htype.trans hexpected, describesCall_filledRequest h hlimit, ?_, ?_, hauth⟩
      · exact hdetails.trans (congrArg _ (tryU128_eq_ok.mp hprice))
      · change tx.accessList = some (tx.accessList.getD [])
        rw [hlist]
        rfl
  | eip1559 fee tip =>
    obtain ⟨hfee, htip⟩ := h.fees fee tip hdetails
    obtain ⟨fee, rfl⟩ := Option.isSome_iff_exists.mp hfee
    obtain ⟨tip, rfl⟩ := Option.isSome_iff_exists.mp htip
    have hexpected := expectedType_eip1559 hdetails
    cases hlist : tx.authorizationList with
    | some authList =>
      rw [hlist] at hexpected
      obtain ⟨gasLimit, fee', tip', dest, hlimit, hfee', htip', hdest, rfl⟩ :=
        (unsigned_eip7702 hdetails hlist).mp ht
      have hcall := describesCall_filledRequest h hlimit
      have hkind : kindOf tx = .call dest := by
        rw [kindOf, hdest]
        rfl
      rw [hkind] at hcall
      refine ⟨htype.trans hexpected, hcall, ?_, rfl, hlist⟩
      rw [show fee = widen fee' from tryU128_eq_ok.mp hfee',
        show tip = widen tip' from tryU128_eq_ok.mp htip'] at hdetails
      exact hdetails
    | none =>
      rw [hlist] at hexpected
      obtain ⟨gasLimit, fee', tip', hlimit, hfee', htip', rfl⟩ :=
        (unsigned_eip1559 hdetails hlist).mp ht
      refine ⟨htype.trans hexpected, describesCall_filledRequest h hlimit, ?_, rfl, hlist⟩
      rw [show fee = widen fee' from tryU128_eq_ok.mp hfee',
        show tip = widen tip' from tryU128_eq_ok.mp htip'] at hdetails
      exact hdetails

/-- A contract that is too large does not stop the encoding of a transaction that fits. -/
theorem exists_unsigned_iff (h : Oversized maxCodeSize tx) :
    (∃ t, unsignedTransaction maxCodeSize tx chainId = .ok t) ↔ Fits tx := by
  unfold Fits
  cases hdetails : tx.gasPriceDetails with
  | legacy gasPrice =>
    simp only [unsigned_legacy hdetails h.2.1, tryU64_eq_ok, tryU128_eq_ok]
    constructor
    · rintro ⟨t, gasLimit, price, hlimit, hprice, -⟩
      exact ⟨⟨gasLimit, hlimit⟩, price, hprice⟩
    · rintro ⟨⟨gasLimit, hlimit⟩, price, hprice⟩
      exact ⟨_, gasLimit, price, hlimit, hprice, rfl⟩
  | eip1559 fee tip =>
    simp only [unsigned_eip1559 hdetails h.2.2.1, tryU64_eq_ok, tryU128_eq_ok]
    constructor
    · rintro ⟨t, gasLimit, fee', tip', hlimit, hfee, htip, -⟩
      exact ⟨⟨gasLimit, hlimit⟩, ⟨fee', hfee⟩, tip', htip⟩
    · rintro ⟨⟨gasLimit, hlimit⟩, ⟨fee', hfee⟩, tip', htip⟩
      exact ⟨_, gasLimit, fee', tip', hlimit, hfee, htip, rfl⟩

end Returned

/-! ### When the two ways agree -/

section Agree

variable {env : Env} {tx : CallRequest}

theorem buildUnsignedTransaction_eq_ok {r : UnformattedData × CallRequest} :
    buildUnsignedTransaction env.maxCodeSize tx env.chainId env.encodeForSigning = .ok r ↔
      ∃ t, unsignedTransaction env.maxCodeSize tx env.chainId = .ok t ∧
        r = (⟨env.encodeForSigning t⟩, filledRequest tx env.chainId) := by
  refine bind_eq_ok.trans (exists_congr fun t => and_congr_right fun _ => ?_)
  exact ⟨fun h => (Except.ok.inj h).symm, fun h => by rw [h]; rfl⟩

/-- What is returned is of the transaction in the envelope. -/
theorem same_of_filled (h : Filled env.chainId tx) {raw : UnformattedData} {filled : CallRequest}
    {envelope : TxEnvelope}
    (hunsigned : buildUnsignedTransaction env.maxCodeSize tx env.chainId env.encodeForSigning =
      .ok (raw, filled))
    (henvelope : buildFillTransactionEnvelope env.maxCodeSize tx env.chainId = .ok envelope) :
    raw.data = env.encodeForSigning envelope.transaction ∧
      Describes filled envelope.transaction := by
  obtain ⟨t, ht, hr⟩ := buildUnsignedTransaction_eq_ok.mp hunsigned
  obtain ⟨rfl, rfl⟩ := Prod.mk.inj hr
  obtain ⟨-, t', ht', rfl⟩ := (buildFillTransactionEnvelope_eq_ok h).mp henvelope
  obtain rfl := Except.ok.inj (ht.symm.trans ht')
  exact ⟨rfl, describes_filledRequest h ht⟩

theorem agrees_iff_of_filled (h : Filled env.chainId tx) :
    Agrees env tx ↔ ¬(Oversized env.maxCodeSize tx ∧ Fits tx) := by
  have hunsigned : (∃ r, buildUnsignedTransaction env.maxCodeSize tx env.chainId
      env.encodeForSigning = .ok r) ↔
      ∃ t, unsignedTransaction env.maxCodeSize tx env.chainId = .ok t := by
    simp only [buildUnsignedTransaction_eq_ok]
    exact ⟨fun ⟨_, t, ht, _⟩ => ⟨t, ht⟩, fun ⟨t, ht⟩ => ⟨_, t, ht, rfl⟩⟩
  constructor
  · rintro hagrees ⟨hover, hfits⟩
    have hok := hunsigned.mpr ((exists_unsigned_iff hover).mpr hfits)
    obtain ⟨envelope, henvelope⟩ := hagrees.succeeds_iff.mp hok
    exact ((buildFillTransactionEnvelope_eq_ok h).mp henvelope).1 hover
  · intro hgood
    refine ⟨?_, fun raw filled envelope => same_of_filled h⟩
    rw [hunsigned]
    constructor
    · rintro ⟨t, ht⟩
      have hsmall : ¬Oversized env.maxCodeSize tx := fun hover =>
        hgood ⟨hover, (exists_unsigned_iff hover).mp ⟨t, ht⟩⟩
      exact ⟨_, (buildFillTransactionEnvelope_eq_ok h).mpr ⟨hsmall, t, ht, rfl⟩⟩
    · rintro ⟨envelope, henvelope⟩
      obtain ⟨-, t, ht, -⟩ := (buildFillTransactionEnvelope_eq_ok h).mp henvelope
      exact ⟨t, ht⟩

/-- **The two ways agree on a request that has been filled in** if and only if it does not create a
contract that is too large with gas and fees that fit, without an access list for its gas price. -/
theorem agrees_iff {fuel : ℕ} {request : CallRequest}
    (h : fillRequest env fuel request = some (.ok tx)) :
    Agrees env tx ↔ ¬(Oversized env.maxCodeSize tx ∧ Fits tx) :=
  agrees_iff_of_filled (filled_of_fillRequest h)

end Agree

/-! ### Creations of contracts -/

/-- A number, as it is coded. -/
def rlpNumber (n : ℕ) : Rlp := .str (minBe n)

def rlpKind : TxKind → Rlp
  | .create => .str []
  | .call dest => .str dest.1

def rlpAccessList (list : AccessList) : Rlp :=
  .list (list.map fun item =>
    .list [.str item.address.1, .list (item.storageKeys.map fun key => .str key.1)])

def rlpAuthorization (a : SignedAuthorization) : Rlp :=
  .list [rlpNumber a.chainId.toNat, .str a.address.1, rlpNumber a.nonce.toNat,
    rlpNumber a.yParity.toNat, rlpNumber a.r.toNat, rlpNumber a.s.toNat]

/-- The payload that is signed for a transaction. -/
def signingPayload : TypedTransaction → Bytes
  | .legacy tx => (Rlp.list ([rlpNumber tx.nonce.toNat, rlpNumber tx.gasPrice.toNat,
      rlpNumber tx.gasLimit.toNat, rlpKind tx.dest, rlpNumber tx.value.toNat, .str tx.input] ++
      match tx.chainId with
      | some chainId => [rlpNumber chainId.toNat, rlpNumber 0, rlpNumber 0]
      | none => [])).encode
  | .eip2930 tx => eip2930TxTypeId :: (Rlp.list [rlpNumber tx.chainId.toNat,
      rlpNumber tx.nonce.toNat, rlpNumber tx.gasPrice.toNat, rlpNumber tx.gasLimit.toNat,
      rlpKind tx.dest, rlpNumber tx.value.toNat, .str tx.input,
      rlpAccessList tx.accessList]).encode
  | .eip1559 tx => eip1559TxTypeId :: (Rlp.list [rlpNumber tx.chainId.toNat,
      rlpNumber tx.nonce.toNat, rlpNumber tx.maxPriorityFeePerGas.toNat,
      rlpNumber tx.maxFeePerGas.toNat, rlpNumber tx.gasLimit.toNat, rlpKind tx.dest,
      rlpNumber tx.value.toNat, .str tx.input, rlpAccessList tx.accessList]).encode
  | .eip7702 tx => eip7702TxTypeId :: (Rlp.list [rlpNumber tx.chainId.toNat,
      rlpNumber tx.nonce.toNat, rlpNumber tx.maxPriorityFeePerGas.toNat,
      rlpNumber tx.maxFeePerGas.toNat, rlpNumber tx.gasLimit.toNat, .str tx.dest.1,
      rlpNumber tx.value.toNat, .str tx.input, rlpAccessList tx.accessList,
      .list (tx.authorizationList.map rlpAuthorization)]).encode

/-- A chain whose base fee is 100. -/
def sampleEnv : Env where
  maxCodeSize := 131072
  chainId := 143
  providerGasLimit := 30000000
  latest := some ⟨some 100, 150000000, fun _ => .ok 5⟩
  exec := mockEthCall 50000 10000
  encodeForSigning := signingPayload
  overflowChecks := true

/-- A request with gas, and with a fee cap that is high enough. -/
def sampleCall (dest : Option Address) (input : Bytes) : CallRequest :=
  { CallRequest.default with
    sender := some ⟨List.replicate 20 4, rfl⟩
    dest := dest
    gas := some 2000000
    gasPriceDetails := .eip1559 (some 3000000000) none
    input := ⟨none, some input⟩ }

/-- How this request is filled in. -/
def filledCall (dest : Option Address) (input : Bytes) : CallRequest :=
  { sampleCall dest input with
    gasPriceDetails := .eip1559 (some 3000000000) (some 2000000000)
    value := some 0
    input := ⟨some input, none⟩
    nonce := some 5
    chainId := some 143 }

theorem fillRequest_sampleCall (dest : Option Address) (input : Bytes) :
    fillRequest sampleEnv 0 (sampleCall dest input) = some (.ok (filledCall dest input)) :=
  rfl

/-- **A call**, which creates no contract. -/
theorem agrees_sampleCall :
    Agrees sampleEnv (filledCall (some ⟨List.replicate 20 3, rfl⟩) [1, 2, 3, 4]) :=
  (agrees_iff (fillRequest_sampleCall _ _)).mpr fun h => by cases h.1.1

/-- **A contract that is too large** by one byte, with a gas limit of its own. -/
theorem not_agrees_largeContract :
    fillRequest sampleEnv 0 (sampleCall none (List.replicate 262145 0)) =
      some (.ok (filledCall none (List.replicate 262145 0))) ∧
    ¬Agrees sampleEnv (filledCall none (List.replicate 262145 0)) := by
  have hfill := fillRequest_sampleCall none (List.replicate 262145 0)
  refine ⟨hfill, fun h => ?_⟩
  refine (agrees_iff_of_filled (filled_of_fillRequest hfill)).mp h ⟨⟨rfl, rfl, rfl, ?_⟩, ?_⟩
  · change 2 * 131072 < (List.replicate 262145 (0 : UInt8)).length
    rw [List.length_replicate]
    decide
  · exact ⟨⟨2000000, rfl⟩, ⟨3000000000, rfl⟩, 2000000000, rfl⟩

end FillTransaction

end Rpc

end MonadServices
