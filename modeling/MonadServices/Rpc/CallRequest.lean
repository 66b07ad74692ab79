import MonadServices.Lib.Checked
import MonadServices.Primitives
import MonadServices.Rpc.Jsonrpc

/-!
# Requests for calls

A request for a call has the fields of a transaction, each of which may be missing. The way in which
gas is paid tells what kind of transaction it is for: with a gas price it is a legacy one, and else
one with a fee cap and a tip, with or without a list of authorizations.

A transaction is made from a request with defaults for what is missing, and with a signature of
zeros. The numbers of a request have 256 bits, and those of a transaction have less: **a
transaction has the gas limit that is asked for** (`MonadServices.Rpc.gasLimit_of_toTxEnvelope`), or
there is an error.
-/

namespace MonadServices

namespace Rpc

open Jsonrpc

/-! ### Transactions -/

/-- Whom a transaction calls, if it does not create a contract. -/
inductive TxKind where
  | create
  | call (dest : Address)
  deriving DecidableEq

/-- An account that a transaction declares, with some of its slots. -/
structure AccessListItem where
  address : Address
  storageKeys : List B256
  deriving DecidableEq

/-- The accounts and the slots that a transaction declares. -/
abbrev AccessList := List AccessListItem

/-- An account lets its code be that of an address. -/
structure SignedAuthorization where
  chainId : BitVec 256
  address : Address
  nonce : UInt64
  yParity : UInt8
  r : BitVec 256
  s : BitVec 256
  deriving DecidableEq

/-- A transaction of type 0. -/
structure TxLegacy where
  chainId : Option UInt64
  nonce : UInt64
  gasPrice : BitVec 128
  gasLimit : UInt64
  dest : TxKind
  value : BitVec 256
  input : Bytes
  deriving DecidableEq

/-- A transaction of type 1: it declares what it accesses. -/
structure TxEip2930 where
  chainId : UInt64
  nonce : UInt64
  gasPrice : BitVec 128
  gasLimit : UInt64
  dest : TxKind
  value : BitVec 256
  accessList : AccessList
  input : Bytes
  deriving DecidableEq

/-- A transaction of type 2: it caps what it pays for gas. -/
structure TxEip1559 where
  chainId : UInt64
  nonce : UInt64
  gasLimit : UInt64
  maxFeePerGas : BitVec 128
  maxPriorityFeePerGas : BitVec 128
  dest : TxKind
  value : BitVec 256
  accessList : AccessList
  input : Bytes
  deriving DecidableEq

/-- A transaction of type 4, with authorizations; it always calls an address. -/
structure TxEip7702 where
  chainId : UInt64
  nonce : UInt64
  gasLimit : UInt64
  maxFeePerGas : BitVec 128
  maxPriorityFeePerGas : BitVec 128
  dest : Address
  value : BitVec 256
  accessList : AccessList
  authorizationList : List SignedAuthorization
  input : Bytes
  deriving DecidableEq

/-- A transaction of one of the types that are made here. -/
inductive TypedTransaction where
  | legacy (tx : TxLegacy)
  | eip2930 (tx : TxEip2930)
  | eip1559 (tx : TxEip1559)
  | eip7702 (tx : TxEip7702)
  deriving DecidableEq

/-- The gas limit of a transaction, whatever its type. -/
def TypedTransaction.gasLimit : TypedTransaction → UInt64
  | .legacy tx => tx.gasLimit
  | .eip2930 tx => tx.gasLimit
  | .eip1559 tx => tx.gasLimit
  | .eip7702 tx => tx.gasLimit

/-- `alloy_primitives::Signature`. -/
structure Signature where
  r : BitVec 256
  s : BitVec 256
  oddYParity : Bool
  deriving DecidableEq

/-- `alloy_consensus::TxEnvelope`. -/
structure TxEnvelope where
  transaction : TypedTransaction
  signature : Signature
  deriving DecidableEq

/-- `TxEnvelope::gas_limit`. -/
def TxEnvelope.gasLimit (tx : TxEnvelope) : UInt64 := tx.transaction.gasLimit

/-- The signature of a transaction that is not signed. -/
def Signature.zero : Signature := ⟨0, 0, false⟩

/-- `into_signed` with this signature. -/
def TypedTransaction.intoSigned (tx : TypedTransaction) : TxEnvelope := ⟨tx, .zero⟩

/-! ### Requests -/

/-- The input of a call, which has two names in a request. -/
structure CallInput where
  input : Option Bytes
  data : Option Bytes
  deriving DecidableEq

/-- What a request says of the price of gas: one price, or caps. -/
inductive GasPriceDetails where
  | legacy (gasPrice : BitVec 256)
  | eip1559 (maxFeePerGas maxPriorityFeePerGas : Option (BitVec 256))
  deriving DecidableEq

/-- **A request for a call**: a transaction of which anything may be left out. -/
structure CallRequest where
  sender : Option Address
  dest : Option Address
  gas : Option (BitVec 256)
  gasPriceDetails : GasPriceDetails
  value : Option (BitVec 256)
  input : CallInput
  nonce : Option UInt64
  chainId : Option UInt64
  accessList : Option AccessList
  authorizationList : Option (List SignedAuthorization)
  maxFeePerBlobGas : Option (BitVec 256)
  blobVersionedHashes : Option (List (BitVec 256))
  transactionType : Option UInt8
  deriving DecidableEq

/-- `CallRequest::default`. -/
def CallRequest.default : CallRequest :=
  ⟨none, none, none, .eip1559 none none, none, ⟨none, none⟩, none, none, none, none, none, none,
    none⟩

/-- The result of a handler. -/
abbrev Result (α : Type) := Except (Halt Jsonrpc.JsonRpcError) α

/-- A handler returns an error. -/
def fail {α : Type} (e : Jsonrpc.JsonRpcError) : Result α := .error (.error e)

/-! ### Numbers -/

/-- `U256::checked_add`. -/
def checkedAddU256 (a b : BitVec 256) : Option (BitVec 256) :=
  if a.uaddOverflow b then none else some (a + b)

/-- `std::cmp::min`. -/
def minU256 (a b : BitVec 256) : BitVec 256 := if a ≤ b then a else b

/-- A number as one of 64 bits. -/
def tryU64 (n : BitVec 256) : Result UInt64 :=
  if n.toNat < UInt64.size then .ok (UInt64.ofNat n.toNat) else fail .invalidParams

/-- A number as one of 128 bits. -/
def tryU128 (n : BitVec 256) : Result (BitVec 128) :=
  if (n.setWidth 128).setWidth 256 = n then .ok (n.setWidth 128) else fail .invalidParams

/-- A number of 64 bits as one of 256. -/
def toU256 (n : UInt64) : BitVec 256 := n.toBitVec.setWidth 256

theorem toNat_toU256 (n : UInt64) : (toU256 n).toNat = n.toNat := by
  change (n.toBitVec.setWidth 256).toNat = n.toBitVec.toNat
  rw [BitVec.toNat_setWidth]
  exact Nat.mod_eq_of_lt (Nat.lt_trans n.toBitVec.isLt (by decide))

theorem toU256_injective {m n : UInt64} (h : toU256 m = toU256 n) : m = n := by
  have hnat := congrArg BitVec.toNat h
  rw [toNat_toU256, toNat_toU256] at hnat
  exact UInt64.toNat_inj.mp hnat

/-- A number that fits in 64 bits. -/
theorem tryU64_eq_ok {n : BitVec 256} {m : UInt64} : tryU64 n = .ok m ↔ n = toU256 m := by
  unfold tryU64
  constructor
  · intro h
    split at h
    · rename_i hlt
      apply BitVec.eq_of_toNat_eq
      rw [toNat_toU256, ← Except.ok.inj h]
      exact (Nat.mod_eq_of_lt hlt).symm
    · cases h
  · rintro rfl
    rw [toNat_toU256, if_pos m.toNat_lt, UInt64.ofNat_toNat]

/-- A number that fits in 128 bits. -/
theorem tryU128_eq_ok {n : BitVec 256} {m : BitVec 128} :
    tryU128 n = .ok m ↔ n = m.setWidth 256 := by
  unfold tryU128
  constructor
  · intro h
    split at h
    · rename_i heq
      rw [← Except.ok.inj h, heq]
    · cases h
  · rintro rfl
    have hback : (m.setWidth 256).setWidth 128 = m := by
      apply BitVec.eq_of_toNat_eq
      rw [BitVec.toNat_setWidth, BitVec.toNat_setWidth, Nat.mod_mod_of_dvd _ (by decide)]
      exact Nat.mod_eq_of_lt m.isLt
    rw [hback, if_pos rfl]

theorem noPanic_fail {α : Type} (e : Jsonrpc.JsonRpcError) : NoPanic (fail e : Result α) := .error e

theorem noPanic_tryU64 (n : BitVec 256) : NoPanic (tryU64 n) := by
  unfold tryU64
  split
  · exact .ok _
  · exact noPanic_fail _

theorem noPanic_tryU128 (n : BitVec 256) : NoPanic (tryU128 n) := by
  unfold tryU128
  split
  · exact .ok _
  · exact noPanic_fail _

/-! ### The price of gas -/

/-- `CallRequest::max_fee_per_gas`. -/
def GasPriceDetails.cap : GasPriceDetails → Option (BitVec 256)
  | .legacy gasPrice => some gasPrice
  | .eip1559 maxFeePerGas _ => maxFeePerGas

/-- `CallRequest::fill_gas_prices`. -/
def GasPriceDetails.fill (baseFee : BitVec 256) : GasPriceDetails → Result GasPriceDetails
  | .legacy gasPrice => if gasPrice < baseFee then .ok (.legacy baseFee) else .ok (.legacy gasPrice)
  | .eip1559 maxFeePerGas maxPriorityFeePerGas =>
    match checkedAddU256 baseFee (maxPriorityFeePerGas.getD 0) with
    | none => fail (.ethCallError "tip too high" none)
    | some effectiveFeeCap =>
      match maxFeePerGas with
      | none => .ok (.eip1559 (some effectiveFeeCap) maxPriorityFeePerGas)
      | some maxFeePerGas =>
        if maxFeePerGas < baseFee then
          fail (.ethCallError "max fee per gas less than block base fee" none)
        else if maxPriorityFeePerGas.any fun tip => maxFeePerGas < tip then
          fail (.withMessage .invalidParams "priority fee greater than max")
        else .ok (.eip1559 (some (minU256 maxFeePerGas effectiveFeeCap)) maxPriorityFeePerGas)

section Fees

variable {baseFee : BitVec 256} {filled : GasPriceDetails}

/-- A sum that fits. -/
theorem checkedAddU256_eq_some {a b c : BitVec 256} :
    checkedAddU256 a b = some c ↔ c.toNat = a.toNat + b.toNat := by
  unfold checkedAddU256 BitVec.uaddOverflow
  split
  · rename_i h
    refine ⟨fun h' => (by cases h'), fun h' => absurd c.isLt ?_⟩
    rw [h']
    exact Nat.not_lt.mpr (of_decide_eq_true h)
  · rename_i h
    have hsum : (a + b).toNat = a.toNat + b.toNat := by
      rw [BitVec.toNat_add]
      exact Nat.mod_eq_of_lt (Nat.not_le.mp fun h' => h (decide_eq_true h'))
    rw [Option.some.injEq]
    constructor
    · rintro rfl
      exact hsum
    · exact fun h' => BitVec.eq_of_toNat_eq (hsum.trans h'.symm)

theorem checkedAddU256_zero (a : BitVec 256) : checkedAddU256 0 a = some a :=
  checkedAddU256_eq_some.mpr (Nat.zero_add _).symm

theorem toNat_minU256 (a b : BitVec 256) : (minU256 a b).toNat = min a.toNat b.toNat := by
  unfold minU256
  split
  · rename_i h
    exact (Nat.min_eq_left (BitVec.le_def.mp h)).symm
  · rename_i h
    exact (Nat.min_eq_right (Nat.le_of_not_le fun h' => h (BitVec.le_def.mpr h'))).symm

theorem fill_legacy (gasPrice : BitVec 256) : GasPriceDetails.fill baseFee (.legacy gasPrice) =
    .ok (.legacy (if gasPrice < baseFee then baseFee else gasPrice)) := by
  rw [GasPriceDetails.fill]
  split <;> rfl

/-- A fee cap that is accepted. -/
theorem fill_capped_eq_ok {cap : BitVec 256} {tip : Option (BitVec 256)} :
    GasPriceDetails.fill baseFee (.eip1559 (some cap) tip) = .ok filled ↔
      ∃ effective, checkedAddU256 baseFee (tip.getD 0) = some effective ∧ baseFee ≤ cap ∧
        tip.getD 0 ≤ cap ∧ filled = .eip1559 (some (minU256 cap effective)) tip := by
  have hany : (tip.any fun tip => decide (cap < tip)) = true ↔ ¬tip.getD 0 ≤ cap := by
    cases tip with
    | none => simp
    | some tip => simp
  rw [GasPriceDetails.fill]
  cases hsum : checkedAddU256 baseFee (tip.getD 0) with
  | none => exact ⟨fun h => (by cases h), fun ⟨_, h, _⟩ => (by cases h)⟩
  | some effective =>
    change (if cap < baseFee then _ else _) = _ ↔ _
    split
    · rename_i hlow
      refine ⟨fun h => (by cases h), fun ⟨_, _, hle, _⟩ => ?_⟩
      exact absurd hle (BitVec.not_le.mpr hlow)
    · rename_i hlow
      split
      · rename_i htip
        exact ⟨fun h => (by cases h), fun ⟨_, _, _, hle, _⟩ => absurd hle (hany.mp htip)⟩
      · rename_i htip
        have hle : tip.getD 0 ≤ cap := not_not.mp fun h => htip (hany.mpr h)
        constructor
        · exact fun h => ⟨effective, rfl, BitVec.not_lt.mp hlow, hle, (Except.ok.inj h).symm⟩
        · rintro ⟨effective', heq, -, -, rfl⟩
          rw [Option.some.inj heq]

end Fees

/-! ### From a request to a transaction -/

section Build

variable (maxCodeSize : ℕ)

/-- `check_contract_creation_size`. -/
def checkContractCreationSize : Option Bytes → Result Unit
  | none => .ok ()
  | some code =>
    if 2 * maxCodeSize < code.length then fail (.codeSizeTooLarge code.length) else .ok ()

/-- The kind of a transaction, where the size of a contract is checked. -/
def checkedKind (input : Bytes) : Option Address → Result TxKind
  | some dest => .ok (.call dest)
  | none => do
    checkContractCreationSize maxCodeSize (some input)
    return .create

/-- `TryFrom<CallRequest> for TxEnvelope`. Numbers of 64 bits are what they are. -/
def CallRequest.toTxEnvelope (request : CallRequest) : Result TxEnvelope := do
  let nonce := request.nonce.getD 0
  let gasLimit ← tryU64 (request.gas.getD (toU256 (-1)))
  let value := request.value.getD 0
  let input := request.input.input.getD []
  match request.gasPriceDetails with
  | .legacy gasPrice => do
    let gasPrice ← tryU128 gasPrice
    let dest ← checkedKind maxCodeSize input request.dest
    return TypedTransaction.intoSigned
      (.legacy ⟨request.chainId, nonce, gasPrice, gasLimit, dest, value, input⟩)
  | .eip1559 maxFeePerGas maxPriorityFeePerGas => do
    let chainId := request.chainId.getD 0
    let maxFeePerGas ← tryU128 (maxFeePerGas.getD 0)
    let maxPriorityFeePerGas ← tryU128 (maxPriorityFeePerGas.getD 0)
    let accessList := request.accessList.getD []
    match request.authorizationList with
    | some authorizationList =>
      match request.dest with
      | some dest =>
        return TypedTransaction.intoSigned (.eip7702 ⟨chainId, nonce, gasLimit, maxFeePerGas,
          maxPriorityFeePerGas, dest, value, accessList, authorizationList, input⟩)
      | none => fail .invalidParams
    | none => do
      let dest ← checkedKind maxCodeSize input request.dest
      return TypedTransaction.intoSigned (.eip1559 ⟨chainId, nonce, gasLimit, maxFeePerGas,
        maxPriorityFeePerGas, dest, value, accessList, input⟩)

/-- The kind of a transaction, unless a contract is too large. -/
theorem checkedKind_eq_ok {input : Bytes} {dest : Option Address} {kind : TxKind} :
    checkedKind maxCodeSize input dest = .ok kind ↔
      kind = (dest.map TxKind.call).getD .create ∧
        ¬(dest = none ∧ 2 * maxCodeSize < input.length) := by
  cases dest with
  | some dest => exact ⟨fun h => ⟨(Except.ok.inj h).symm, fun h' => by cases h'.1⟩, fun h => by
      rw [h.1]
      rfl⟩
  | none =>
    unfold checkedKind checkContractCreationSize
    by_cases hlarge : 2 * maxCodeSize < input.length
    · simp [hlarge, fail, bind, Except.bind]
    · simp [hlarge, bind, Except.bind, pure, Except.pure, eq_comm]

theorem noPanic_checkedKind (input : Bytes) (dest : Option Address) :
    NoPanic (checkedKind maxCodeSize input dest) := by
  cases dest with
  | some dest => exact .ok _
  | none =>
    refine NoPanic.bind ?_ fun _ _ => .ok _
    unfold checkContractCreationSize
    split
    · exact .ok _
    · split
      · exact noPanic_fail _
      · exact .ok _

theorem noPanic_toTxEnvelope (request : CallRequest) :
    NoPanic (request.toTxEnvelope maxCodeSize) := by
  refine (noPanic_tryU64 _).bind fun gasLimit _ => ?_
  split
  · exact (noPanic_tryU128 _).bind fun gasPrice _ =>
      (noPanic_checkedKind maxCodeSize _ _).bind fun dest _ => .ok _
  · refine (noPanic_tryU128 _).bind fun maxFeePerGas _ => ?_
    refine (noPanic_tryU128 _).bind fun maxPriorityFeePerGas _ => ?_
    split
    · split
      · exact .ok _
      · exact noPanic_fail _
    · exact (noPanic_checkedKind maxCodeSize _ _).bind fun dest _ => .ok _

/-- **A transaction has the gas limit that is asked for.** -/
theorem gasLimit_of_toTxEnvelope {request : CallRequest} {tx : TxEnvelope} {gas : BitVec 256}
    (h : request.toTxEnvelope maxCodeSize = .ok tx) (hgas : request.gas = some gas) :
    gas = toU256 tx.gasLimit := by
  obtain ⟨gasLimit, hlimit, h⟩ := bind_eq_ok.mp h
  rw [hgas] at hlimit
  have heq : gas = toU256 gasLimit := tryU64_eq_ok.mp hlimit
  split at h
  · obtain ⟨gasPrice, -, h⟩ := bind_eq_ok.mp h
    obtain ⟨dest, -, h⟩ := bind_eq_ok.mp h
    rw [heq, ← Except.ok.inj h]
    rfl
  · obtain ⟨maxFeePerGas, -, h⟩ := bind_eq_ok.mp h
    obtain ⟨maxPriorityFeePerGas, -, h⟩ := bind_eq_ok.mp h
    split at h
    · split at h
      · rw [heq, ← Except.ok.inj h]
        rfl
      · cases h
    · obtain ⟨dest, -, h⟩ := bind_eq_ok.mp h
      rw [heq, ← Except.ok.inj h]
      rfl

end Build

end Rpc

end MonadServices
