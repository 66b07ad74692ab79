import MonadServices.Rpc.CallRequest

/-!
# The fees of simulated calls

`eth_simulateV1` fills in the gas and the fees of the calls of a block one after the other. A call
that does not say what it pays is free, and for it the base fee of the header is set to zero. The
header is the same one for all calls of the block: **after a call that is free, the base fee is zero
for the calls that follow**, whatever they pay.

Whether a call is filled in as it would be without the calls before it depends on its own fees
(`MonadServices.Rpc.Simulate.FeesIndependent`), and whether it is accepted also on the balance of
its sender (`MonadServices.Rpc.Simulate.RejectionIndependent`). **Two blocks treat a call alike if
and only if both or none of them have a call before it that is free, or the call does not depend on
the base fee** (`MonadServices.Rpc.Simulate.filledIndependently_iff`).
-/

namespace MonadServices

namespace Rpc

namespace Simulate

open Jsonrpc

/-! ### Filling in a call -/

/-- What is read of the header of a block. -/
structure Header where
  baseFeePerGas : Option UInt64
  gasLimit : UInt64
  deriving DecidableEq

/-- The header after a call that is free. -/
def Header.free (header : Header) : Header := { header with baseFeePerGas := some 0 }

def Header.baseFee (header : Header) : BitVec 256 := toU256 (header.baseFeePerGas.getD 0)

structure StateOverrideObject where
  balance : Option (BitVec 256)

/-- What the gas of a call depends on: the balances of accounts, or what is wrong, the overrides and
the limit of the provider. -/
structure Env where
  getAccount : Address → Except String (BitVec 256)
  stateOverrides : Address → Option StateOverrideObject
  callGasLimit : UInt64

section Fill

variable (env : Env)

def resolveSenderBalance (sender : Address) : Result (BitVec 256) :=
  match (env.stateOverrides sender).bind StateOverrideObject.balance with
  | some balance => .ok balance
  | none =>
    match env.getAccount sender with
    | .ok balance => .ok balance
    | .error e => fail (.internalError e)

/-- The gas that can be bought, which is at most the limit of the block. -/
def affordable (header : Header) (gasPrice value balance : BitVec 256) : Result UInt64 :=
  if balance = 0 then fail .insufficientFunds
  else if balance < value then fail .insufficientFunds
  else
    let gas := (balance - value) / gasPrice
    .ok (if gas.toNat < header.gasLimit.toNat then UInt64.ofNat gas.toNat else header.gasLimit)

/-- `sender_gas_allowance`. A price is not zero where it divides. -/
def senderGasAllowance (header : Header) (request : CallRequest) : Result UInt64 :=
  match request.sender, request.gasPriceDetails.cap with
  | some sender, some gasPrice =>
    if gasPrice = 0 then .ok header.gasLimit
    else do
      let balance ← resolveSenderBalance env sender
      affordable header gasPrice (request.value.getD 0) balance
  | _, _ => .ok header.gasLimit

/-- Whether a call says what it pays. -/
def priced : GasPriceDetails → Bool
  | .legacy feePerGas => feePerGas != 0
  | .eip1559 (some feePerGas) _ => feePerGas != 0
  | .eip1559 none _ => false

/-- The gas of a call, if it is missing. -/
def withGas (request : CallRequest) (gas : UInt64) : CallRequest :=
  { request with gas := some (minU256 (toU256 gas) (toU256 env.callGasLimit)) }

/-- `fill_gas_params`, with the header for the next call. -/
def fillGasParams (header : Header) (tx : CallRequest) : Result (Header × CallRequest) :=
  if priced tx.gasPriceDetails then do
    let details ← tx.gasPriceDetails.fill header.baseFee
    let filled := { tx with gasPriceDetails := details }
    match tx.gas with
    | some _ => return (header, filled)
    | none => do
      let allowance ← senderGasAllowance env header filled
      return (header, withGas env filled allowance)
  else do
    let details ← tx.gasPriceDetails.fill 0
    let filled := { tx with gasPriceDetails := details }
    match tx.gas with
    | some _ => return (header.free, filled)
    | none => return (header.free, withGas env filled header.gasLimit)

def gasLimitExceeded (accumulatedGas : BitVec 256) (simulationGasLimit : UInt64) :
    Jsonrpc.JsonRpcError :=
  .withMessage .serverError
    ("Gas limit for simulation exceeded: the simulation requires minimum " ++
      s!"{accumulatedGas.toNat} gas which exceeds the maximum allowed {simulationGasLimit.toNat}")

/-- The calls of a block, with the gas of all calls until now. -/
def fillCalls (simulationGasLimit : UInt64) : Header → BitVec 256 → List CallRequest →
    Result (BitVec 256 × List CallRequest)
  | _, accumulatedGas, [] => .ok (accumulatedGas, [])
  | header, accumulatedGas, call :: calls => do
    let filled ← fillGasParams env header call
    let accumulatedGas := accumulatedGas + filled.2.gas.getD 0
    if toU256 simulationGasLimit < accumulatedGas then
      fail (gasLimitExceeded accumulatedGas simulationGasLimit)
    else do
      let rest ← fillCalls simulationGasLimit filled.1 accumulatedGas calls
      return (rest.1, filled.2 :: rest.2)

/-- The header for a call, if those before it are accepted. -/
def headerAt : Header → List CallRequest → ℕ → Option Header
  | header, _, 0 => some header
  | _, [], _ + 1 => none
  | header, call :: calls, i + 1 =>
    match fillGasParams env header call with
    | .ok filled => headerAt filled.1 calls i
    | .error _ => none

end Fill

/-- The calls of all blocks. Each block begins with the header of the base. -/
def fillBlocks (env : Env) (simulationGasLimit : UInt64) (header : Header) :
    BitVec 256 → List ((Address → Option StateOverrideObject) × List CallRequest) →
    Result (List (List CallRequest))
  | _, [] => .ok []
  | accumulatedGas, (stateOverrides, calls) :: blocks => do
    let filled ← fillCalls { env with stateOverrides := stateOverrides } simulationGasLimit header
      accumulatedGas calls
    let rest ← fillBlocks env simulationGasLimit header filled.1 blocks
    return filled.2 :: rest

/-! ### What is asked of a call in two blocks -/

section Expected

variable (env : Env) (simulationGasLimit : UInt64) (header : Header) (accumulatedGas : BitVec 256)

/-- What is filled in of a call. -/
def filledFields (call : CallRequest) : Option (BitVec 256) × GasPriceDetails :=
  (call.gas, call.gasPriceDetails)

/-- A call is not accepted. -/
def Rejects (header : Header) (call : CallRequest) : Prop :=
  ∃ e, fillGasParams env header call = .error e

/-- Two blocks are both filled in. -/
def BothPass (l₁ l₂ : List CallRequest) : Prop :=
  (∃ out, fillCalls env simulationGasLimit header accumulatedGas l₁ = .ok out) ∧
    ∃ out, fillCalls env simulationGasLimit header accumulatedGas l₂ = .ok out

/-- The call at an index is reached in two blocks. -/
def BothReach (l₁ l₂ : List CallRequest) (i : ℕ) : Prop :=
  (∃ h, headerAt env header l₁ i = some h) ∧ ∃ h, headerAt env header l₂ i = some h

/-- **A call of two blocks is filled in independently** of the calls before it: with the same gas
and fees if the blocks pass, and if it is reached, it is accepted in both or in none. -/
structure FilledIndependently (l₁ l₂ : List CallRequest) (i : ℕ) (call : CallRequest) : Prop where
  filled : ∀ out₁ out₂, fillCalls env simulationGasLimit header accumulatedGas l₁ = .ok out₁ →
    fillCalls env simulationGasLimit header accumulatedGas l₂ = .ok out₂ →
    (out₁.2[i]?).map filledFields = (out₂.2[i]?).map filledFields
  rejected : ∀ h₁ h₂, headerAt env header l₁ i = some h₁ → headerAt env header l₂ i = some h₂ →
    (Rejects env h₁ call ↔ Rejects env h₂ call)

/-- A call before the index is free. -/
def FreeBefore (l : List CallRequest) (i : ℕ) : Prop :=
  ∃ call ∈ l.take i, priced call.gasPriceDetails = false

/-- **The fees do not depend on the base fee**: it is zero, the call is free, the price is not below
it, or the tip takes all that the cap leaves. -/
def FeesIndependent (call : CallRequest) : Prop :=
  match call.gasPriceDetails with
  | .legacy gasPrice => gasPrice = 0 ∨ header.baseFee ≤ gasPrice
  | .eip1559 none _ => True
  | .eip1559 (some cap) tip => cap = 0 ∨ header.baseFee = 0 ∨ cap ≤ tip.getD 0

/-- The sender of a call has nothing left for gas, or it is not known what it has. -/
def Unfunded (call : CallRequest) : Prop :=
  ∃ sender, call.sender = some sender ∧
    ∀ balance, resolveSenderBalance env sender = .ok balance →
      balance = 0 ∨ balance < call.value.getD 0

/-- A call has no gas limit, and its sender cannot pay for gas. -/
def CannotPay (call : CallRequest) : Prop := call.gas = none ∧ Unfunded env call

/-- **Whether a call is accepted does not depend on the base fee.** -/
def RejectionIndependent (call : CallRequest) : Prop :=
  match call.gasPriceDetails with
  | .legacy _ => True
  | .eip1559 none _ => True
  | .eip1559 (some cap) tip => cap = 0 ∨ header.baseFee = 0 ∨ cap < tip.getD 0 ∨
    (CannotPay env call ∧ tip.getD 0 ≠ 0) ∨
    (¬CannotPay env call ∧ header.baseFee ≤ cap ∧
      (checkedAddU256 header.baseFee (tip.getD 0)).isSome)

end Expected

/-! ### The header -/

section Headers

variable {env : Env} {simulationGasLimit : UInt64} {header h : Header} {call : CallRequest}
  {filled : Header × CallRequest} {l : List CallRequest} {i : ℕ}

theorem baseFee_free (header : Header) : header.free.baseFee = 0 := rfl

/-- The details of what is filled in. -/
theorem fillGasParams_of_priced (hpriced : priced call.gasPriceDetails = true) :
    fillGasParams env header call = .ok filled ↔
      ∃ details, call.gasPriceDetails.fill header.baseFee = .ok details ∧
        ((∃ gas, call.gas = some gas ∧
          filled = (header, { call with gasPriceDetails := details })) ∨
        call.gas = none ∧ ∃ allowance,
          senderGasAllowance env header { call with gasPriceDetails := details } = .ok allowance ∧
          filled = (header, withGas env { call with gasPriceDetails := details } allowance)) := by
  unfold fillGasParams
  rw [if_pos hpriced, bind_eq_ok]
  refine exists_congr fun details => and_congr_right fun _ => ?_
  cases hgas : call.gas with
  | some gas =>
    constructor
    · exact fun h => .inl ⟨gas, rfl, (Except.ok.inj h).symm⟩
    · rintro (⟨_, -, rfl⟩ | ⟨h, -⟩)
      · rfl
      · cases h
  | none =>
    constructor
    · intro h
      obtain ⟨allowance, hallowance, h⟩ := bind_eq_ok.mp h
      exact .inr ⟨rfl, allowance, hallowance, (Except.ok.inj h).symm⟩
    · rintro (⟨_, h, -⟩ | ⟨-, allowance, hallowance, rfl⟩)
      · cases h
      · exact bind_eq_ok.mpr ⟨allowance, hallowance, rfl⟩

/-- A call that is free does not look at the base fee. -/
theorem fillGasParams_free (hfree : priced call.gasPriceDetails = false) :
    fillGasParams env header.free call = fillGasParams env header call := by
  unfold fillGasParams
  rw [hfree]
  rfl

/-- **What a call does to the header.** -/
theorem header_of_fillGasParams (h : fillGasParams env header call = .ok filled) :
    filled.1 = if priced call.gasPriceDetails then header else header.free := by
  cases hpriced : priced call.gasPriceDetails with
  | true =>
    obtain ⟨details, -, ⟨_, -, rfl⟩ | ⟨-, _, -, rfl⟩⟩ := (fillGasParams_of_priced hpriced).mp h
    · rfl
    · rfl
  | false =>
    unfold fillGasParams at h
    rw [hpriced] at h
    obtain ⟨details, -, h⟩ := bind_eq_ok.mp h
    cases hgas : call.gas with
    | some gas =>
      rw [hgas] at h
      rw [← Except.ok.inj h]
      rfl
    | none =>
      rw [hgas] at h
      rw [← Except.ok.inj h]
      rfl

theorem freeBefore_zero : ¬FreeBefore l 0 := fun ⟨_, h, _⟩ => by cases h

theorem freeBefore_succ :
    FreeBefore (call :: l) (i + 1) ↔ priced call.gasPriceDetails = false ∨ FreeBefore l i := by
  unfold FreeBefore
  simp only [List.take_succ_cons, List.mem_cons, exists_eq_or_imp]

/-- **The header for a call** is the first one, or without a base fee after a call that is free. -/
theorem headerAt_eq (hat : headerAt env header l i = some h) :
    (FreeBefore l i → h = header.free) ∧ (¬FreeBefore l i → h = header) := by
  induction l generalizing header i with
  | nil =>
    cases i with
    | zero =>
      obtain rfl := Option.some.inj hat
      exact ⟨fun hfree => absurd hfree freeBefore_zero, fun _ => rfl⟩
    | succ i => cases hat
  | cons call l ih =>
    cases i with
    | zero =>
      obtain rfl := Option.some.inj hat
      exact ⟨fun hfree => absurd hfree freeBefore_zero, fun _ => rfl⟩
    | succ i =>
      rw [headerAt] at hat
      split at hat
      · rename_i filled hfilled
        obtain ⟨hfree, hnot⟩ := ih hat
        have hheader := header_of_fillGasParams hfilled
        rw [freeBefore_succ]
        cases hpriced : priced call.gasPriceDetails with
        | true =>
          rw [hpriced] at hheader
          rw [hheader] at hfree hnot
          simpa using ⟨hfree, hnot⟩
        | false =>
          rw [hpriced] at hheader
          rw [hheader] at hfree hnot
          refine ⟨fun _ => ?_, fun h' => absurd (.inl rfl) h'⟩
          by_cases hbefore : FreeBefore l i
          · exact hfree hbefore
          · exact hnot hbefore
      · cases hat

/-- **A call of a block that passes** is reached, and accepted as it is in the result. -/
theorem exists_of_fillCalls {accumulatedGas : BitVec 256} {out : BitVec 256 × List CallRequest}
    (hout : fillCalls env simulationGasLimit header accumulatedGas l = .ok out)
    (hi : l[i]? = some call) : ∃ h filled, headerAt env header l i = some h ∧
      fillGasParams env h call = .ok filled ∧ out.2[i]? = some filled.2 := by
  induction l generalizing header accumulatedGas out i with
  | nil => cases hi
  | cons first l ih =>
    obtain ⟨filled, hfilled, hout⟩ := bind_eq_ok.mp hout
    dsimp only at hout
    split at hout
    · cases hout
    · obtain ⟨rest, hrest, hout⟩ := bind_eq_ok.mp hout
      obtain rfl := Except.ok.inj hout
      cases i with
      | zero =>
        obtain rfl := Option.some.inj hi
        exact ⟨header, filled, rfl, hfilled, rfl⟩
      | succ i =>
        obtain ⟨h, filled', hat, hfill, hget⟩ := ih hrest hi
        refine ⟨h, filled', ?_, hfill, hget⟩
        rw [headerAt, hfilled]
        exact hat

end Headers

/-! ### One call, with the base fee and without it -/

section OneCall

variable {env : Env} {header : Header} {call : CallRequest} {details : GasPriceDetails}
  {price cap : BitVec 256} {tip : Option (BitVec 256)}

theorem exists_affordable {value balance : BitVec 256} :
    (∃ gas, affordable header price value balance = .ok gas) ↔
      ¬(balance = 0 ∨ balance < value) := by
  unfold affordable
  split
  · rename_i hzero
    exact ⟨fun ⟨_, h⟩ => (by cases h), fun h => absurd (.inl hzero) h⟩
  · rename_i hzero
    split
    · rename_i hlow
      exact ⟨fun ⟨_, h⟩ => (by cases h), fun h => absurd (.inr hlow) h⟩
    · rename_i hlow
      exact ⟨fun _ h => h.elim hzero hlow, fun _ => ⟨_, rfl⟩⟩

/-- **Gas is allowed** if the call costs nothing, or its sender can pay. -/
theorem exists_senderGasAllowance (hcap : details.cap = some price) :
    (∃ gas, senderGasAllowance env header { call with gasPriceDetails := details } = .ok gas) ↔
      price = 0 ∨ ¬Unfunded env call := by
  unfold senderGasAllowance
  dsimp only
  rw [hcap]
  cases hsender : call.sender with
  | none =>
    refine ⟨fun _ => .inr fun ⟨_, h, _⟩ => ?_, fun _ => ⟨_, rfl⟩⟩
    rw [hsender] at h
    cases h
  | some sender =>
    dsimp only
    by_cases hzero : price = 0
    · rw [if_pos hzero]
      exact ⟨fun _ => .inl hzero, fun _ => ⟨_, rfl⟩⟩
    · rw [if_neg hzero]
      constructor
      · rintro ⟨gas, h⟩
        obtain ⟨balance, hbalance, h⟩ := bind_eq_ok.mp h
        refine .inr fun ⟨sender', hsender', hnot⟩ => ?_
        rw [hsender] at hsender'
        obtain rfl := Option.some.inj hsender'
        exact exists_affordable.mp ⟨gas, h⟩ (hnot balance hbalance)
      · rintro (h | hfunded)
        · exact absurd h hzero
        · by_contra hnone
          refine hfunded ⟨sender, hsender, fun balance hbalance => ?_⟩
          by_contra hnot
          obtain ⟨gas, hgas⟩ := exists_affordable.mpr hnot
          exact hnone ⟨gas, bind_eq_ok.mpr ⟨balance, hbalance, hgas⟩⟩

theorem rejects_iff_not : Rejects env header call ↔ ¬∃ filled,
    fillGasParams env header call = .ok filled := by
  unfold Rejects
  cases fillGasParams env header call with
  | ok filled => exact ⟨fun ⟨_, h⟩ => (by cases h), fun h => absurd ⟨_, rfl⟩ h⟩
  | error e => exact ⟨fun _ ⟨_, h⟩ => (by cases h), fun _ => ⟨e, rfl⟩⟩

/-- **When a call that says what it pays is accepted.** -/
theorem exists_fillGasParams (hpriced : priced call.gasPriceDetails = true) :
    (∃ filled, fillGasParams env header call = .ok filled) ↔
      ∃ details, call.gasPriceDetails.fill header.baseFee = .ok details ∧
        (CannotPay env call → details.cap = some 0) := by
  have hcap : ∀ details, call.gasPriceDetails.fill header.baseFee = .ok details →
      ∃ price, details.cap = some price := by
    intro details h
    cases hdetails : call.gasPriceDetails with
    | legacy gasPrice =>
      rw [hdetails, fill_legacy] at h
      rw [← Except.ok.inj h]
      exact ⟨_, rfl⟩
    | eip1559 cap tip =>
      cases cap with
      | none =>
        rw [hdetails] at hpriced
        cases hpriced
      | some cap =>
        rw [hdetails] at h
        obtain ⟨_, -, -, -, rfl⟩ := fill_capped_eq_ok.mp h
        exact ⟨_, rfl⟩
  simp only [fillGasParams_of_priced hpriced]
  rw [exists_comm]
  refine exists_congr fun details => ?_
  constructor
  · rintro ⟨filled, hfill, hcases⟩
    refine ⟨hfill, fun ⟨hgas, hunfunded⟩ => ?_⟩
    obtain ⟨price, hprice⟩ := hcap details hfill
    obtain ⟨gas, hsome, -⟩ | ⟨-, allowance, hallowance, -⟩ := hcases
    · rw [hgas] at hsome
      cases hsome
    · obtain hzero | hfunded := (exists_senderGasAllowance hprice).mp ⟨allowance, hallowance⟩
      · rw [hprice, hzero]
      · exact absurd hunfunded hfunded
  · rintro ⟨hfill, hpay⟩
    obtain ⟨price, hprice⟩ := hcap details hfill
    cases hgas : call.gas with
    | some gas => exact ⟨_, hfill, .inl ⟨gas, rfl, rfl⟩⟩
    | none =>
      have hallowed : ∃ gas, senderGasAllowance env header
          { call with gasPriceDetails := details } = .ok gas := by
        refine (exists_senderGasAllowance hprice).mpr ?_
        by_cases hunfunded : Unfunded env call
        · exact .inl (Option.some.inj (hprice.symm.trans (hpay ⟨hgas, hunfunded⟩)))
        · exact .inr hunfunded
      obtain ⟨allowance, hallowance⟩ := hallowed
      exact ⟨_, hfill, .inr ⟨rfl, allowance, hallowance, rfl⟩⟩

/-- A gas price is never too low, and is never made zero. -/
theorem exists_fillGasParams_legacy (hdetails : call.gasPriceDetails = .legacy price)
    (hprice : price ≠ 0) :
    (∃ filled, fillGasParams env header call = .ok filled) ↔ ¬CannotPay env call := by
  rw [exists_fillGasParams (by rw [hdetails]; exact bne_iff_ne.mpr hprice), hdetails, fill_legacy]
  have hpos : (if price < header.baseFee then header.baseFee else price) ≠ 0 := by
    split
    · rename_i hlt
      intro hzero
      rw [hzero] at hlt
      exact absurd (BitVec.lt_def.mp hlt) (Nat.not_lt_zero _)
    · exact hprice
  constructor
  · rintro ⟨details, hfill, hpay⟩ hcannot
    rw [← Except.ok.inj hfill] at hpay
    exact hpos (Option.some.inj (hpay hcannot))
  · exact fun hpays => ⟨_, rfl, fun hcannot => absurd hcannot hpays⟩

/-- A fee cap is accepted if it is enough for the base fee and the tip. -/
theorem exists_fillGasParams_capped (hdetails : call.gasPriceDetails = .eip1559 (some cap) tip)
    (hcap : cap ≠ 0) :
    (∃ filled, fillGasParams env header call = .ok filled) ↔
      ∃ effective, checkedAddU256 header.baseFee (tip.getD 0) = some effective ∧
        header.baseFee ≤ cap ∧ tip.getD 0 ≤ cap ∧
        (CannotPay env call → minU256 cap effective = 0) := by
  rw [exists_fillGasParams (by rw [hdetails]; exact bne_iff_ne.mpr hcap), hdetails]
  simp only [fill_capped_eq_ok]
  constructor
  · rintro ⟨details, ⟨effective, hsum, hbase, htip, rfl⟩, hpay⟩
    exact ⟨effective, hsum, hbase, htip, fun hcannot => Option.some.inj (hpay hcannot)⟩
  · rintro ⟨effective, hsum, hbase, htip, hpay⟩
    exact ⟨_, ⟨effective, hsum, hbase, htip, rfl⟩, fun hcannot => congrArg some (hpay hcannot)⟩

theorem eq_zero_iff {n : BitVec 256} : n = 0 ↔ n.toNat = 0 :=
  ⟨fun h => by rw [h]; rfl, fun h => BitVec.eq_of_toNat_eq h⟩

theorem minU256_eq_zero {a b : BitVec 256} (ha : a ≠ 0) : minU256 a b = 0 ↔ b = 0 := by
  rw [eq_zero_iff, toNat_minU256, eq_zero_iff]
  have hpos : a.toNat ≠ 0 := fun h => ha (eq_zero_iff.mpr h)
  omega

/-- With a base fee, what is paid is never zero. -/
theorem exists_fillGasParams_with (hdetails : call.gasPriceDetails = .eip1559 (some cap) tip)
    (hcap : cap ≠ 0) (hbase : header.baseFee ≠ 0) :
    (∃ filled, fillGasParams env header call = .ok filled) ↔
      (checkedAddU256 header.baseFee (tip.getD 0)).isSome ∧ header.baseFee ≤ cap ∧
        tip.getD 0 ≤ cap ∧ ¬CannotPay env call := by
  rw [exists_fillGasParams_capped hdetails hcap]
  constructor
  · rintro ⟨effective, hsum, hle, htip, hpay⟩
    refine ⟨Option.isSome_iff_exists.mpr ⟨_, hsum⟩, hle, htip, fun hcannot => hbase ?_⟩
    have hzero := eq_zero_iff.mp ((minU256_eq_zero hcap).mp (hpay hcannot))
    have hnat := checkedAddU256_eq_some.mp hsum
    rw [eq_zero_iff]
    omega
  · rintro ⟨hsome, hle, htip, hpays⟩
    obtain ⟨effective, hsum⟩ := Option.isSome_iff_exists.mp hsome
    exact ⟨effective, hsum, hle, htip, fun hcannot => absurd hcannot hpays⟩

/-- Without one, a call without a tip is free. -/
theorem exists_fillGasParams_without (hdetails : call.gasPriceDetails = .eip1559 (some cap) tip)
    (hcap : cap ≠ 0) :
    (∃ filled, fillGasParams env header.free call = .ok filled) ↔
      tip.getD 0 ≤ cap ∧ (CannotPay env call → tip.getD 0 = 0) := by
  rw [exists_fillGasParams_capped hdetails hcap, baseFee_free]
  simp only [checkedAddU256_zero, Option.some.injEq, exists_eq_left', minU256_eq_zero hcap]
  have hle : (0 : BitVec 256) ≤ cap := BitVec.le_def.mpr (Nat.zero_le _)
  exact ⟨fun h => h.2, fun h => ⟨hle, h⟩⟩

/-- The two conditions are the same in these cases. -/
theorem accepts_congr {fits low tips cannot zero : Prop} :
    ((fits ∧ low ∧ tips ∧ ¬cannot) ↔ tips ∧ (cannot → zero)) ↔
      ¬tips ∨ (cannot ∧ ¬zero) ∨ (¬cannot ∧ low ∧ fits) := by
  by_cases hcannot : cannot
  · simp only [hcannot, not_true, and_false, false_iff, true_implies, true_and, false_and, or_false]
    tauto
  · simp only [hcannot, not_false_iff, and_true, false_implies, false_and, true_and, false_or]
    tauto

/-- **Whether a call is accepted without the base fee as with it.** -/
theorem rejects_iff : (Rejects env header call ↔ Rejects env header.free call) ↔
    RejectionIndependent env header call := by
  rw [rejects_iff_not, rejects_iff_not, not_iff_not, RejectionIndependent]
  cases hdetails : call.gasPriceDetails with
  | legacy price =>
    refine ⟨fun _ => trivial, fun _ => ?_⟩
    by_cases hprice : price = 0
    · rw [fillGasParams_free (by rw [hdetails, hprice]; rfl)]
    · rw [exists_fillGasParams_legacy hdetails hprice, exists_fillGasParams_legacy hdetails hprice]
  | eip1559 cap tip =>
    cases cap with
    | none =>
      refine ⟨fun _ => trivial, fun _ => ?_⟩
      rw [fillGasParams_free (by rw [hdetails]; rfl)]
    | some cap =>
      dsimp only
      by_cases hcap : cap = 0
      · rw [fillGasParams_free (by rw [hdetails, hcap]; rfl)]
        exact ⟨fun _ => .inl hcap, fun _ => Iff.rfl⟩
      · by_cases hbase : header.baseFee = 0
        · rw [exists_fillGasParams_capped hdetails hcap, exists_fillGasParams_capped hdetails hcap,
            baseFee_free, hbase]
          exact ⟨fun _ => .inr (.inl rfl), fun _ => Iff.rfl⟩
        · rw [exists_fillGasParams_with hdetails hcap hbase,
            exists_fillGasParams_without hdetails hcap, accepts_congr, BitVec.not_le]
          exact ⟨fun h => .inr (.inr h), fun h => (h.resolve_left hcap).resolve_left hbase⟩

/-- The gas that is allowed does not depend on the base fee. -/
theorem senderGasAllowance_free (request : CallRequest) :
    senderGasAllowance env header.free request = senderGasAllowance env header request :=
  rfl

/-- What is filled in is the same if and only if the fees are. -/
theorem filledFields_eq_iff_details {filled₁ filled₂ : Header × CallRequest}
    (hpriced : priced call.gasPriceDetails = true)
    (h₁ : fillGasParams env header call = .ok filled₁)
    (h₂ : fillGasParams env header.free call = .ok filled₂) :
    filledFields filled₁.2 = filledFields filled₂.2 ↔
      call.gasPriceDetails.fill header.baseFee = call.gasPriceDetails.fill 0 := by
  obtain ⟨details₁, hfill₁, hcases₁⟩ := (fillGasParams_of_priced hpriced).mp h₁
  obtain ⟨details₂, hfill₂, hcases₂⟩ := (fillGasParams_of_priced hpriced).mp h₂
  rw [baseFee_free] at hfill₂
  rw [hfill₁, hfill₂, Except.ok.injEq]
  obtain ⟨gas, hgas, rfl⟩ | ⟨hgas, allowance₁, hallowance₁, rfl⟩ := hcases₁ <;>
    obtain ⟨gas', hgas', rfl⟩ | ⟨hgas', allowance₂, hallowance₂, rfl⟩ := hcases₂
  · exact ⟨fun h => congrArg Prod.snd h, fun h => by rw [h]⟩
  · exact absurd (hgas.symm.trans hgas') (by simp)
  · exact absurd (hgas.symm.trans hgas') (by simp)
  · refine ⟨fun h => congrArg Prod.snd h, fun h => ?_⟩
    rw [senderGasAllowance_free, ← h, hallowance₁] at hallowance₂
    rw [h, Except.ok.inj hallowance₂]

/-- A gas price is raised to the base fee. -/
theorem fill_legacy_eq_iff {baseFee : BitVec 256} (hprice : price ≠ 0) :
    GasPriceDetails.fill baseFee (.legacy price) = GasPriceDetails.fill 0 (.legacy price) ↔
      price = 0 ∨ baseFee ≤ price := by
  have hzero : ¬price < 0 := fun h => Nat.not_lt_zero _ (BitVec.lt_def.mp h)
  rw [fill_legacy, fill_legacy, if_neg hzero, Except.ok.injEq, GasPriceDetails.legacy.injEq]
  constructor
  · intro h
    refine .inr (BitVec.not_lt.mp fun hlt => ?_)
    rw [if_pos hlt] at h
    rw [h] at hlt
    exact absurd hlt (BitVec.lt_irrefl _)
  · rintro (h | hle)
    · exact absurd h hprice
    · rw [if_neg (BitVec.not_lt.mpr hle)]

/-- A cap is lowered to the base fee and the tip. -/
theorem fill_capped_eq_iff {baseFee : BitVec 256} {details₁ details₂ : GasPriceDetails}
    (hcap : cap ≠ 0)
    (h₁ : GasPriceDetails.fill baseFee (.eip1559 (some cap) tip) = .ok details₁)
    (h₂ : GasPriceDetails.fill 0 (.eip1559 (some cap) tip) = .ok details₂) :
    details₁ = details₂ ↔ cap = 0 ∨ baseFee = 0 ∨ cap ≤ tip.getD 0 := by
  obtain ⟨effective, hsum, -, htip, rfl⟩ := fill_capped_eq_ok.mp h₁
  obtain ⟨effective', hsum', -, -, rfl⟩ := fill_capped_eq_ok.mp h₂
  rw [checkedAddU256_zero] at hsum'
  obtain rfl := Option.some.inj hsum'
  have hnat := checkedAddU256_eq_some.mp hsum
  have hle := BitVec.le_def.mp htip
  have heq : minU256 cap effective = minU256 cap (tip.getD 0) ↔
      min cap.toNat effective.toNat = min cap.toNat (tip.getD 0).toNat := by
    rw [← toNat_minU256, ← toNat_minU256]
    exact ⟨congrArg BitVec.toNat, BitVec.eq_of_toNat_eq⟩
  simp only [GasPriceDetails.eip1559.injEq, Option.some.injEq, and_true, heq, hcap, false_or]
  rw [eq_zero_iff, BitVec.le_def]
  omega

/-- **Whether a call is filled in without the base fee as with it.** -/
theorem filledFields_eq_iff {filled₁ filled₂ : Header × CallRequest}
    (h₁ : fillGasParams env header call = .ok filled₁)
    (h₂ : fillGasParams env header.free call = .ok filled₂) :
    filledFields filled₁.2 = filledFields filled₂.2 ↔ FeesIndependent header call := by
  cases hpriced : priced call.gasPriceDetails with
  | false =>
    rw [fillGasParams_free hpriced, h₁] at h₂
    rw [Except.ok.inj h₂]
    refine ⟨fun _ => ?_, fun _ => rfl⟩
    unfold FeesIndependent
    cases hdetails : call.gasPriceDetails with
    | legacy price =>
      rw [hdetails] at hpriced
      exact .inl (by simpa [priced] using hpriced)
    | eip1559 cap tip =>
      cases cap with
      | none => trivial
      | some cap =>
        rw [hdetails] at hpriced
        exact .inl (by simpa [priced] using hpriced)
  | true =>
    rw [filledFields_eq_iff_details hpriced h₁ h₂, FeesIndependent]
    obtain ⟨details₁, hfill₁, -⟩ := (fillGasParams_of_priced hpriced).mp h₁
    obtain ⟨details₂, hfill₂, -⟩ := (fillGasParams_of_priced hpriced).mp h₂
    rw [baseFee_free] at hfill₂
    cases hdetails : call.gasPriceDetails with
    | legacy price =>
      rw [hdetails] at hpriced
      exact fill_legacy_eq_iff (bne_iff_ne.mp hpriced)
    | eip1559 cap tip =>
      cases cap with
      | none =>
        rw [hdetails] at hpriced
        cases hpriced
      | some cap =>
        rw [hdetails] at hpriced hfill₁ hfill₂
        rw [hfill₁, hfill₂, Except.ok.injEq]
        exact fill_capped_eq_iff (bne_iff_ne.mp hpriced) hfill₁ hfill₂

end OneCall

/-! ### Two blocks -/

section TwoBlocks

variable {env : Env} {simulationGasLimit : UInt64} {header h₁ h₂ : Header}
  {accumulatedGas : BitVec 256} {l₁ l₂ : List CallRequest} {i : ℕ} {call : CallRequest}

/-- Either the headers are the same, or one of them has no base fee where the other one has it. -/
theorem headerAt_cases (hat₁ : headerAt env header l₁ i = some h₁)
    (hat₂ : headerAt env header l₂ i = some h₂) :
    ((FreeBefore l₁ i ↔ FreeBefore l₂ i) ∧ h₁ = h₂) ∨
      (¬(FreeBefore l₁ i ↔ FreeBefore l₂ i) ∧
        (h₁ = header ∧ h₂ = header.free ∨ h₁ = header.free ∧ h₂ = header)) := by
  obtain ⟨hfree₁, hnot₁⟩ := headerAt_eq hat₁
  obtain ⟨hfree₂, hnot₂⟩ := headerAt_eq hat₂
  by_cases hb₁ : FreeBefore l₁ i <;> by_cases hb₂ : FreeBefore l₂ i
  · exact .inl ⟨iff_of_true hb₁ hb₂, (hfree₁ hb₁).trans (hfree₂ hb₂).symm⟩
  · exact .inr ⟨fun h => hb₂ (h.mp hb₁), .inr ⟨hfree₁ hb₁, hnot₂ hb₂⟩⟩
  · exact .inr ⟨fun h => hb₁ (h.mpr hb₂), .inl ⟨hnot₁ hb₁, hfree₂ hb₂⟩⟩
  · exact .inl ⟨iff_of_false hb₁ hb₂, (hnot₁ hb₁).trans (hnot₂ hb₂).symm⟩

/-- A call that is reached in two blocks is accepted in both or in none. -/
theorem rejects_at_iff (hat₁ : headerAt env header l₁ i = some h₁)
    (hat₂ : headerAt env header l₂ i = some h₂) :
    (Rejects env h₁ call ↔ Rejects env h₂ call) ↔
      (FreeBefore l₁ i ↔ FreeBefore l₂ i) ∨ RejectionIndependent env header call := by
  obtain ⟨hsame, rfl⟩ | ⟨hdiffer, ⟨rfl, rfl⟩ | ⟨rfl, rfl⟩⟩ := headerAt_cases hat₁ hat₂
  · exact iff_of_true Iff.rfl (.inl hsame)
  · rw [rejects_iff]
    exact ⟨.inr, fun h => h.resolve_left hdiffer⟩
  · rw [@iff_comm (Rejects env h₂.free call), rejects_iff]
    exact ⟨.inr, fun h => h.resolve_left hdiffer⟩

/-- A call of two blocks that pass is filled in alike. -/
theorem filledFields_at_iff {filled₁ filled₂ : Header × CallRequest}
    (hat₁ : headerAt env header l₁ i = some h₁) (hat₂ : headerAt env header l₂ i = some h₂)
    (hfill₁ : fillGasParams env h₁ call = .ok filled₁)
    (hfill₂ : fillGasParams env h₂ call = .ok filled₂) :
    filledFields filled₁.2 = filledFields filled₂.2 ↔
      (FreeBefore l₁ i ↔ FreeBefore l₂ i) ∨ FeesIndependent header call := by
  obtain ⟨hsame, rfl⟩ | ⟨hdiffer, ⟨rfl, rfl⟩ | ⟨rfl, rfl⟩⟩ := headerAt_cases hat₁ hat₂
  · rw [hfill₁] at hfill₂
    rw [Except.ok.inj hfill₂]
    exact iff_of_true rfl (.inl hsame)
  · rw [filledFields_eq_iff hfill₁ hfill₂]
    exact ⟨.inr, fun h => h.resolve_left hdiffer⟩
  · rw [eq_comm, filledFields_eq_iff hfill₂ hfill₁]
    exact ⟨.inr, fun h => h.resolve_left hdiffer⟩

/-- **A call of two blocks is filled in independently of the calls before it if and only if** both
or none of the blocks have a call before it that is free, or it does not depend on the base fee:
what is filled in if the blocks pass, and whether it is accepted if it is reached. -/
theorem filledIndependently_iff (hi₁ : l₁[i]? = some call) (hi₂ : l₂[i]? = some call) :
    FilledIndependently env simulationGasLimit header accumulatedGas l₁ l₂ i call ↔
      (BothPass env simulationGasLimit header accumulatedGas l₁ l₂ →
        (FreeBefore l₁ i ↔ FreeBefore l₂ i) ∨ FeesIndependent header call) ∧
      (BothReach env header l₁ l₂ i →
        (FreeBefore l₁ i ↔ FreeBefore l₂ i) ∨ RejectionIndependent env header call) := by
  have hfields : ∀ out₁ out₂,
      fillCalls env simulationGasLimit header accumulatedGas l₁ = .ok out₁ →
      fillCalls env simulationGasLimit header accumulatedGas l₂ = .ok out₂ →
      ((out₁.2[i]?).map filledFields = (out₂.2[i]?).map filledFields ↔
        (FreeBefore l₁ i ↔ FreeBefore l₂ i) ∨ FeesIndependent header call) := by
    intro out₁ out₂ hout₁ hout₂
    obtain ⟨h₁, filled₁, hat₁, hfill₁, hget₁⟩ := exists_of_fillCalls hout₁ hi₁
    obtain ⟨h₂, filled₂, hat₂, hfill₂, hget₂⟩ := exists_of_fillCalls hout₂ hi₂
    rw [hget₁, hget₂, Option.map_some, Option.map_some, Option.some.injEq]
    exact filledFields_at_iff hat₁ hat₂ hfill₁ hfill₂
  constructor
  · intro h
    refine ⟨?_, ?_⟩
    · rintro ⟨⟨out₁, hout₁⟩, out₂, hout₂⟩
      exact (hfields out₁ out₂ hout₁ hout₂).mp (h.filled out₁ out₂ hout₁ hout₂)
    · rintro ⟨⟨h₁, hat₁⟩, h₂, hat₂⟩
      exact (rejects_at_iff hat₁ hat₂).mp (h.rejected h₁ h₂ hat₁ hat₂)
  · rintro ⟨hpass, hreach⟩
    refine ⟨fun out₁ out₂ hout₁ hout₂ => ?_, fun h₁ h₂ hat₁ hat₂ => ?_⟩
    · exact (hfields out₁ out₂ hout₁ hout₂).mpr (hpass ⟨⟨out₁, hout₁⟩, out₂, hout₂⟩)
    · exact (rejects_at_iff hat₁ hat₂).mpr (hreach ⟨⟨h₁, hat₁⟩, h₂, hat₂⟩)

/-- Every block is filled in from the header of the base. -/
theorem exists_of_fillBlocks
    {blocks : List ((Address → Option StateOverrideObject) × List CallRequest)}
    {stateOverrides : Address → Option StateOverrideObject} {out : List (List CallRequest)}
    (hout : fillBlocks env simulationGasLimit header accumulatedGas blocks = .ok out)
    (hi : blocks[i]? = some (stateOverrides, l₁)) : ∃ gas filled,
      fillCalls { env with stateOverrides := stateOverrides } simulationGasLimit header gas l₁ =
        .ok filled ∧ out[i]? = some filled.2 := by
  induction blocks generalizing accumulatedGas out i with
  | nil => cases hi
  | cons block blocks ih =>
    obtain ⟨filled, hfilled, hout⟩ := bind_eq_ok.mp hout
    obtain ⟨rest, hrest, hout⟩ := bind_eq_ok.mp hout
    obtain rfl := Except.ok.inj hout
    cases i with
    | zero =>
      obtain rfl := Option.some.inj hi
      exact ⟨accumulatedGas, filled, hfilled, rfl⟩
    | succ i =>
      have hget : blocks[i]? = some (stateOverrides, l₁) := hi
      have hblock := ih hrest hget
      exact hblock

end TwoBlocks

/-! ### A call after one that is free -/

def sampleEnv : Env where
  getAccount := fun _ => .ok 1000000000000000000
  stateOverrides := fun _ => none
  callGasLimit := 30000000

def sampleHeader : Header := ⟨some 100, 30000000⟩

/-- A call with its fees. -/
def sampleCall (details : GasPriceDetails) : CallRequest :=
  { CallRequest.default with gas := some 21000, gasPriceDetails := details }

/-- **A price that is not below the base fee** stays what it is, after any call. -/
theorem filledIndependently_legacy :
    FilledIndependently sampleEnv 30000000 sampleHeader 0
      [sampleCall (.eip1559 none none), sampleCall (.legacy 150)]
      [sampleCall (.legacy 200), sampleCall (.legacy 150)] 1 (sampleCall (.legacy 150)) :=
  (filledIndependently_iff rfl rfl).mpr ⟨fun _ => .inr (.inr (by decide)), fun _ => .inr trivial⟩

/-- **A cap without a tip** is lowered to the base fee, which is zero after a call that is free. -/
theorem not_filledIndependently_capped :
    ¬FilledIndependently sampleEnv 30000000 sampleHeader 0
      [sampleCall (.eip1559 none none), sampleCall (.eip1559 (some 150) none)]
      [sampleCall (.legacy 200), sampleCall (.eip1559 (some 150) none)] 1
      (sampleCall (.eip1559 (some 150) none)) := by
  intro h
  have hsame := h.filled (42000, [sampleCall (.eip1559 (some 0) none),
    sampleCall (.eip1559 (some 0) none)]) (42000, [sampleCall (.legacy 200),
    sampleCall (.eip1559 (some 100) none)]) rfl rfl
  exact absurd hsame (by decide)

end Simulate

end Rpc

end MonadServices
