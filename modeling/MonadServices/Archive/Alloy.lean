import MonadServices.Primitives

/-!
# What the archive stores

The blocks, receipts and traces of the archive. Transactions, receipts and headers are
types of other libraries; the archive reads a few of their fields and relies on their RLP
codings, of which decoding undoes encoding. `MonadServices.Archive.Alloy` collects all that
is used of them.

A block is coded as the list of its header, its transactions, its ommers and, if it has
any, its withdrawals (`MonadServices.Archive.Block.codec`).
-/

namespace MonadServices

namespace Archive

/-- A log. -/
structure Log where
  address : Address
  topics : List B256
  data : Bytes
  deriving DecidableEq

/-- A transaction with its sender. -/
structure TxEnvelopeWithSender (Tx : Type) where
  sender : Address
  tx : Tx
  deriving DecidableEq

/-- A receipt with the number of logs before it in its block. -/
structure ReceiptWithLogIndex (Receipt : Type) where
  receipt : Receipt
  startingLogIndex : UInt64
  deriving DecidableEq

/-- **The types the archive takes from other libraries**, what it reads of them and their
codings. -/
structure Alloy where
  Header : Type
  TxEnvelope : Type
  ReceiptEnvelope : Type
  Withdrawal : Type
  header : RlpCodec Header
  txEnvelope : RlpCodec TxEnvelope
  txWithSender : RlpCodec (TxEnvelopeWithSender TxEnvelope)
  receiptEnvelope : RlpCodec ReceiptEnvelope
  receiptWithLogIndex : RlpCodec (ReceiptWithLogIndex ReceiptEnvelope)
  withdrawal : RlpCodec Withdrawal
  /-- The coding of a trace, which is a vector of bytes. -/
  trace : RlpCodec Bytes
  /-- A transaction with its sender is coded as the list of its two fields. -/
  txWithSender_fields : ∀ x tx, txWithSender.ofRlp x = some tx → ∃ y z, x = .list [y, z]
  number : Header → UInt64
  timestamp : Header → UInt64
  baseFeePerGas : Header → Option UInt64
  hashSlow : Header → B256
  txHash : TxEnvelope → B256
  /-- Fails on a transaction with a bad signature. -/
  recoverSigner : TxEnvelope → Option Address
  cumulativeGasUsed : ReceiptEnvelope → UInt64
  logs : ReceiptEnvelope → List Log

/-- A block, over the type of its transactions. -/
structure Block (Header Withdrawal Tx : Type) where
  header : Header
  transactions : List Tx
  ommers : List Header
  withdrawals : Option (List Withdrawal)
  deriving DecidableEq

namespace Alloy

variable (alloy : Alloy)

/-- A transaction with its sender. -/
abbrev Tx := TxEnvelopeWithSender alloy.TxEnvelope

/-- A receipt with its log index. -/
abbrev Receipt := ReceiptWithLogIndex alloy.ReceiptEnvelope

/-- A block as it was stored first, without the senders. -/
abbrev BlockV0 := Archive.Block alloy.Header alloy.Withdrawal alloy.TxEnvelope

/-- A block with the senders of its transactions. -/
abbrev Block := Archive.Block alloy.Header alloy.Withdrawal alloy.Tx

end Alloy

section Codec

variable {Header Withdrawal Tx : Type} (header : RlpCodec Header)
  (withdrawal : RlpCodec Withdrawal) (tx : RlpCodec Tx)

/-- The items of a block. -/
def Block.items (block : Block Header Withdrawal Tx) : List Rlp :=
  header.toRlp block.header :: .list (block.transactions.map tx.toRlp) ::
    .list (block.ommers.map header.toRlp) :: withdrawal.vec.trailing block.withdrawals

/-- Reads a block. -/
def Block.ofItems : Rlp → Option (Block Header Withdrawal Tx)
  | .list (h :: .list txs :: .list ommers :: rest) => do
    let h ← header.ofRlp h
    let txs ← txs.mapM tx.ofRlp
    let ommers ← ommers.mapM header.ofRlp
    let withdrawals ← withdrawal.vec.ofTrailing rest
    return ⟨h, txs, ommers, withdrawals⟩
  | _ => none

/-- **The coding of a block.** The withdrawals are a list, and no list is coded by the empty
string. -/
def Block.codec : RlpCodec (Block Header Withdrawal Tx) where
  toRlp block := .list (block.items header withdrawal tx)
  ofRlp := Block.ofItems header withdrawal tx
  ofRlp_toRlp block := by
    have hw : withdrawal.vec.ofTrailing (withdrawal.vec.trailing block.withdrawals) =
        some block.withdrawals := RlpCodec.ofTrailing_trailing _ fun _ _ => nofun
    simp [Block.items, Block.ofItems, header.ofRlp_toRlp, tx.mapM_ofRlp_map_toRlp,
      header.mapM_ofRlp_map_toRlp, hw]

end Codec

namespace Alloy

variable (alloy : Alloy)

/-- The coding of a block without senders. -/
def blockV0 : RlpCodec alloy.BlockV0 :=
  Block.codec alloy.header alloy.withdrawal alloy.txEnvelope

/-- The coding of a block with senders. -/
def block : RlpCodec alloy.Block :=
  Block.codec alloy.header alloy.withdrawal alloy.txWithSender

/-- An instance to evaluate on: a header is its block number, a transaction and a receipt are
a number each, and hashes and senders are the numbers themselves. -/
def sample : Alloy where
  Header := UInt64
  TxEnvelope := UInt64
  ReceiptEnvelope := UInt64
  Withdrawal := UInt64
  header := .uint64
  txEnvelope := .uint64
  txWithSender := {
    toRlp := fun t => .list [(RlpCodec.fixed 20).toRlp t.sender, RlpCodec.uint64.toRlp t.tx]
    ofRlp
      | .list [sender, tx] => do
        return ⟨← (RlpCodec.fixed 20).ofRlp sender, ← RlpCodec.uint64.ofRlp tx⟩
      | _ => none
    ofRlp_toRlp := fun t => by simp [RlpCodec.ofRlp_toRlp] }
  receiptEnvelope := .uint64
  receiptWithLogIndex := {
    toRlp := fun r =>
      .list [RlpCodec.uint64.toRlp r.receipt, RlpCodec.uint64.toRlp r.startingLogIndex]
    ofRlp
      | .list [receipt, index] => do
        return ⟨← RlpCodec.uint64.ofRlp receipt, ← RlpCodec.uint64.ofRlp index⟩
      | _ => none
    ofRlp_toRlp := fun r => by simp [RlpCodec.ofRlp_toRlp] }
  withdrawal := .uint64
  trace := RlpCodec.uint8.vec
  txWithSender_fields := by
    intro x tx h
    dsimp only at h
    split at h
    · exact ⟨_, _, rfl⟩
    · cases h
  number := id
  timestamp := fun n => 1700000000 + n
  baseFeePerGas := fun _ => some 7
  hashSlow := fun n => ⟨toBe 32 n.toNat, length_toBe 32 _⟩
  txHash := fun t => ⟨toBe 32 t.toNat, length_toBe 32 _⟩
  recoverSigner := fun t => some ⟨toBe 20 t.toNat, length_toBe 20 _⟩
  cumulativeGasUsed := id
  logs := fun _ => []

end Alloy

end Archive

end MonadServices
