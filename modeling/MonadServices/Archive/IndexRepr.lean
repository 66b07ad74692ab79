import MonadServices.Archive.Offsets

/-!
# The stored representations of index records

The index has one record for each transaction, under its hash. A record holds the
transaction, its trace and its receipt inline, or refers to the block they are in; either
way it has a subset of the header's fields
(`MonadServices.Archive.IndexDataStorageRepr`). It is stored with two marker bytes, and was
once stored without.

The base fee of a header is optional and the last of its fields, and such a field is left
out when it is absent. The decoder also takes the empty string in its place for an absent
field, and a base fee of zero is coded by the empty string: such a fee is lost
(`MonadServices.Archive.StoredIndex.decode_bytes`). Every other record, and every stored block
and list of receipts, is read back (`MonadServices.Archive.round_trip_iff`).
-/

namespace MonadServices

namespace Archive

open Rlp (encode encodeAll)

variable {alloy : Alloy}

/-! ### Records -/

/-- The fields of a header in a record of the first version. -/
structure HeaderSubsetV0 where
  blockHash : B256
  blockNumber : UInt64
  txIndex : UInt64
  gasUsed : UInt64
  baseFeePerGas : Option UInt64
  deriving DecidableEq

/-- The fields of a header in a record. -/
structure HeaderSubset where
  blockHash : B256
  blockNumber : UInt64
  blockTimestamp : UInt64
  txIndex : UInt64
  gasUsed : UInt64
  baseFeePerGas : Option UInt64
  deriving DecidableEq

def HeaderSubsetV0.convert (h : HeaderSubsetV0) (blockTimestamp : UInt64) : HeaderSubset :=
  ⟨h.blockHash, h.blockNumber, blockTimestamp, h.txIndex, h.gasUsed, h.baseFeePerGas⟩

/-- A record of the first version, with the data inline. -/
structure InlineV0 (alloy : Alloy) where
  tx : alloy.TxEnvelope
  trace : Bytes
  receipt : alloy.ReceiptEnvelope
  headerSubset : HeaderSubsetV0

/-- A record with the data inline. -/
structure TxIndexedData (alloy : Alloy) where
  tx : alloy.Tx
  trace : Bytes
  receipt : alloy.Receipt
  headerSubset : HeaderSubset

/-- Both ends of a range are of type `usize`. -/
def RangeRlp.InUsize (r : RangeRlp) : Prop := r.start < 2 ^ 64 ∧ r.stop < 2 ^ 64

/-- Offsets whose ranges are all of type `usize`. -/
def Offsets := {o : TxByteOffsets // o.tx.InUsize ∧ o.receipt.InUsize ∧ o.trace.InUsize}

/-- A record that refers to the block its data are in. -/
structure ReferenceV0 where
  blockNumber : UInt64
  headerSubset : HeaderSubset
  offsets : Option Offsets

/-! ### Codings -/

/-- The coding of a range. -/
def RangeRlp.toRlp (r : RangeRlp) : Rlp :=
  .list [RlpCodec.natToRlp r.start, RlpCodec.natToRlp r.stop]

def RangeRlp.ofRlp : Rlp → Option RangeRlp
  | .list [start, stop] => do
    let start ← RlpCodec.natOfRlp 8 start
    let stop ← RlpCodec.natOfRlp 8 stop
    return ⟨start, stop⟩
  | _ => none

theorem RangeRlp.ofRlp_toRlp {r : RangeRlp} (h : r.InUsize) : ofRlp r.toRlp = some r := by
  have hstart := RlpCodec.natOfRlp_natToRlp (w := 8) (by omega) (by norm_num; exact h.1)
  have hstop := RlpCodec.natOfRlp_natToRlp (w := 8) (by omega) (by norm_num; exact h.2)
  simp [toRlp, ofRlp, hstart, hstop]

instance (r : RangeRlp) : Decidable r.InUsize := inferInstanceAs (Decidable (_ ∧ _))

/-- The coding of offsets. A number on at most eight bytes is of type `usize`. -/
def Offsets.codec : RlpCodec Offsets where
  toRlp o := .list [o.1.tx.toRlp, o.1.receipt.toRlp, o.1.trace.toRlp]
  ofRlp
    | .list [tx, receipt, trace] => do
      let tx ← RangeRlp.ofRlp tx
      let receipt ← RangeRlp.ofRlp receipt
      let trace ← RangeRlp.ofRlp trace
      if h : tx.InUsize ∧ receipt.InUsize ∧ trace.InUsize then
        some ⟨⟨tx, receipt, trace⟩, h⟩
      else none
    | _ => none
  ofRlp_toRlp := by
    rintro ⟨⟨tx, receipt, trace⟩, h⟩
    simp [RangeRlp.ofRlp_toRlp h.1, RangeRlp.ofRlp_toRlp h.2.1, RangeRlp.ofRlp_toRlp h.2.2, h]

/-- What is read back of an optional base fee. -/
def readFee : Option UInt64 → Option UInt64
  | some fee => if fee = 0 then none else some fee
  | none => none

theorem uint64_ne_empty {n : UInt64} (h : n ≠ 0) : RlpCodec.uint64.toRlp n ≠ .str [] := by
  intro h0
  have hnil : minBe n.toNat = [] := by
    injection h0
  have hpos : 0 < n.toNat := by
    rw [Nat.pos_iff_ne_zero]
    intro hzero
    exact h (UInt64.toNat_inj.mp hzero)
  exact minBe_ne_nil hpos (n.toNat_lt.trans (by norm_num)) hnil

/-- **A base fee of zero is read as absent.** -/
theorem ofTrailing_fee (fee : Option UInt64) :
    RlpCodec.uint64.ofTrailing (RlpCodec.uint64.trailing fee) = some (readFee fee) := by
  cases fee with
  | none => rfl
  | some fee =>
    by_cases h : fee = 0
    · subst h
      rfl
    · rw [RlpCodec.ofTrailing_some _ (uint64_ne_empty h), readFee, if_neg h]

theorem readFee_eq_self {fee : Option UInt64} : readFee fee = fee ↔ fee ≠ some 0 := by
  cases fee with
  | none => simp [readFee]
  | some fee =>
    by_cases h : fee = 0
    · simp [readFee, h]
    · simp [readFee, h]

namespace HeaderSubsetV0

def toRlp (h : HeaderSubsetV0) : Rlp :=
  .list ((RlpCodec.fixed 32).toRlp h.blockHash :: RlpCodec.uint64.toRlp h.blockNumber ::
    RlpCodec.uint64.toRlp h.txIndex :: RlpCodec.uint64.toRlp h.gasUsed ::
    RlpCodec.uint64.trailing h.baseFeePerGas)

def ofRlp : Rlp → Option HeaderSubsetV0
  | .list (blockHash :: blockNumber :: txIndex :: gasUsed :: rest) => do
    let blockHash ← (RlpCodec.fixed 32).ofRlp blockHash
    let blockNumber ← RlpCodec.uint64.ofRlp blockNumber
    let txIndex ← RlpCodec.uint64.ofRlp txIndex
    let gasUsed ← RlpCodec.uint64.ofRlp gasUsed
    let baseFeePerGas ← RlpCodec.uint64.ofTrailing rest
    return ⟨blockHash, blockNumber, txIndex, gasUsed, baseFeePerGas⟩
  | _ => none

theorem ofRlp_toRlp (h : HeaderSubsetV0) :
    ofRlp h.toRlp = some { h with baseFeePerGas := readFee h.baseFeePerGas } := by
  simp [toRlp, ofRlp, RlpCodec.ofRlp_toRlp, ofTrailing_fee]

end HeaderSubsetV0

namespace HeaderSubset

def toRlp (h : HeaderSubset) : Rlp :=
  .list ((RlpCodec.fixed 32).toRlp h.blockHash :: RlpCodec.uint64.toRlp h.blockNumber ::
    RlpCodec.uint64.toRlp h.blockTimestamp :: RlpCodec.uint64.toRlp h.txIndex ::
    RlpCodec.uint64.toRlp h.gasUsed :: RlpCodec.uint64.trailing h.baseFeePerGas)

def ofRlp : Rlp → Option HeaderSubset
  | .list (blockHash :: blockNumber :: blockTimestamp :: txIndex :: gasUsed :: rest) => do
    let blockHash ← (RlpCodec.fixed 32).ofRlp blockHash
    let blockNumber ← RlpCodec.uint64.ofRlp blockNumber
    let blockTimestamp ← RlpCodec.uint64.ofRlp blockTimestamp
    let txIndex ← RlpCodec.uint64.ofRlp txIndex
    let gasUsed ← RlpCodec.uint64.ofRlp gasUsed
    let baseFeePerGas ← RlpCodec.uint64.ofTrailing rest
    return ⟨blockHash, blockNumber, blockTimestamp, txIndex, gasUsed, baseFeePerGas⟩
  | _ => none

theorem ofRlp_toRlp (h : HeaderSubset) :
    ofRlp h.toRlp = some { h with baseFeePerGas := readFee h.baseFeePerGas } := by
  simp [toRlp, ofRlp, RlpCodec.ofRlp_toRlp, ofTrailing_fee]

end HeaderSubset

namespace InlineV0

def toRlp (r : InlineV0 alloy) : Rlp :=
  .list [alloy.txEnvelope.toRlp r.tx, alloy.trace.toRlp r.trace,
    alloy.receiptEnvelope.toRlp r.receipt, r.headerSubset.toRlp]

def ofRlp : Rlp → Option (InlineV0 alloy)
  | .list [tx, trace, receipt, headerSubset] => do
    let tx ← alloy.txEnvelope.ofRlp tx
    let trace ← alloy.trace.ofRlp trace
    let receipt ← alloy.receiptEnvelope.ofRlp receipt
    let headerSubset ← HeaderSubsetV0.ofRlp headerSubset
    return ⟨tx, trace, receipt, headerSubset⟩
  | _ => none

/-- The record as it is read back. -/
def readBack (r : InlineV0 alloy) : InlineV0 alloy :=
  { r with headerSubset := { r.headerSubset with
    baseFeePerGas := readFee r.headerSubset.baseFeePerGas } }

theorem ofRlp_toRlp (r : InlineV0 alloy) : ofRlp r.toRlp = some r.readBack := by
  simp [toRlp, ofRlp, readBack, RlpCodec.ofRlp_toRlp, HeaderSubsetV0.ofRlp_toRlp]

end InlineV0

namespace TxIndexedData

def toRlp (r : TxIndexedData alloy) : Rlp :=
  .list [alloy.txWithSender.toRlp r.tx, alloy.trace.toRlp r.trace,
    alloy.receiptWithLogIndex.toRlp r.receipt, r.headerSubset.toRlp]

def ofRlp : Rlp → Option (TxIndexedData alloy)
  | .list [tx, trace, receipt, headerSubset] => do
    let tx ← alloy.txWithSender.ofRlp tx
    let trace ← alloy.trace.ofRlp trace
    let receipt ← alloy.receiptWithLogIndex.ofRlp receipt
    let headerSubset ← HeaderSubset.ofRlp headerSubset
    return ⟨tx, trace, receipt, headerSubset⟩
  | _ => none

/-- The record as it is read back. -/
def readBack (r : TxIndexedData alloy) : TxIndexedData alloy :=
  { r with headerSubset := { r.headerSubset with
    baseFeePerGas := readFee r.headerSubset.baseFeePerGas } }

theorem ofRlp_toRlp (r : TxIndexedData alloy) : ofRlp r.toRlp = some r.readBack := by
  simp [toRlp, ofRlp, readBack, RlpCodec.ofRlp_toRlp, HeaderSubset.ofRlp_toRlp]

end TxIndexedData

namespace ReferenceV0

def toRlp (r : ReferenceV0) : Rlp :=
  .list (RlpCodec.uint64.toRlp r.blockNumber :: r.headerSubset.toRlp ::
    Offsets.codec.trailing r.offsets)

def ofRlp : Rlp → Option ReferenceV0
  | .list (blockNumber :: headerSubset :: rest) => do
    let blockNumber ← RlpCodec.uint64.ofRlp blockNumber
    let headerSubset ← HeaderSubset.ofRlp headerSubset
    let offsets ← Offsets.codec.ofTrailing rest
    return ⟨blockNumber, headerSubset, offsets⟩
  | _ => none

/-- The record as it is read back. -/
def readBack (r : ReferenceV0) : ReferenceV0 :=
  { r with headerSubset := { r.headerSubset with
    baseFeePerGas := readFee r.headerSubset.baseFeePerGas } }

theorem ofRlp_toRlp (r : ReferenceV0) : ofRlp r.toRlp = some r.readBack := by
  have hoffsets : Offsets.codec.ofTrailing (Offsets.codec.trailing r.offsets) =
      some r.offsets := RlpCodec.ofTrailing_trailing _ fun _ _ => nofun
  simp [toRlp, ofRlp, readBack, RlpCodec.ofRlp_toRlp, HeaderSubset.ofRlp_toRlp, hoffsets]

end ReferenceV0

/-! ### Stored records -/

/-- A record in one of the versions it is stored in. -/
inductive IndexDataStorageRepr (alloy : Alloy) where
  | inlineV0 (data : InlineV0 alloy)
  | inlineV1 (data : TxIndexedData alloy)
  | referenceV0 (reference : ReferenceV0)

namespace IndexDataStorageRepr

def sentinel : UInt8 := 50
def inlineV0Marker : UInt8 := 0
def inlineV1Marker : UInt8 := 1
def referenceV0Marker : UInt8 := 2

/-- The second marker byte. -/
def markerByte : IndexDataStorageRepr alloy → UInt8
  | .inlineV0 _ => inlineV0Marker
  | .inlineV1 _ => inlineV1Marker
  | .referenceV0 _ => referenceV0Marker

/-- The item of a record. -/
def toRlp : IndexDataStorageRepr alloy → Rlp
  | .inlineV0 data => data.toRlp
  | .inlineV1 data => data.toRlp
  | .referenceV0 reference => reference.toRlp

/-- **Stores a record.** -/
def encode (r : IndexDataStorageRepr alloy) : Bytes :=
  marked sentinel r.markerByte r.toRlp.encode

/-- Reads a value from the front of a byte string. -/
def decodeWith {α : Type} (ofRlp : Rlp → Option α) (bs : Bytes) : Option α :=
  (Rlp.decode bs).bind fun p => ofRlp p.1

/-- The decoder of each version. -/
def arms (alloy : Alloy) (marker : UInt8) :
    Option (Bytes → Option (IndexDataStorageRepr alloy)) :=
  if marker = inlineV0Marker then some fun bs => (decodeWith InlineV0.ofRlp bs).map .inlineV0
  else if marker = inlineV1Marker then
    some fun bs => (decodeWith TxIndexedData.ofRlp bs).map .inlineV1
  else if marker = referenceV0Marker then
    some fun bs => (decodeWith ReferenceV0.ofRlp bs).map .referenceV0
  else none

/-- **Reads a stored record**, in the version it was stored in. -/
def decode (buf : Bytes) : Except Fault (IndexDataStorageRepr alloy) :=
  dispatch sentinel (arms alloy) (fun bs => (decodeWith InlineV0.ofRlp bs).map .inlineV0)
    (fun n => s!"Cannot decode IndexStorageRepr len too small. Len: {n}") buf

/-- The record as it is read back. -/
def readBack : IndexDataStorageRepr alloy → IndexDataStorageRepr alloy
  | .inlineV0 data => .inlineV0 data.readBack
  | .inlineV1 data => .inlineV1 data.readBack
  | .referenceV0 reference => .referenceV0 reference.readBack

/-- The base fee in a record. -/
def baseFeePerGas : IndexDataStorageRepr alloy → Option UInt64
  | .inlineV0 data => data.headerSubset.baseFeePerGas
  | .inlineV1 data => data.headerSubset.baseFeePerGas
  | .referenceV0 reference => reference.headerSubset.baseFeePerGas

/-- A record is read back as it is unless its base fee is zero. -/
theorem readBack_eq_self {r : IndexDataStorageRepr alloy} :
    r.readBack = r ↔ r.baseFeePerGas ≠ some 0 := by
  rw [← readFee_eq_self]
  cases r with
  | inlineV0 data =>
    obtain ⟨tx, trace, receipt, ⟨hash, number, index, gas, fee⟩⟩ := data
    simp [readBack, InlineV0.readBack, baseFeePerGas]
  | inlineV1 data =>
    obtain ⟨tx, trace, receipt, ⟨hash, number, timestamp, index, gas, fee⟩⟩ := data
    simp [readBack, TxIndexedData.readBack, baseFeePerGas]
  | referenceV0 reference =>
    obtain ⟨number, ⟨hash, number', timestamp, index, gas, fee⟩, offsets⟩ := reference
    simp [readBack, ReferenceV0.readBack, baseFeePerGas]

theorem decodeWith_encode {α : Type} {ofRlp : Rlp → Option α} {x : Rlp} {a : α}
    (h64 : x.encode.length < 2 ^ 64) (h : ofRlp x = some a) :
    decodeWith ofRlp x.encode = some a := by
  have hdecode := Rlp.decode_encode x [] h64
  rw [List.append_nil] at hdecode
  rw [decodeWith, hdecode]
  exact h

/-- **A stored record is read back, in its version.** -/
theorem decode_encode (r : IndexDataStorageRepr alloy) (h64 : r.toRlp.encode.length < 2 ^ 64) :
    decode r.encode = .ok r.readBack := by
  cases r with
  | inlineV0 data =>
    have h := decodeWith_encode h64 data.ofRlp_toRlp
    exact dispatch_marked rfl (congrArg (Option.map inlineV0) h)
  | inlineV1 data =>
    have h := decodeWith_encode h64 data.ofRlp_toRlp
    exact dispatch_marked rfl (congrArg (Option.map inlineV1) h)
  | referenceV0 reference =>
    have h := decodeWith_encode h64 reference.ofRlp_toRlp
    exact dispatch_marked rfl (congrArg (Option.map referenceV0) h)

end IndexDataStorageRepr

/-- A record in the store: of the first version without a marker, or marked. -/
inductive StoredIndex (alloy : Alloy) where
  | raw (data : InlineV0 alloy)
  | marked (repr : IndexDataStorageRepr alloy)

namespace StoredIndex

/-- The record, with its version. -/
def repr : StoredIndex alloy → IndexDataStorageRepr alloy
  | .raw data => .inlineV0 data
  | .marked repr => repr

/-- The bytes in the store. -/
def bytes : StoredIndex alloy → Bytes
  | .raw data => data.toRlp.encode
  | .marked repr => repr.encode

theorem length_toRlp_le (s : StoredIndex alloy) :
    s.repr.toRlp.encode.length ≤ s.bytes.length := by
  cases s with
  | raw data => exact le_rfl
  | marked r => exact Nat.le_add_right _ 2

/-- **A stored record is read back**, but for a base fee of zero. -/
theorem decode_bytes (s : StoredIndex alloy) (h64 : s.bytes.length < 2 ^ 64) :
    IndexDataStorageRepr.decode s.bytes = .ok s.repr.readBack := by
  have hlen := s.length_toRlp_le
  cases s with
  | marked r => exact r.decode_encode (hlen.trans_lt h64)
  | raw data =>
    have h := IndexDataStorageRepr.decodeWith_encode h64 data.ofRlp_toRlp
    exact dispatch_raw (two_le_length_encode _ _) (head_encode_list h64 (by decide))
      (congrArg (Option.map IndexDataStorageRepr.inlineV0) h)

end StoredIndex

/-! ### The round trip of everything stored -/

/-- The number of logs before a receipt. -/
def logsBefore (receipts : List alloy.ReceiptEnvelope) (i : ℕ) : ℕ :=
  ((receipts.take i).map fun receipt => (alloy.logs receipt).length).sum

/-- **The current form of a stored block**: a block of the first version gets the recovered
senders and an empty list of withdrawals, one of the second an empty list of withdrawals if
it has none. -/
def BlockStorageRepr.Current : BlockStorageRepr alloy → alloy.Block → Prop
  | .v0 block, current => current.header = block.header ∧ current.ommers = block.ommers ∧
      current.withdrawals = some [] ∧
      List.Forall₂ (fun tx tx' => tx'.tx = tx ∧ alloy.recoverSigner tx = some tx'.sender)
        block.transactions current.transactions
  | .v1 block, current => current.header = block.header ∧ current.ommers = block.ommers ∧
      current.transactions = block.transactions ∧
      current.withdrawals = if block.withdrawals = none then some [] else block.withdrawals
  | .v2 block, current => current = block

/-- **The current form of stored receipts**: those of the first version get the number of
logs of the earlier receipts. -/
def ReceiptStorageRepr.current : ReceiptStorageRepr alloy → List alloy.Receipt
  | .v0 receipts => receipts.mapIdx fun i receipt =>
      ⟨receipt, UInt64.ofNat (logsBefore receipts i)⟩
  | .v1 receipts => receipts

/-- The senders of a block of the first version can be recovered. -/
def BlockStorageRepr.Recoverable : BlockStorageRepr alloy → Prop
  | .v0 block => ∀ tx ∈ block.transactions, ∃ sender, alloy.recoverSigner tx = some sender
  | _ => True

/-- A stored block, list of receipts or index record. -/
inductive Stored (alloy : Alloy) where
  | block (block : StoredBlock alloy)
  | receipts (receipts : StoredReceipts alloy)
  | index (index : StoredIndex alloy)

namespace Stored

/-- The bytes in the store. -/
def bytes : Stored alloy → Bytes
  | .block b => b.bytes
  | .receipts rs => rs.bytes
  | .index r => r.bytes

/-- **What was stored comes back**: it is read in the version it was stored in and, for a
block and for receipts, is returned in its current form. -/
def RoundTrips : Stored alloy → Prop
  | .block b => BlockStorageRepr.decode b.bytes = .ok b.repr ∧
      (b.repr.Recoverable → ∃ current,
        BlockStorageRepr.decodeAndConvert b.bytes = .ok current ∧ b.repr.Current current)
  | .receipts rs =>
      -- the empty list without a marker is recognized before the version is looked at
      (rs.bytes ≠ [0xc0] → ReceiptStorageRepr.decode rs.bytes = .ok rs.repr) ∧
      ReceiptStorageRepr.decodeAndConvert rs.bytes = .ok rs.repr.current
  | .index r => IndexDataStorageRepr.decode r.bytes = .ok r.repr

/-- It is not an index record with a base fee of zero. -/
def FeeNotZero : Stored alloy → Prop
  | .index r => r.repr.baseFeePerGas ≠ some 0
  | _ => True

end Stored

theorem BlockStorageRepr.exists_current {r : BlockStorageRepr alloy} (h : r.Recoverable) :
    ∃ current, r.convert = .ok current ∧ r.Current current := by
  cases r with
  | v0 block =>
    have hrecover : ∀ tx ∈ block.transactions, ∃ tx', recover tx = .ok tx' := by
      intro tx htx
      obtain ⟨sender, hs⟩ := h tx htx
      exact ⟨⟨sender, tx⟩, by rw [recover, hs]⟩
    obtain ⟨txs, htxs⟩ := exists_mapM_eq_ok hrecover
    refine ⟨⟨block.header, txs, block.ommers, some []⟩, ?_, rfl, rfl, rfl, ?_⟩
    · rw [convert, htxs]
      rfl
    · rw [mapM_eq_ok] at htxs
      refine forall₂_imp_of_mem (fun tx _ tx' hrec => ?_) htxs
      unfold recover at hrec
      split at hrec
      · rename_i sender hs
        obtain rfl := Except.ok.inj hrec
        exact ⟨rfl, hs⟩
      · cases hrec
  | v1 block =>
    refine ⟨_, rfl, rfl, rfl, rfl, ?_⟩
    cases hw : block.withdrawals <;> rfl
  | v2 block => exact ⟨block, rfl, rfl⟩

theorem withLogIndex_eq (n : ℕ) (receipts : List alloy.ReceiptEnvelope) :
    ReceiptStorageRepr.withLogIndex n receipts = receipts.mapIdx fun i receipt =>
      ⟨receipt, UInt64.ofNat (n + logsBefore receipts i)⟩ := by
  induction receipts generalizing n with
  | nil => rfl
  | cons receipt receipts ih =>
    have hrest : ∀ i, n + logsBefore (receipt :: receipts) (i + 1) =
        n + (alloy.logs receipt).length + logsBefore receipts i := by
      intro i
      rw [logsBefore, List.take_succ_cons, List.map_cons, List.sum_cons, ← logsBefore,
        Nat.add_assoc]
    rw [ReceiptStorageRepr.withLogIndex, ih, List.mapIdx_cons]
    simp only [hrest]
    rfl

/-- The conversion gives the current form. -/
theorem convert_eq_current (r : ReceiptStorageRepr alloy) : r.convert = r.current := by
  cases r with
  | v0 receipts =>
    rw [ReceiptStorageRepr.convert, withLogIndex_eq]
    simp only [Nat.zero_add]
    rfl
  | v1 receipts => rfl

/-- **What was stored comes back, unless it is an index record with a base fee of zero.** -/
theorem round_trip_iff (s : Stored alloy) (h : s.bytes.length < 2 ^ 63) :
    s.RoundTrips ↔ s.FeeNotZero := by
  cases s with
  | block b =>
    have hlen : b.repr.payload.length < 2 ^ 64 := by
      have := b.length_payload_le
      have h' : b.bytes.length < 2 ^ 63 := h
      omega
    have hdecode := b.decode_bytes hlen
    refine iff_of_true ⟨hdecode, fun hrec => ?_⟩ trivial
    obtain ⟨current, hconvert, hcurrent⟩ := BlockStorageRepr.exists_current hrec
    refine ⟨current, ?_, hcurrent⟩
    rw [BlockStorageRepr.decodeAndConvert, hdecode]
    exact hconvert
  | receipts rs =>
    have hlen : rs.repr.payload.length < 2 ^ 64 := by
      have := rs.length_payload_le
      have h' : rs.bytes.length < 2 ^ 63 := h
      omega
    refine iff_of_true ⟨rs.decode_bytes hlen, ?_⟩ trivial
    rw [rs.decodeAndConvert_bytes hlen, convert_eq_current]
  | index r =>
    have h64 : r.bytes.length < 2 ^ 64 := lt_trans h (by norm_num)
    have hdecode := r.decode_bytes h64
    show IndexDataStorageRepr.decode r.bytes = .ok r.repr ↔ _
    rw [hdecode, Except.ok.injEq, IndexDataStorageRepr.readBack_eq_self]
    rfl

/-- A record that refers to a block, with a given base fee. -/
def sampleReference (fee : Option UInt64) : Stored Alloy.sample :=
  .index (.marked (.referenceV0 ⟨1, ⟨⟨toBe 32 1, length_toBe 32 1⟩, 1, 1700000001, 0, 21000, fee⟩,
    none⟩))

theorem round_trip_iff_sample : (sampleReference (some 7)).RoundTrips :=
  (round_trip_iff (sampleReference (some 7)) (by decide)).mpr (by
    show (some 7 : Option UInt64) ≠ some 0
    decide)

/-- A base fee of zero is not read back. -/
theorem zero_fee_lost : ¬(sampleReference (some 0)).RoundTrips := by
  intro h
  have hdecode := StoredIndex.decode_bytes
    (.marked (.referenceV0 ⟨1, ⟨⟨toBe 32 1, length_toBe 32 1⟩, 1, 1700000001, 0, 21000, some 0⟩,
      none⟩) : StoredIndex Alloy.sample) (by decide)
  have hback := Except.ok.inj (hdecode.symm.trans h)
  exact IndexDataStorageRepr.readBack_eq_self.mp hback rfl

end Archive

end MonadServices
