import MonadServices.Archive.Alloy
import MonadServices.Archive.Scanner

/-!
# The stored representations of blocks and receipts

A stored block or list of receipts starts with two marker bytes, a sentinel and a version,
unless it is of the first version, which was once stored without. The marker is read in
two places: by the decoder (`MonadServices.Archive.BlockStorageRepr.decodeAndConvert`) and
when the bytes are handed to the offset scanner
(`MonadServices.Archive.BlockStorageRepr.rlpListSlice`).

The decoder gives back what was stored, in the version it was stored in
(`MonadServices.Archive.StoredBlock.decode_bytes`), and no coded list starts with a
sentinel, so that nothing that was stored without a marker is taken for marked. The second
place does not know the third version of blocks: what this makes of the offsets is in
`MonadServices.Archive.offsets_agree_iff`.
-/

namespace MonadServices

namespace Archive

open Rlp (encode encodeAll)

/-! ### Marked representations -/

/-- An error of the RLP library. -/
def rlpError : Fault := .error "alloy_rlp::Error"

/-- Puts the two marker bytes in front. -/
def marked (sentinel marker : UInt8) (payload : Bytes) : Bytes := sentinel :: marker :: payload

/-- **The dispatch on the marker bytes**, which the representations share: the decoder of the
version, or the decoder of the whole buffer if there is no known marker. When it fails, the
whole buffer is tried. -/
def dispatch {ρ : Type} (sentinel : UInt8) (arms : UInt8 → Option (Bytes → Option ρ))
    (raw : Bytes → Option ρ) (tooShort : ℕ → String) (buf : Bytes) : Except Fault ρ :=
  match buf with
  | b₀ :: b₁ :: payload =>
    let decoded :=
      match if b₀ = sentinel then arms b₁ else none with
      | some arm => arm payload
      | none => raw buf
    match decoded with
    | some r => .ok r
    | none => (raw buf).elim (.error rlpError) .ok
  | _ => .error (.error (tooShort buf.length))

/-- Takes off the two marker bytes, if the version is one of those listed. -/
def stripMarker (sentinel : UInt8) (markers : List UInt8) (buf : Bytes) : Bytes :=
  match buf with
  | b₀ :: b₁ :: payload => if b₀ = sentinel ∧ b₁ ∈ markers then payload else buf
  | _ => buf

section Dispatch

variable {ρ : Type} {sentinel marker : UInt8} {arms : UInt8 → Option (Bytes → Option ρ)}
  {raw : Bytes → Option ρ} {tooShort : ℕ → String} {payload buf : Bytes} {r : ρ}

/-- A version that is known is read by its decoder. -/
theorem dispatch_marked {arm : Bytes → Option ρ} (harm : arms marker = some arm)
    (h : arm payload = some r) :
    dispatch sentinel arms raw tooShort (marked sentinel marker payload) = .ok r := by
  simp [dispatch, marked, harm, h]

/-- A buffer that does not start with the sentinel is read as a whole. -/
theorem dispatch_raw (hlen : 2 ≤ buf.length) (hhead : buf.head? ≠ some sentinel)
    (h : raw buf = some r) : dispatch sentinel arms raw tooShort buf = .ok r := by
  obtain ⟨b₀, b₁, payload, rfl⟩ : ∃ b₀ b₁ payload, buf = b₀ :: b₁ :: payload := by
    match buf, hlen with
    | b₀ :: b₁ :: payload, _ => exact ⟨b₀, b₁, payload, rfl⟩
  have hne : b₀ ≠ sentinel := fun heq => hhead (by rw [heq]; rfl)
  simp [dispatch, hne, h]

theorem stripMarker_marked {markers : List UInt8} (h : marker ∈ markers) :
    stripMarker sentinel markers (marked sentinel marker payload) = payload := by
  simp [stripMarker, marked, h]

theorem stripMarker_unknown {markers : List UInt8} (h : marker ∉ markers) :
    stripMarker sentinel markers (marked sentinel marker payload) =
      marked sentinel marker payload := by
  simp [stripMarker, marked, h]

theorem stripMarker_raw {markers : List UInt8} (h : buf.head? ≠ some sentinel) :
    stripMarker sentinel markers buf = buf := by
  unfold stripMarker
  split
  · rename_i b₀ b₁ payload
    have hne : b₀ ≠ sentinel := fun heq => h (by rw [heq]; rfl)
    simp [hne]
  · rfl

end Dispatch

/-- A coded list does not start with a byte below `0xc0`. -/
theorem head_encode_list {xs : List Rlp} (h64 : (encode (.list xs)).length < 2 ^ 64)
    {b : UInt8} (hb : b.toNat < 0xc0) : (encode (.list xs)).head? ≠ some b := by
  rw [length_encode_list] at h64
  obtain ⟨b', bs, heq, hge⟩ := Rlp.encode_list_head xs (by omega)
  rw [heq]
  rintro ⟨⟩
  omega

/-- The coding of a list that is not empty has more than one byte. -/
theorem two_le_length_encode (x : Rlp) (xs : List Rlp) :
    2 ≤ (encode (.list (x :: xs))).length := by
  have hpos := Rlp.length_encode_pos x
  have hhead := Rlp.length_head_pos 0xc0 (encodeAll (x :: xs)).length
  have hall : (encodeAll (x :: xs)).length = (encode x).length + (encodeAll xs).length := by
    rw [Rlp.encodeAll_cons, List.length_append]
  rw [Rlp.encode_list, List.length_append]
  omega

variable {alloy : Alloy}

/-! ### Blocks -/

/-- A block in one of the versions it is stored in. -/
inductive BlockStorageRepr (alloy : Alloy) where
  | v0 (block : alloy.BlockV0)
  | v1 (block : alloy.Block)
  | v2 (block : alloy.Block)

namespace BlockStorageRepr

def sentinel : UInt8 := 55
def v0Marker : UInt8 := 0
def v1Marker : UInt8 := 1
def v2Marker : UInt8 := 2

/-- The second marker byte. -/
def marker : BlockStorageRepr alloy → UInt8
  | .v0 _ => v0Marker
  | .v1 _ => v1Marker
  | .v2 _ => v2Marker

/-- The coded block, without the marker bytes. -/
def payload : BlockStorageRepr alloy → Bytes
  | .v0 block => alloy.blockV0.encode block
  | .v1 block => alloy.block.encode block
  | .v2 block => alloy.block.encode block

/-- **Stores a block.** -/
def encode (r : BlockStorageRepr alloy) : Bytes := marked sentinel r.marker r.payload

/-- The decoder of each version. -/
def arms (alloy : Alloy) (marker : UInt8) : Option (Bytes → Option (BlockStorageRepr alloy)) :=
  if marker = v0Marker then some fun bs => (alloy.blockV0.decode bs).map .v0
  else if marker = v1Marker then some fun bs => (alloy.block.decode bs).map .v1
  else if marker = v2Marker then some fun bs => (alloy.block.decode bs).map .v2
  else none

/-- Reads a stored block, in the version it was stored in. -/
def decode (buf : Bytes) : Except Fault (BlockStorageRepr alloy) :=
  dispatch sentinel (arms alloy) (fun bs => (alloy.blockV0.decode bs).map .v0)
    (fun n => s!"Cannot decode block, len must be > 2: actual: {n}") buf

/-- Recovers the sender of a transaction. -/
def recover (tx : alloy.TxEnvelope) : Except Fault alloy.Tx :=
  match alloy.recoverSigner tx with
  | some sender => .ok ⟨sender, tx⟩
  | none => .error (.error "alloy_primitives::SignatureError")

/-- Converts a block to the current version. -/
def convert : BlockStorageRepr alloy → Except Fault alloy.Block
  | .v0 block => do
    let transactions ← block.transactions.mapM recover
    return ⟨block.header, transactions, block.ommers, some []⟩
  | .v1 block => .ok { block with withdrawals := some (block.withdrawals.getD []) }
  | .v2 block => .ok block

/-- **Reads a stored block.** -/
def decodeAndConvert (buf : Bytes) : Except Fault alloy.Block := decode buf >>= convert

/-- The bytes that are handed to the offset scanner. -/
def rlpListSlice (buf : Bytes) : Bytes := stripMarker sentinel [v0Marker, v1Marker] buf

/-- **A stored block is read back, in its version.** -/
theorem decode_encode (r : BlockStorageRepr alloy) (h64 : r.payload.length < 2 ^ 64) :
    decode r.encode = .ok r := by
  cases r with
  | v0 block =>
    have h := alloy.blockV0.decode_encode_self block h64
    exact dispatch_marked rfl (congrArg (Option.map v0) h)
  | v1 block =>
    have h := alloy.block.decode_encode_self block h64
    exact dispatch_marked rfl (congrArg (Option.map v1) h)
  | v2 block =>
    have h := alloy.block.decode_encode_self block h64
    exact dispatch_marked rfl (congrArg (Option.map v2) h)

end BlockStorageRepr

/-! ### Receipts -/

/-- A list of receipts in one of the versions it is stored in. -/
inductive ReceiptStorageRepr (alloy : Alloy) where
  | v0 (receipts : List alloy.ReceiptEnvelope)
  | v1 (receipts : List alloy.Receipt)

namespace ReceiptStorageRepr

def sentinel : UInt8 := 88
def v0Marker : UInt8 := 0
def v1Marker : UInt8 := 1

/-- The second marker byte. -/
def marker : ReceiptStorageRepr alloy → UInt8
  | .v0 _ => v0Marker
  | .v1 _ => v1Marker

/-- The coded receipts, without the marker bytes. -/
def payload : ReceiptStorageRepr alloy → Bytes
  | .v0 receipts => alloy.receiptEnvelope.vec.encode receipts
  | .v1 receipts => alloy.receiptWithLogIndex.vec.encode receipts

/-- **Stores a list of receipts.** -/
def encode (r : ReceiptStorageRepr alloy) : Bytes := marked sentinel r.marker r.payload

/-- The decoder of each version. -/
def arms (alloy : Alloy) (marker : UInt8) : Option (Bytes → Option (ReceiptStorageRepr alloy)) :=
  if marker = v0Marker then some fun bs => (alloy.receiptEnvelope.vec.decode bs).map .v0
  else if marker = v1Marker then some fun bs => (alloy.receiptWithLogIndex.vec.decode bs).map .v1
  else none

/-- Reads stored receipts, in the version they were stored in. -/
def decode (buf : Bytes) : Except Fault (ReceiptStorageRepr alloy) :=
  dispatch sentinel (arms alloy) (fun bs => (alloy.receiptEnvelope.vec.decode bs).map .v0)
    (fun n => s!"Cannot decode receipt, len must be > 2: actual: {n}") buf

/-- Gives each receipt the number of logs before it. -/
def withLogIndex : ℕ → List alloy.ReceiptEnvelope → List alloy.Receipt
  | _, [] => []
  | preReceipts, receipt :: receipts =>
    ⟨receipt, UInt64.ofNat preReceipts⟩ ::
      withLogIndex (preReceipts + (alloy.logs receipt).length) receipts

/-- Converts receipts to the current version. -/
def convert : ReceiptStorageRepr alloy → List alloy.Receipt
  | .v0 receipts => withLogIndex 0 receipts
  | .v1 receipts => receipts

/-- **Reads stored receipts.** The empty list without a marker is a single byte. -/
def decodeAndConvert (buf : Bytes) : Except Fault (List alloy.Receipt) :=
  if buf = [0xc0] then .ok [] else (decode buf).map convert

/-- The bytes that are handed to the offset scanner. -/
def rlpListSlice (buf : Bytes) : Bytes := stripMarker sentinel [v0Marker, v1Marker] buf

/-- **Stored receipts are read back, in their version.** -/
theorem decode_encode (r : ReceiptStorageRepr alloy) (h64 : r.payload.length < 2 ^ 64) :
    decode r.encode = .ok r := by
  cases r with
  | v0 receipts =>
    have h := alloy.receiptEnvelope.vec.decode_encode_self receipts h64
    exact dispatch_marked rfl (congrArg (Option.map v0) h)
  | v1 receipts =>
    have h := alloy.receiptWithLogIndex.vec.decode_encode_self receipts h64
    exact dispatch_marked rfl (congrArg (Option.map v1) h)

end ReceiptStorageRepr

/-! ### What was stored -/

/-- A block in the store: of the first version without a marker, or marked. -/
inductive StoredBlock (alloy : Alloy) where
  | raw (block : alloy.BlockV0)
  | marked (repr : BlockStorageRepr alloy)

/-- Receipts in the store: of the first version without a marker, or marked. -/
inductive StoredReceipts (alloy : Alloy) where
  | raw (receipts : List alloy.ReceiptEnvelope)
  | marked (repr : ReceiptStorageRepr alloy)

namespace StoredBlock

/-- The block, with its version. -/
def repr : StoredBlock alloy → BlockStorageRepr alloy
  | .raw block => .v0 block
  | .marked repr => repr

/-- The bytes in the store. -/
def bytes : StoredBlock alloy → Bytes
  | .raw block => alloy.blockV0.encode block
  | .marked repr => repr.encode

theorem length_payload_le (s : StoredBlock alloy) :
    s.repr.payload.length ≤ s.bytes.length := by
  cases s with
  | raw block => exact le_rfl
  | marked r => exact Nat.le_add_right _ 2

/-- **A stored block is read back**, in the version it was stored in. -/
theorem decode_bytes (s : StoredBlock alloy) (h64 : s.repr.payload.length < 2 ^ 64) :
    BlockStorageRepr.decode s.bytes = .ok s.repr := by
  cases s with
  | marked r => exact r.decode_encode h64
  | raw block =>
    have h := alloy.blockV0.decode_encode_self block h64
    exact dispatch_raw (two_le_length_encode _ _) (head_encode_list h64 (by decide))
      (congrArg (Option.map BlockStorageRepr.v0) h)

/-- The bytes without the marker. -/
theorem rlpListSlice_bytes (s : StoredBlock alloy) (h64 : s.repr.payload.length < 2 ^ 64)
    (h : ∀ block, s ≠ .marked (.v2 block)) :
    BlockStorageRepr.rlpListSlice s.bytes = s.repr.payload := by
  cases s with
  | raw block => exact stripMarker_raw (head_encode_list h64 (by decide))
  | marked r =>
    cases r with
    | v0 block => exact stripMarker_marked (List.mem_cons_self ..)
    | v1 block => exact stripMarker_marked (List.mem_cons_of_mem _ (List.mem_cons_self ..))
    | v2 block => exact absurd rfl (h block)

end StoredBlock

namespace StoredReceipts

/-- The receipts, with their version. -/
def repr : StoredReceipts alloy → ReceiptStorageRepr alloy
  | .raw receipts => .v0 receipts
  | .marked repr => repr

/-- The bytes in the store. -/
def bytes : StoredReceipts alloy → Bytes
  | .raw receipts => alloy.receiptEnvelope.vec.encode receipts
  | .marked repr => repr.encode

theorem length_payload_le (s : StoredReceipts alloy) :
    s.repr.payload.length ≤ s.bytes.length := by
  cases s with
  | raw receipts => exact le_rfl
  | marked r => exact Nat.le_add_right _ 2

/-- **Stored receipts are read back, in the version they were stored in**; the empty list
without a marker is not read as a version. -/
theorem decode_bytes (s : StoredReceipts alloy) (h64 : s.repr.payload.length < 2 ^ 64)
    (hne : s.bytes ≠ [0xc0]) : ReceiptStorageRepr.decode s.bytes = .ok s.repr := by
  cases s with
  | marked r => exact r.decode_encode h64
  | raw receipts =>
    cases receipts with
    | nil => exact absurd rfl hne
    | cons receipt receipts =>
      exact dispatch_raw (two_le_length_encode _ _) (head_encode_list h64 (by decide))
        (congrArg (Option.map ReceiptStorageRepr.v0)
          (alloy.receiptEnvelope.vec.decode_encode_self _ h64))

/-- **Stored receipts are read back**, converted to the current version. -/
theorem decodeAndConvert_bytes (s : StoredReceipts alloy)
    (h64 : s.repr.payload.length < 2 ^ 64) :
    ReceiptStorageRepr.decodeAndConvert s.bytes = .ok s.repr.convert := by
  by_cases hempty : s.bytes = [0xc0]
  · cases s with
    | marked r => cases hempty
    | raw receipts =>
      cases receipts with
      | nil => rfl
      | cons receipt receipts =>
        have hlen : 2 ≤ (bytes (.raw (receipt :: receipts))).length := two_le_length_encode _ _
        rw [hempty] at hlen
        exact absurd hlen (by decide)
  · rw [ReceiptStorageRepr.decodeAndConvert, if_neg hempty, s.decode_bytes h64 hempty]
    rfl

theorem rlpListSlice_bytes (s : StoredReceipts alloy) (h64 : s.repr.payload.length < 2 ^ 64) :
    ReceiptStorageRepr.rlpListSlice s.bytes = s.repr.payload := by
  cases s with
  | raw receipts => exact stripMarker_raw (head_encode_list h64 (by decide))
  | marked r =>
    cases r with
    | v0 receipts => exact stripMarker_marked (List.mem_cons_self ..)
    | v1 receipts => exact stripMarker_marked (List.mem_cons_of_mem _ (List.mem_cons_self ..))

end StoredReceipts

/-! ### The archive -/

/-- The keys of the archive: one table each for the blocks, the numbers of blocks by hash,
the receipts and the traces. -/
inductive ArchiveKey where
  | block (number : UInt64)
  | blockHash (hash : B256)
  | receipts (number : UInt64)
  | traces (number : UInt64)
  deriving DecidableEq

/-- A block with its receipts and traces, and where each transaction is in their codings. -/
structure BlockDataWithOffsets (alloy : Alloy) where
  block : alloy.Block
  receipts : List alloy.Receipt
  traces : List Bytes
  offsets : Option (List TxByteOffsets)

/-- The value of a key that has to be there. -/
def found (value : Option Bytes) (missing : String) : Except Fault Bytes :=
  value.elim (.error (.error missing)) .ok

/-- Adds the context of an error, as `wrap_err` does. -/
def wrapErr {α : Type} (message : String) (x : Except Fault α) : Except Fault α :=
  x.mapError fun
    | .error _ => .error message
    | fault => fault

/-- **Reads a block with its offsets.** -/
def getBlockDataWithOffsets (store : ArchiveKey → Option Bytes) (blockNum : UInt64) :
    Except Fault (BlockDataWithOffsets alloy) := do
  let blockRlp ← found (store (.block blockNum)) "No block found"
  let tracesRlp ← found (store (.traces blockNum)) "No trace found"
  let receiptsRlp ← found (store (.receipts blockNum)) "No receipt found"
  let offsets ← getAllTxOffsets (BlockStorageRepr.rlpListSlice blockRlp)
    (ReceiptStorageRepr.rlpListSlice receiptsRlp) tracesRlp
  let block ← wrapErr "Failed to decode block" (BlockStorageRepr.decodeAndConvert blockRlp)
  let receipts ← wrapErr "Failed to decode receipts"
    (ReceiptStorageRepr.decodeAndConvert receiptsRlp)
  let traces ← (alloy.trace.vec.decode tracesRlp).elim
    (.error (.error "Failed to decode traces")) .ok
  return ⟨block, receipts, traces, some offsets⟩

end Archive

end MonadServices
