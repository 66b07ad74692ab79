import MonadServices.Primitives

/-!
# The record families of the query index

The index stores four families of records: block headers, transactions, logs and
traces. Each record has an RLP coding, which is what the payload table stores, and
a list of **bitmap filters**, under which the bitmap index lists its id.

The filters of a trace depend on more than the trace: `HasTransfer` is given only
when no ancestor of the frame has failed, which
`MonadServices.Query.fromTraces` works out with one stack of flags per transaction.
-/

namespace MonadServices

namespace Query

/-- The errors of the query crates. -/
inductive QueryError where
  | backend (message : String)
  | decode (message : String)
  | invalidRequest (message : String)
  | internal (message : String)
  | invalidBlock (message : String)
  | missingData (message : String)
  deriving DecidableEq, Repr

/-- The four families of records. -/
inductive Family where
  | blockHeader
  | transaction
  | log
  | trace
  deriving DecidableEq, Repr

/-- The families in the order of `Family::iter`. -/
def Family.all : List Family := [.blockHeader, .transaction, .log, .trace]

theorem Family.mem_all (f : Family) : f ∈ Family.all := by cases f <;> simp [Family.all]

/-- A filter under which a record is listed. -/
inductive BitmapFilterValue where
  | address (value : Address)
  | sentFrom (value : Address)
  | hasTransfer
  | selector (value : Selector)
  | sentTo (value : Address)
  | topLevel
  | topic0 (value : B256)
  | topic1 (value : B256)
  | topic2 (value : B256)
  | topic3 (value : B256)
  | miner (value : Address)
  deriving DecidableEq

/-- The kind of a call frame. -/
inductive CallKind where
  | call
  | staticCall
  | delegateCall
  | callCode
  | create
  | create2
  | selfDestruct
  deriving DecidableEq, Repr

/-- The byte of a call kind. -/
def CallKind.toByte : CallKind → UInt8
  | .call => 0
  | .staticCall => 1
  | .delegateCall => 2
  | .callCode => 3
  | .create => 4
  | .create2 => 5
  | .selfDestruct => 6

/-- `CallKind::try_from`. -/
def CallKind.ofByte (b : UInt8) : Option CallKind :=
  if b = 0 then some .call
  else if b = 1 then some .staticCall
  else if b = 2 then some .delegateCall
  else if b = 3 then some .callCode
  else if b = 4 then some .create
  else if b = 5 then some .create2
  else if b = 6 then some .selfDestruct
  else none

theorem CallKind.ofByte_toByte (k : CallKind) : CallKind.ofByte k.toByte = some k := by
  cases k <;> rfl

/-! ### The code the index calls -/

/-- What the index reads of a decoded transaction. -/
structure TxEnvelope where
  sentTo : Option Address
  functionSelector : Option Selector
  deriving DecidableEq

/-- The largest payload that is stored. -/
def maxPayloadSize : ℕ := 128 * 1024 * 1024

/-- **The third-party code** the index calls: the header's hash and coding, the
decoder of signed transactions, and the compressor of payloads. -/
structure Externals where
  /-- `Header::hash_slow`. -/
  hashSlow : Header → B256
  /-- The RLP coding of a header. -/
  header : RlpCodec Header
  /-- `TxEnvelope::decode_2718`. -/
  decode2718 : Bytes → Option TxEnvelope
  /-- `zstd::bulk::compress` at level 3. -/
  compress : Bytes → Bytes
  /-- `zstd::bulk::decompress`, with the capacity of its output. -/
  decompress : Bytes → ℕ → Option Bytes
  /-- What fits the capacity is decompressed to what it was. -/
  decompress_compress : ∀ b capacity, b.length ≤ capacity →
    decompress (compress b) capacity = some b
  /-- A compressed frame has at least its magic number. -/
  compress_ne_nil : ∀ b, compress b ≠ []

/-- A word of 32 bytes. -/
def word (n : ℕ) : B256 := ⟨toBe 32 n, length_toBe 32 n⟩

/-- A frame of the compressor with a single raw block, as it writes short input that it
cannot make shorter. -/
def rawFrame (bytes : Bytes) : Bytes :=
  let blockHeader := 8 * bytes.length + 1
  [0x28, 0xb5, 0x2f, 0xfd, 0x20, UInt8.ofNat bytes.length, UInt8.ofNat blockHeader,
    UInt8.ofNat (blockHeader / 2 ^ 8), UInt8.ofNat (blockHeader / 2 ^ 16)] ++ bytes

/-- An instance of the third-party code for examples: the hashes of the first blocks
of the Ethereum chain, whose blocks carry no transactions, raw frames, and a header as
the list of its fields. -/
def Externals.sample : Externals where
  hashSlow header := word <|
    if header.number = 0 then 0xd4e56740f876aef8c010b86a40d5f56745a118d0906a34e69aec8c0db1cb8fa3
    else if header.number = 1 then
      0x88e96d4537bea4d9c05d12549907b32561d3bf31f45aae734cdc119f13406cb6
    else if header.number = 2 then
      0xb495a1d7e6663152ae92708da4843337b958146015a2802f4193a410044698c9
    else header.number.toNat
  header :=
    { toRlp := fun h => .list [(RlpCodec.fixed 32).toRlp h.parentHash,
        (RlpCodec.fixed 20).toRlp h.beneficiary, RlpCodec.uint64.toRlp h.number,
        RlpCodec.uint64.toRlp h.timestamp,
        (RlpCodec.vec RlpCodec.uint64).toRlp h.baseFeePerGas.toList, RlpCodec.bytes.toRlp h.rest]
      ofRlp := fun
        | .list [p, b, n, t, f, r] => do
          let parentHash ← (RlpCodec.fixed 32).ofRlp p
          let beneficiary ← (RlpCodec.fixed 20).ofRlp b
          let number ← RlpCodec.uint64.ofRlp n
          let timestamp ← RlpCodec.uint64.ofRlp t
          let fee ← (RlpCodec.vec RlpCodec.uint64).ofRlp f
          let rest ← RlpCodec.bytes.ofRlp r
          some ⟨parentHash, beneficiary, number, timestamp, fee.head?, rest⟩
        | _ => none
      ofRlp_toRlp := fun h => by
        obtain ⟨p, b, n, t, f, r⟩ := h
        cases f <;> simp [RlpCodec.ofRlp_toRlp] }
  decode2718 _ := none
  compress := rawFrame
  decompress frame capacity :=
    if (frame.drop 9).length ≤ capacity then some (frame.drop 9) else none
  decompress_compress b capacity h := by simp [rawFrame, h]
  compress_ne_nil b := by simp [rawFrame]

/-! ### The stored items -/

/-- A stored block header. -/
structure StoredBlockQueryItem where
  header : Header
  deriving DecidableEq

/-- A stored transaction. -/
structure StoredTxQueryItem where
  txHash : B256
  sender : Address
  signedTxBytes : Bytes
  deriving DecidableEq

/-- A stored log. -/
structure StoredLogQueryItem where
  txIndex : UInt32
  logIndex : UInt32
  address : Address
  topics : List B256
  data : Bytes
  deriving DecidableEq

/-- A stored trace. -/
structure StoredTraceQueryItem where
  type : CallKind
  sentFrom : Address
  sentTo : Option Address
  value : BitVec 256
  gas : UInt64
  gasUsed : UInt64
  input : Bytes
  output : Bytes
  status : UInt8
  depth : UInt32
  txIndex : UInt32
  traceAddress : List UInt32
  txStatus : Bool
  deriving DecidableEq

/-- The RLP coding of a stored block header is that of the header. -/
def StoredBlockQueryItem.codec (ext : Externals) : RlpCodec StoredBlockQueryItem where
  toRlp item := ext.header.toRlp item.header
  ofRlp i := (ext.header.ofRlp i).map StoredBlockQueryItem.mk
  ofRlp_toRlp item := by simp [ext.header.ofRlp_toRlp]

/-- The RLP coding of a stored transaction. -/
def StoredTxQueryItem.codec : RlpCodec StoredTxQueryItem where
  toRlp item := .list [(RlpCodec.fixed 32).toRlp item.txHash,
    (RlpCodec.fixed 20).toRlp item.sender, RlpCodec.bytes.toRlp item.signedTxBytes]
  ofRlp
    | .list [h, s, b] => do
      let txHash ← (RlpCodec.fixed 32).ofRlp h
      let sender ← (RlpCodec.fixed 20).ofRlp s
      let signedTxBytes ← RlpCodec.bytes.ofRlp b
      some ⟨txHash, sender, signedTxBytes⟩
    | _ => none
  ofRlp_toRlp item := by simp [RlpCodec.ofRlp_toRlp]

/-- The RLP coding of a stored log. -/
def StoredLogQueryItem.codec : RlpCodec StoredLogQueryItem where
  toRlp item := .list [RlpCodec.uint32.toRlp item.txIndex, RlpCodec.uint32.toRlp item.logIndex,
    (RlpCodec.fixed 20).toRlp item.address, (RlpCodec.vec (RlpCodec.fixed 32)).toRlp item.topics,
    RlpCodec.bytes.toRlp item.data]
  ofRlp
    | .list [t, l, a, ts, d] => do
      let txIndex ← RlpCodec.uint32.ofRlp t
      let logIndex ← RlpCodec.uint32.ofRlp l
      let address ← (RlpCodec.fixed 20).ofRlp a
      let topics ← (RlpCodec.vec (RlpCodec.fixed 32)).ofRlp ts
      let data ← RlpCodec.bytes.ofRlp d
      some ⟨txIndex, logIndex, address, topics, data⟩
    | _ => none
  ofRlp_toRlp item := by simp [RlpCodec.ofRlp_toRlp]

/-- The bytes that stand for an optional address: none of them when it is absent. -/
def toBytesOfAddress (sentTo : Option Address) : Bytes := (sentTo.map Subtype.val).getD []

/-- The optional address of a byte string; any length but 0 and 20 is refused. -/
def addressOfToBytes (b : Bytes) : Option (Option Address) :=
  if b = [] then some none
  else if h : b.length = 20 then some (some ⟨b, h⟩)
  else none

theorem addressOfToBytes_toBytesOfAddress (sentTo : Option Address) :
    addressOfToBytes (toBytesOfAddress sentTo) = some sentTo := by
  rcases sentTo with _ | ⟨b, hb⟩
  · rfl
  · have hne : b ≠ [] := by
      rintro rfl
      simp at hb
    simp [toBytesOfAddress, addressOfToBytes, hne, hb]

/-- The RLP coding of a stored trace. -/
def StoredTraceQueryItem.codec : RlpCodec StoredTraceQueryItem where
  toRlp item := .list [RlpCodec.uint8.toRlp item.type.toByte,
    (RlpCodec.fixed 20).toRlp item.sentFrom, RlpCodec.bytes.toRlp (toBytesOfAddress item.sentTo),
    RlpCodec.uint256.toRlp item.value, RlpCodec.uint64.toRlp item.gas,
    RlpCodec.uint64.toRlp item.gasUsed, RlpCodec.bytes.toRlp item.input,
    RlpCodec.bytes.toRlp item.output, RlpCodec.uint8.toRlp item.status,
    RlpCodec.uint32.toRlp item.depth, RlpCodec.uint32.toRlp item.txIndex,
    (RlpCodec.vec RlpCodec.uint32).toRlp item.traceAddress, RlpCodec.bool.toRlp item.txStatus]
  ofRlp
    | .list [ty, fr, st, v, g, gu, i, o, s, d, t, a, ts] => do
      let typeByte ← RlpCodec.uint8.ofRlp ty
      let sentFrom ← (RlpCodec.fixed 20).ofRlp fr
      let toBytes ← RlpCodec.bytes.ofRlp st
      let value ← RlpCodec.uint256.ofRlp v
      let gas ← RlpCodec.uint64.ofRlp g
      let gasUsed ← RlpCodec.uint64.ofRlp gu
      let input ← RlpCodec.bytes.ofRlp i
      let output ← RlpCodec.bytes.ofRlp o
      let status ← RlpCodec.uint8.ofRlp s
      let depth ← RlpCodec.uint32.ofRlp d
      let txIndex ← RlpCodec.uint32.ofRlp t
      let traceAddress ← (RlpCodec.vec RlpCodec.uint32).ofRlp a
      let txStatus ← RlpCodec.bool.ofRlp ts
      let type ← CallKind.ofByte typeByte
      let sentTo ← addressOfToBytes toBytes
      some ⟨type, sentFrom, sentTo, value, gas, gasUsed, input, output, status, depth, txIndex,
        traceAddress, txStatus⟩
    | _ => none
  ofRlp_toRlp item := by
    simp [RlpCodec.ofRlp_toRlp, CallKind.ofByte_toByte, addressOfToBytes_toBytesOfAddress]

/-! ### Bitmap filters -/

/-- `StoredBlockQueryItem::bitmap_filters`. -/
def StoredBlockQueryItem.bitmapFilters (item : StoredBlockQueryItem) :
    Except QueryError (List BitmapFilterValue) :=
  .ok [.miner item.header.beneficiary]

/-- `StoredTxQueryItem::bitmap_filters`: it has to decode the signed transaction. -/
def StoredTxQueryItem.bitmapFilters (ext : Externals) (item : StoredTxQueryItem) :
    Except QueryError (List BitmapFilterValue) :=
  match ext.decode2718 item.signedTxBytes with
  | none => .error (.decode "invalid signed tx envelope")
  | some envelope =>
    .ok ([.sentFrom item.sender] ++ (envelope.sentTo.map BitmapFilterValue.sentTo).toList ++
      (envelope.functionSelector.map BitmapFilterValue.selector).toList)

/-- The filter of the topic at an index; the fourth topic and the ones after it
would share `Topic3`, but only four are taken. -/
def topicFilter (index : ℕ) (topic : B256) : BitmapFilterValue :=
  match index with
  | 0 => .topic0 topic
  | 1 => .topic1 topic
  | 2 => .topic2 topic
  | _ => .topic3 topic

/-- `StoredLogQueryItem::bitmap_filters`. -/
def StoredLogQueryItem.bitmapFilters (item : StoredLogQueryItem) :
    Except QueryError (List BitmapFilterValue) :=
  .ok (.address item.address ::
    (item.topics.take 4).zipIdx.map fun p => topicFilter p.2 p.1)

/-- A trace, and whether a frame above it has failed. -/
structure TraceWithAncestorStatus where
  trace : StoredTraceQueryItem
  ancestorReverted : Bool
  deriving DecidableEq

/-- The flag stack of a transaction after one of its frames: entry `d` says that
the frame at depth `d`, or a frame above it, has failed. -/
def pushFrame (stack : List Bool) (depth : ℕ) (failed : Bool) : List Bool :=
  stack.take depth ++ List.replicate (depth - stack.length) false ++ [failed]

/-- Whether the parent of a frame at this depth is marked as failed. -/
def parentFailed (stack : List Bool) (depth : ℕ) : Bool :=
  match checkedSub depth 1 with
  | none => false
  | some d => (stack[d]?).getD false

/-- The walk of `MonadServices.Query.fromTraces`, with the flag stack of each
transaction. -/
def fromTracesWith (flags : UInt32 → List Bool) :
    List StoredTraceQueryItem → List TraceWithAncestorStatus
  | [] => []
  | trace :: traces =>
    let stack := flags trace.txIndex
    let depth := trace.traceAddress.length
    let ancestorReverted := parentFailed stack depth
    let stack := pushFrame stack depth (ancestorReverted || trace.status != 0)
    ⟨trace, ancestorReverted⟩ :: fromTracesWith (Function.update flags trace.txIndex stack) traces

/-- `StoredTraceQueryItemWithAncestorStatus::from_traces`. -/
def fromTraces (traces : List StoredTraceQueryItem) : List TraceWithAncestorStatus :=
  fromTracesWith (fun _ => []) traces

theorem map_trace_fromTracesWith (flags : UInt32 → List Bool)
    (traces : List StoredTraceQueryItem) :
    (fromTracesWith flags traces).map TraceWithAncestorStatus.trace = traces := by
  induction traces generalizing flags with
  | nil => rfl
  | cons trace traces ih => simp [fromTracesWith, ih]

/-- The walk keeps the traces and their order. -/
theorem map_trace_fromTraces (traces : List StoredTraceQueryItem) :
    (fromTraces traces).map TraceWithAncestorStatus.trace = traces :=
  map_trace_fromTracesWith _ _

/-- The call kinds that move value. -/
def CallKind.transfers : CallKind → Bool
  | .call | .create | .create2 | .selfDestruct => true
  | .staticCall | .delegateCall | .callCode => false

/-- `StoredTraceQueryItemWithAncestorStatus::bitmap_filters`. -/
def TraceWithAncestorStatus.bitmapFilters (item : TraceWithAncestorStatus) :
    Except QueryError (List BitmapFilterValue) :=
  let trace := item.trace
  .ok ([.sentFrom trace.sentFrom] ++ (trace.sentTo.map BitmapFilterValue.sentTo).toList ++
    (if h : (trace.input.take 4).length = 4 then [.selector ⟨trace.input.take 4, h⟩] else []) ++
    (if trace.traceAddress.isEmpty then [.topLevel] else []) ++
    (if !item.ancestorReverted && trace.txStatus && trace.status == 0 && trace.type.transfers
      then [.hasTransfer] else []))

end Query

end MonadServices
