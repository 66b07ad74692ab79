import MonadServices.Archive.Alloy
import MonadServices.Lib.Json

/-!
# The lengths of responses

The responses of the service are limited in length, and what a value would take as JSON is told
without writing it: for every type there is a function that adds up the lengths of the parts by
hand. It knows which fields of a record are left out, how many commas there are, which characters
of a string are escaped and how many digits a number has.

**The functions tell the exact length** of what the serializers write, for the values of all types
(`MonadServices.Rpc.jsonSerializedLen_exact`), the frames of calls being nested to any depth.
-/

namespace MonadServices

namespace Rpc

/-- `serde::Serialize`, by the value that is written. -/
class Serialize (α : Type) where
  toJson : α → Json

/-- `JsonSerializedLen`. -/
class JsonSerializedLen (α : Type) where
  jsonSerializedLen : α → ℕ

export Serialize (toJson)

export JsonSerializedLen (jsonSerializedLen)

/-- **The lengths of a type are exact**: they are those of the texts, in bytes. -/
def LenExact (α : Type) [Serialize α] [JsonSerializedLen α] : Prop :=
  ∀ a : α, jsonSerializedLen a = (toJson a).compact.utf8ByteSize

/-! ### Simple values -/

instance : Serialize Bool := ⟨.bool⟩

instance : JsonSerializedLen Bool where
  jsonSerializedLen := fun value => if value then 4 else 5

/-- `checked_ilog10`. -/
def checkedIlog10 (n : ℕ) : Option ℕ := if n = 0 then none else some (Nat.log 10 n)

/-- The length of a signed number, by its sign and its absolute value. -/
def signedLen (n : ℤ) : ℕ := (if n < 0 then 1 else 0) + 1 + (checkedIlog10 n.natAbs).getD 0

instance : Serialize Int32 := ⟨fun n => .int n.toInt⟩

instance : JsonSerializedLen Int32 := ⟨fun n => signedLen n.toInt⟩

instance : Serialize Int64 := ⟨fun n => .int n.toInt⟩

instance : JsonSerializedLen Int64 := ⟨fun n => signedLen n.toInt⟩

instance : Serialize String := ⟨.str⟩

/-- The length of a character of a string. -/
def charLen (c : Char) : ℕ :=
  if c = '"' ∨ c = '\\' then 2
  else if c.toNat = 0x0b then 6
  else if 0x08 ≤ c.toNat ∧ c.toNat ≤ 0x0d then 2
  else if c.toNat ≤ 0x1f then 6
  else c.utf8Size

instance : JsonSerializedLen String where
  jsonSerializedLen := fun s => 2 + (s.toList.map charLen).sum

/-- `serde_json::value::RawValue`. -/
structure RawValue where
  text : String

instance : Serialize RawValue := ⟨fun raw => .raw raw.text⟩

instance : JsonSerializedLen RawValue := ⟨fun raw => raw.text.utf8ByteSize⟩

instance {α : Type} [Serialize α] : Serialize (Option α) where
  toJson := fun
    | some a => toJson a
    | none => .null

instance {α : Type} [JsonSerializedLen α] : JsonSerializedLen (Option α) where
  jsonSerializedLen := fun
    | some a => jsonSerializedLen a
    | none => 4

instance {α : Type} [Serialize α] : Serialize (List α) := ⟨fun l => .arr (l.map toJson)⟩

instance {α : Type} [JsonSerializedLen α] : JsonSerializedLen (List α) where
  jsonSerializedLen := fun l => 2 + (l.map jsonSerializedLen).sum + (l.length - 1)

/-! ### Hexadecimal numbers -/

/-- The digits of a byte. -/
def hexPair (b : UInt8) : List Char :=
  [Nat.digitChar (b.toNat / 16), Nat.digitChar (b.toNat % 16)]

/-- `ethhex::encode_bytes`. -/
def encodeBytes (bytes : Bytes) : String := String.ofList ('0' :: 'x' :: bytes.flatMap hexPair)

/-- A number in hexadecimal, as `0x{:x}` formats it. -/
def hexNumber (n : ℕ) : String := String.ofList ('0' :: 'x' :: Nat.toDigits 16 n)

instance {n : ℕ} : Serialize (FixedBytes n) := ⟨fun bytes => .str (encodeBytes bytes.1)⟩

instance {n : ℕ} : JsonSerializedLen (FixedBytes n) := ⟨fun _ => 2 + 2 + 2 * n⟩

/-- `u64::leading_zeros`. -/
def leadingZeros (n : UInt64) : ℕ := 64 - n.toNat.size

/-- `usize::div_ceil`. -/
def divCeil (a b : ℕ) : ℕ := (a + b - 1) / b

/-- `json_serialized_hex_int_len`. -/
def jsonSerializedHexIntLen (value : Option UInt64) : ℕ :=
  (value.map fun index => 2 + 2 + max (divCeil (64 - leadingZeros index) 4) 1).getD 4

/-- `eth_json::Quantity`. -/
structure Quantity where
  value : UInt64

instance : Serialize Quantity := ⟨fun quantity => .str (hexNumber quantity.value.toNat)⟩

instance : JsonSerializedLen Quantity where
  jsonSerializedLen := fun quantity => jsonSerializedHexIntLen (some quantity.value)

/-- `eth_json::MonadU256`. -/
structure MonadU256 where
  value : BitVec 256

instance : Serialize MonadU256 := ⟨fun n => .str (hexNumber n.value.toNat)⟩

instance : JsonSerializedLen MonadU256 where
  jsonSerializedLen := fun n => 2 + 2 + max (divCeil n.value.toNat.size 4) 1

/-- `eth_json::UnformattedData`. -/
structure UnformattedData where
  data : Bytes

instance : Serialize UnformattedData := ⟨fun data => .str (encodeBytes data.data)⟩

instance : JsonSerializedLen UnformattedData := ⟨fun data => 2 + 2 + 2 * data.data.length⟩

/-- `eth_json::FixedData`. -/
structure FixedData (n : ℕ) where
  data : FixedBytes n

instance {n : ℕ} : Serialize (FixedData n) := ⟨fun data => .str (encodeBytes data.data.1)⟩

instance {n : ℕ} : JsonSerializedLen (FixedData n) := ⟨fun _ => 2 + 2 + 2 * n⟩

/-! ### Logs -/

/-- `alloy_rpc_types::Log`. -/
structure AlloyLog where
  inner : Archive.Log
  blockHash : Option B256
  blockNumber : Option UInt64
  blockTimestamp : Option UInt64
  transactionHash : Option B256
  transactionIndex : Option UInt64
  logIndex : Option UInt64
  removed : Bool

/-- A field that is left out when it is absent. -/
def skipNone {α : Type} [Serialize α] (key : String) (value : Option α) : List (String × Json) :=
  match value with
  | some value => [(key, toJson value)]
  | none => []

instance : Serialize AlloyLog where
  toJson := fun log => .obj
    ([("address", toJson log.inner.address), ("topics", toJson log.inner.topics),
      ("data", toJson (UnformattedData.mk log.inner.data)), ("blockHash", toJson log.blockHash),
      ("blockNumber", toJson (log.blockNumber.map Quantity.mk))] ++
      skipNone "blockTimestamp" (log.blockTimestamp.map Quantity.mk) ++
      [("transactionHash", toJson log.transactionHash),
      ("transactionIndex", toJson (log.transactionIndex.map Quantity.mk)),
      ("logIndex", toJson (log.logIndex.map Quantity.mk)), ("removed", toJson log.removed)])

/-- The parts of a log that are always there. -/
def logBaseJson : String :=
  "\x7b\"address\":\"0x0000000000000000000000000000000000000000\",\"blockHash\":," ++
    "\"blockNumber\":,\"data\":\"0x\",\"logIndex\":,\"removed\":,\"topics\":[]," ++
    "\"transactionHash\":,\"transactionIndex\":\x7d"

instance : JsonSerializedLen AlloyLog where
  jsonSerializedLen := fun log =>
    logBaseJson.utf8ByteSize +
      jsonSerializedLen log.blockHash +
      jsonSerializedHexIntLen log.blockNumber +
      ((log.blockTimestamp.map fun t =>
        "\"blockTimestamp\":,".utf8ByteSize + jsonSerializedHexIntLen (some t)).getD 0) +
      2 * log.inner.data.length +
      jsonSerializedHexIntLen log.logIndex +
      jsonSerializedLen log.removed +
      (log.inner.topics.length * (2 + 2 + 64) + (log.inner.topics.length - 1)) +
      jsonSerializedLen log.transactionHash +
      jsonSerializedHexIntLen log.transactionIndex

/-! ### Responses -/

/-- `jsonrpc::RequestId`. -/
inductive Jsonrpc.RequestId where
  | number (n : Int64)
  | string (s : String)
  | null

instance : Serialize Jsonrpc.RequestId where
  toJson := fun
    | .number n => toJson n
    | .string s => toJson s
    | .null => .null

instance : JsonSerializedLen Jsonrpc.RequestId where
  jsonSerializedLen := fun
    | .number n => jsonSerializedLen n
    | .string s => jsonSerializedLen s
    | .null => 4

/-- `jsonrpc::JsonRpcError`. -/
structure Jsonrpc.JsonRpcError where
  code : Int32
  message : String
  data : Option RawValue

instance : Serialize Jsonrpc.JsonRpcError where
  toJson := fun error => .obj
    ([("code", toJson error.code), ("message", toJson error.message)] ++ skipNone "data" error.data)

instance : JsonSerializedLen Jsonrpc.JsonRpcError where
  jsonSerializedLen := fun error =>
    "\x7b\"code\":,\"message\":\x7d".utf8ByteSize + jsonSerializedLen error.code +
      jsonSerializedLen error.message +
      ((error.data.map fun data => "\"data\":,".utf8ByteSize + jsonSerializedLen data).getD 0)

/-- `jsonrpc::Response`. -/
structure Jsonrpc.Response where
  jsonrpc : String
  result : Option RawValue
  error : Option Jsonrpc.JsonRpcError
  id : Jsonrpc.RequestId

instance : Serialize Jsonrpc.Response where
  toJson := fun response => .obj
    ([("jsonrpc", toJson response.jsonrpc)] ++ skipNone "result" response.result ++
      skipNone "error" response.error ++ [("id", toJson response.id)])

instance : JsonSerializedLen Jsonrpc.Response where
  jsonSerializedLen := fun response =>
    "\x7b\"jsonrpc\":,\"id\":\x7d".utf8ByteSize + jsonSerializedLen response.jsonrpc +
      ((response.result.map fun result =>
        "\"result\":,".utf8ByteSize + jsonSerializedLen result).getD 0) +
      ((response.error.map fun error =>
        "\"error\":,".utf8ByteSize + jsonSerializedLen error).getD 0) +
      jsonSerializedLen response.id

/-! ### Calls -/

/-- How a frame has been called. -/
inductive CallKind where
  | call
  | delegateCall
  | callCode
  | create
  | create2
  | selfDestruct
  | staticCall

/-- The name of a kind, in capitals. -/
def CallKind.asRef : CallKind → String
  | .call => "CALL"
  | .delegateCall => "DELEGATECALL"
  | .callCode => "CALLCODE"
  | .create => "CREATE"
  | .create2 => "CREATE2"
  | .selfDestruct => "SELFDESTRUCT"
  | .staticCall => "STATICCALL"

instance : Serialize CallKind := ⟨fun kind => .str kind.asRef⟩

instance : JsonSerializedLen CallKind := ⟨fun kind => 2 + kind.asRef.utf8ByteSize⟩

/-- A log in a frame, with its place among the calls of the frame. -/
structure MonadCallFrameLog where
  address : FixedData 20
  topics : List (FixedData 32)
  data : UnformattedData
  position : Quantity
  index : Quantity

instance : Serialize MonadCallFrameLog where
  toJson := fun log => .obj
    [("address", toJson log.address), ("topics", toJson log.topics), ("data", toJson log.data),
      ("position", toJson log.position), ("index", toJson log.index)]

instance : JsonSerializedLen MonadCallFrameLog where
  jsonSerializedLen := fun log =>
    "\x7b\"address\":,\"topics\":,\"data\":,\"position\":,\"index\":\x7d".utf8ByteSize +
      jsonSerializedLen log.address + jsonSerializedLen log.topics + jsonSerializedLen log.data +
      jsonSerializedLen log.position + jsonSerializedLen log.index

/-- A frame, with the frames of the calls made from it. `caller` and `callee` are the fields `from`
and `to`; the depth, which is not written, is left out. -/
structure MonadCallFrame where
  typ : CallKind
  caller : FixedData 20
  callee : Option (FixedData 20)
  value : Option MonadU256
  gas : Quantity
  gasUsed : Quantity
  input : UnformattedData
  output : UnformattedData
  error : Option String
  revertReason : Option String
  calls : List MonadCallFrame
  logs : List MonadCallFrameLog

/-- A field that is left out when a list is empty. -/
def skipEmpty {α : Type} (key : String) (elements : List α) (value : Json) :
    List (String × Json) :=
  if elements.isEmpty then [] else [(key, value)]

mutual

/-- A frame as it is written: what is absent or empty is left out. -/
def MonadCallFrame.toJson : MonadCallFrame → Json
  | ⟨typ, caller, callee, value, gas, gasUsed, input, output, error, revertReason, calls, logs⟩ =>
    .obj ([("type", Serialize.toJson typ)] ++ [("from", Serialize.toJson caller)] ++
      skipNone "to" callee ++ skipNone "value" value ++ [("gas", Serialize.toJson gas)] ++
      [("gasUsed", Serialize.toJson gasUsed)] ++ [("input", Serialize.toJson input)] ++
      skipEmpty "output" output.data (Serialize.toJson output) ++ skipNone "error" error ++
      skipNone "revertReason" revertReason ++
      skipEmpty "calls" calls (.arr (MonadCallFrame.toJsonAll calls)) ++
      skipEmpty "logs" logs (Serialize.toJson logs))

/-- The frames of the calls of a frame. -/
def MonadCallFrame.toJsonAll : List MonadCallFrame → List Json
  | [] => []
  | frame :: frames => frame.toJson :: MonadCallFrame.toJsonAll frames

end

/-- The lengths of the fields that have been added, and their number. -/
structure Segments where
  segments : ℕ
  fields : ℕ

/-- Adds a field. -/
def Segments.add (acc : Segments) (key : String) (valueLen : ℕ) : Segments :=
  ⟨acc.segments + (key.utf8ByteSize + 3 + valueLen), acc.fields + 1⟩

/-- Adds a field, if it is there. -/
def Segments.addSome {α : Type} [JsonSerializedLen α] (acc : Segments) (key : String)
    (value : Option α) : Segments :=
  match value with
  | some value => acc.add key (jsonSerializedLen value)
  | none => acc

/-- Adds a field, unless a list is empty. -/
def Segments.addNonempty {α : Type} (acc : Segments) (key : String) (elements : List α)
    (valueLen : ℕ) : Segments :=
  if elements.isEmpty then acc else acc.add key valueLen

mutual

/-- **The length of a frame**: its fields are added up one by one, as they are written. -/
def MonadCallFrame.jsonSerializedLen : MonadCallFrame → ℕ
  | ⟨typ, caller, callee, value, gas, gasUsed, input, output, error, revertReason, calls, logs⟩ =>
    let acc := (Segments.mk 0 0).add "type" (JsonSerializedLen.jsonSerializedLen typ)
    let acc := acc.add "from" (JsonSerializedLen.jsonSerializedLen caller)
    let acc := acc.addSome "to" callee
    let acc := acc.addSome "value" value
    let acc := acc.add "gas" (JsonSerializedLen.jsonSerializedLen gas)
    let acc := acc.add "gasUsed" (JsonSerializedLen.jsonSerializedLen gasUsed)
    let acc := acc.add "input" (JsonSerializedLen.jsonSerializedLen input)
    let acc := acc.addNonempty "output" output.data (JsonSerializedLen.jsonSerializedLen output)
    let acc := acc.addSome "error" error
    let acc := acc.addSome "revertReason" revertReason
    -- The length of a vector, of the frames of the calls.
    let acc := acc.addNonempty "calls" calls
      (2 + MonadCallFrame.sumLen calls + (calls.length - 1))
    let acc := acc.addNonempty "logs" logs (JsonSerializedLen.jsonSerializedLen logs)
    2 + acc.segments + (acc.fields - 1)

/-- The sum of the lengths of frames. -/
def MonadCallFrame.sumLen : List MonadCallFrame → ℕ
  | [] => 0
  | frame :: frames => frame.jsonSerializedLen + MonadCallFrame.sumLen frames

end

instance : Serialize MonadCallFrame := ⟨MonadCallFrame.toJson⟩

instance : JsonSerializedLen MonadCallFrame := ⟨MonadCallFrame.jsonSerializedLen⟩

/-- The frames of a transaction, in the trace of its block. -/
structure MonadDebugTraceBlockResult where
  txHash : FixedData 32
  result : MonadCallFrame

instance : Serialize MonadDebugTraceBlockResult where
  toJson := fun trace => .obj [("txHash", toJson trace.txHash), ("result", toJson trace.result)]

instance : JsonSerializedLen MonadDebugTraceBlockResult where
  jsonSerializedLen := fun trace =>
    "\x7b\"txHash\":,\"result\":\x7d".utf8ByteSize + jsonSerializedLen trace.txHash +
      jsonSerializedLen trace.result

/-! ### Exactness of simple values -/

theorem lenExact_bool : LenExact Bool := by
  intro value
  cases value <;> rfl

/-- The length of a signed number is that of its text. -/
theorem signedLen_eq (n : ℤ) : signedLen n = (Json.int n).size := by
  have hlog : (checkedIlog10 n.natAbs).getD 0 = Nat.log 10 n.natAbs := by
    unfold checkedIlog10
    split_ifs with hzero
    · rw [hzero]
      rfl
    · rfl
  rw [signedLen, hlog, Json.size_int]

theorem lenExact_int32 : LenExact Int32 := fun n => signedLen_eq n.toInt

theorem lenExact_int64 : LenExact Int64 := fun n => signedLen_eq n.toInt

/-- **The length of a character** is that of what is written for it. -/
theorem charLen_eq (c : Char) : charLen c = Json.escapedSize c := by
  unfold charLen Json.escapedSize Json.escapeChar
  by_cases hmark : c = '"'
  · rw [hmark]
    rfl
  by_cases hback : c = '\\'
  · rw [hback]
    rfl
  rw [if_neg (by simp [hmark, hback]), if_neg hmark, if_neg hback]
  by_cases hlow : c.toNat < 0x20
  · -- Below the space there are finitely many characters.
    obtain ⟨n, hn⟩ : ∃ n, c.toNat = n := ⟨_, rfl⟩
    rw [hn] at hlow ⊢
    interval_cases n <;> rfl
  · rw [if_neg (by omega), if_neg (by omega), if_neg (by omega), if_neg (by omega),
      if_neg (by omega), if_neg (by omega), if_neg (by omega), if_neg (by omega), if_neg hlow,
      String.utf8ByteSize_singleton]

theorem lenExact_string : LenExact String := by
  intro s
  have hchars : s.toList.map charLen = s.toList.map Json.escapedSize :=
    List.map_congr_left fun c _ => charLen_eq c
  change 2 + (s.toList.map charLen).sum = (Json.str s).size
  rw [hchars, Json.size_str]

theorem lenExact_rawValue : LenExact RawValue := fun _ => rfl

theorem lenExact_option {α : Type} [Serialize α] [JsonSerializedLen α] (h : LenExact α) :
    LenExact (Option α) := by
  intro value
  cases value with
  | none => rfl
  | some a => exact h a

theorem lenExact_list {α : Type} [Serialize α] [JsonSerializedLen α] (h : LenExact α) :
    LenExact (List α) := by
  intro l
  have hsizes : l.map jsonSerializedLen = (l.map toJson).map Json.size := by
    rw [List.map_map]
    exact List.map_congr_left fun a _ => h a
  change 2 + (l.map jsonSerializedLen).sum + (l.length - 1) = (Json.arr (l.map toJson)).size
  rw [Json.size_arr, hsizes, List.length_map]

/-! ### Exactness of hexadecimal numbers -/

/-- The length of a string of plain characters after `0x`. -/
theorem size_prefixed {cs : List Char} (h : ∀ c ∈ cs, Json.Plain c) :
    (Json.str (String.ofList ('0' :: 'x' :: cs))).size = 2 + 2 + cs.length := by
  have hplain : ∀ c ∈ (String.ofList ('0' :: 'x' :: cs)).toList, Json.Plain c := by
    rw [String.toList_ofList, List.forall_mem_cons, List.forall_mem_cons]
    exact ⟨by decide, by decide, h⟩
  rw [Json.size_str_of_plain hplain, String.toList_ofList, List.length_cons, List.length_cons]
  omega

/-- The length of a byte string. -/
theorem size_encodeBytes (bytes : Bytes) :
    (Json.str (encodeBytes bytes)).size = 2 + 2 + 2 * bytes.length := by
  have hlength : (bytes.flatMap hexPair).length = 2 * bytes.length := by
    induction bytes with
    | nil => rfl
    | cons b bytes ih =>
      rw [List.flatMap_cons, List.length_append, ih, List.length_cons]
      change 2 + 2 * bytes.length = _
      omega
  rw [encodeBytes, size_prefixed, hlength]
  intro c hc
  obtain ⟨b, -, hb⟩ := List.mem_flatMap.mp hc
  rcases List.mem_cons.mp hb with rfl | hb
  · exact Json.plain_digitChar _
  · rw [List.mem_singleton.mp hb]
    exact Json.plain_digitChar _

/-- The length of a number in hexadecimal. -/
theorem size_hexNumber (n : ℕ) :
    (Json.str (hexNumber n)).size = 2 + 2 + max (divCeil n.size 4) 1 := by
  rw [hexNumber, size_prefixed (Json.plain_toDigits (by decide) n), Json.length_toDigits_sixteen]
  rfl

theorem lenExact_fixedBytes (n : ℕ) : LenExact (FixedBytes n) := by
  intro bytes
  change 2 + 2 + 2 * n = (Json.str (encodeBytes bytes.1)).size
  rw [size_encodeBytes, bytes.2]

theorem lenExact_fixedData (n : ℕ) : LenExact (FixedData n) :=
  fun data => lenExact_fixedBytes n data.data

theorem lenExact_unformattedData : LenExact UnformattedData :=
  fun data => (size_encodeBytes data.data).symm

theorem lenExact_monadU256 : LenExact MonadU256 := fun n => (size_hexNumber n.value.toNat).symm

/-- The bits of a `u64` that are counted are those of the number. -/
theorem sub_leadingZeros (n : UInt64) : 64 - leadingZeros n = n.toNat.size := by
  have hsize : n.toNat.size ≤ 64 := Nat.size_le.mpr n.toNat_lt
  unfold leadingZeros
  omega

theorem lenExact_quantity : LenExact Quantity := by
  intro quantity
  change 2 + 2 + max (divCeil (64 - leadingZeros quantity.value) 4) 1 =
    (Json.str (hexNumber quantity.value.toNat)).size
  rw [size_hexNumber, sub_leadingZeros]

/-- The length of a number that may be absent. -/
theorem jsonSerializedHexIntLen_eq (value : Option UInt64) :
    jsonSerializedHexIntLen value = (toJson (value.map Quantity.mk)).size := by
  cases value with
  | none => rfl
  | some n => exact lenExact_quantity ⟨n⟩

/-! ### Exactness of records -/

theorem lenExact_requestId : LenExact Jsonrpc.RequestId := by
  intro id
  cases id with
  | number n => exact lenExact_int64 n
  | string s => exact lenExact_string s
  | null => rfl

theorem lenExact_callKind : LenExact CallKind := by
  intro kind
  cases kind <;> decide +kernel

/-- The length of a field that may be left out. -/
theorem sum_skipNone {α : Type} [Serialize α] [JsonSerializedLen α] (h : LenExact α) (key : String)
    (value : Option α) : ((skipNone key value).map Json.fieldSize).sum =
      (value.map fun a => Json.keySize key + jsonSerializedLen a).getD 0 := by
  cases value with
  | none => rfl
  | some a =>
    change Json.keySize key + (toJson a).size + 0 = Json.keySize key + jsonSerializedLen a
    rw [h a]
    rfl

theorem lenExact_log : LenExact AlloyLog := by
  rintro ⟨⟨address, topics, data⟩, blockHash, blockNumber, blockTimestamp, transactionHash,
    transactionIndex, logIndex, removed⟩
  have hbase : logBaseJson.utf8ByteSize = 1 + (Json.keySize "address" + 44) +
      (Json.keySize "topics" + 2) + (Json.keySize "data" + 4) + Json.keySize "blockHash" +
      Json.keySize "blockNumber" + Json.keySize "transactionHash" +
      Json.keySize "transactionIndex" + Json.keySize "logIndex" + Json.keySize "removed" := by
    decide +kernel
  have hkey : "\"blockTimestamp\":,".utf8ByteSize = Json.keySize "blockTimestamp" := by
    decide +kernel
  have haddress : (toJson address).size = 44 := (lenExact_fixedBytes 20 address).symm
  have htopics : (toJson topics).size = 2 + (topics.map fun _ => 68).sum + (topics.length - 1) :=
    (lenExact_list (lenExact_fixedBytes 32) topics).symm
  rw [List.map_const', List.sum_replicate, smul_eq_mul] at htopics
  have hdata : (toJson (UnformattedData.mk data)).size = 2 + 2 + 2 * data.length :=
    (lenExact_unformattedData ⟨data⟩).symm
  have hblockHash : jsonSerializedLen blockHash = (toJson blockHash).size :=
    lenExact_option (lenExact_fixedBytes 32) blockHash
  have htransactionHash : jsonSerializedLen transactionHash = (toJson transactionHash).size :=
    lenExact_option (lenExact_fixedBytes 32) transactionHash
  have hremoved : jsonSerializedLen removed = (toJson removed).size := lenExact_bool removed
  have htimestamp := sum_skipNone lenExact_quantity "blockTimestamp"
    (blockTimestamp.map Quantity.mk)
  rw [Option.map_map] at htimestamp
  change logBaseJson.utf8ByteSize + jsonSerializedLen blockHash +
    jsonSerializedHexIntLen blockNumber + ((blockTimestamp.map fun t =>
      "\"blockTimestamp\":,".utf8ByteSize + jsonSerializedHexIntLen (some t)).getD 0) +
    2 * data.length + jsonSerializedHexIntLen logIndex + jsonSerializedLen removed +
    (topics.length * 68 + (topics.length - 1)) + jsonSerializedLen transactionHash +
    jsonSerializedHexIntLen transactionIndex = (Json.obj _).size
  rw [Json.size_obj (by simp), hkey]
  simp only [List.map_append, List.sum_append, htimestamp, List.map_cons, List.map_nil,
    List.sum_cons, List.sum_nil, Json.fieldSize, haddress, htopics, hdata, hbase, hblockHash,
    htransactionHash, hremoved, jsonSerializedHexIntLen_eq blockNumber,
    jsonSerializedHexIntLen_eq transactionIndex, jsonSerializedHexIntLen_eq logIndex]
  change _ + ((blockTimestamp.map fun t => Json.keySize "blockTimestamp" +
    jsonSerializedHexIntLen (some t)).getD 0) + _ + _ + _ + _ + _ + _ =
      1 + (_ + ((blockTimestamp.map fun t => Json.keySize "blockTimestamp" +
        jsonSerializedHexIntLen (some t)).getD 0) + _)
  omega

theorem lenExact_jsonRpcError : LenExact Jsonrpc.JsonRpcError := by
  rintro ⟨code, message, data⟩
  have hbase : "\x7b\"code\":,\"message\":\x7d".utf8ByteSize =
    1 + Json.keySize "code" + Json.keySize "message" := by decide +kernel
  have hkey : "\"data\":,".utf8ByteSize = Json.keySize "data" := by decide +kernel
  have hcode : jsonSerializedLen code = (toJson code).size := lenExact_int32 code
  have hmessage : jsonSerializedLen message = (toJson message).size := lenExact_string message
  change "\x7b\"code\":,\"message\":\x7d".utf8ByteSize + jsonSerializedLen code +
    jsonSerializedLen message + ((data.map fun data =>
      "\"data\":,".utf8ByteSize + jsonSerializedLen data).getD 0) = (Json.obj _).size
  rw [Json.size_obj (by simp), hbase, hkey, hcode, hmessage]
  simp only [List.map_append, List.sum_append, sum_skipNone lenExact_rawValue, List.map_cons,
    List.map_nil, List.sum_cons, List.sum_nil, Json.fieldSize]
  omega

theorem lenExact_response : LenExact Jsonrpc.Response := by
  rintro ⟨jsonrpc, result, error, id⟩
  have hbase : "\x7b\"jsonrpc\":,\"id\":\x7d".utf8ByteSize =
    1 + Json.keySize "jsonrpc" + Json.keySize "id" := by decide +kernel
  have hresult : "\"result\":,".utf8ByteSize = Json.keySize "result" := by decide +kernel
  have herror : "\"error\":,".utf8ByteSize = Json.keySize "error" := by decide +kernel
  have hjsonrpc : jsonSerializedLen jsonrpc = (toJson jsonrpc).size := lenExact_string jsonrpc
  have hid : jsonSerializedLen id = (toJson id).size := lenExact_requestId id
  change "\x7b\"jsonrpc\":,\"id\":\x7d".utf8ByteSize + jsonSerializedLen jsonrpc +
    ((result.map fun result => "\"result\":,".utf8ByteSize + jsonSerializedLen result).getD 0) +
    ((error.map fun error => "\"error\":,".utf8ByteSize + jsonSerializedLen error).getD 0) +
    jsonSerializedLen id = (Json.obj _).size
  rw [Json.size_obj (by simp), hbase, hresult, herror, hjsonrpc, hid]
  simp only [List.map_append, List.sum_append, sum_skipNone lenExact_rawValue,
    sum_skipNone lenExact_jsonRpcError, List.map_cons, List.map_nil, List.sum_cons, List.sum_nil,
    Json.fieldSize]
  omega

theorem lenExact_monadCallFrameLog : LenExact MonadCallFrameLog := by
  rintro ⟨address, topics, data, position, index⟩
  have hbase : "\x7b\"address\":,\"topics\":,\"data\":,\"position\":,\"index\":\x7d".utf8ByteSize =
      1 + Json.keySize "address" + Json.keySize "topics" + Json.keySize "data" +
        Json.keySize "position" + Json.keySize "index" := by decide +kernel
  have haddress : jsonSerializedLen address = (toJson address).size := lenExact_fixedData 20 address
  have htopics : jsonSerializedLen topics = (toJson topics).size :=
    lenExact_list (lenExact_fixedData 32) topics
  have hdata : jsonSerializedLen data = (toJson data).size := lenExact_unformattedData data
  have hposition : jsonSerializedLen position = (toJson position).size := lenExact_quantity position
  have hindex : jsonSerializedLen index = (toJson index).size := lenExact_quantity index
  change "\x7b\"address\":,\"topics\":,\"data\":,\"position\":,\"index\":\x7d".utf8ByteSize +
    jsonSerializedLen address + jsonSerializedLen topics + jsonSerializedLen data +
    jsonSerializedLen position + jsonSerializedLen index = (Json.obj _).size
  rw [Json.size_obj (by simp), hbase, haddress, htopics, hdata, hposition, hindex]
  simp only [List.map_cons, List.map_nil, List.sum_cons, List.sum_nil, Json.fieldSize]
  omega

/-! ### Exactness of frames -/

/-- **The fields that have been added** are those of a list: their lengths are counted with the
quotation marks and the colons, and their number is that of the commas. -/
structure Segments.Counts (acc : Segments) (fields : List (String × Json)) : Prop where
  sum_eq : acc.segments + acc.fields = (fields.map Json.fieldSize).sum
  fields_eq : acc.fields = fields.length

namespace Segments

variable {acc : Segments} {fields : List (String × Json)}

theorem Counts.add (h : acc.Counts fields) (key : String)
    (hkey : key.toList.all (fun c => decide (Json.Plain c)) = true) {value : Json} {valueLen : ℕ}
    (hvalue : valueLen = value.size) :
    (acc.add key valueLen).Counts (fields ++ [(key, value)]) where
  sum_eq := by
    rw [List.map_append, List.sum_append, ← h.sum_eq, List.map_singleton, List.sum_singleton,
      Json.fieldSize, Json.keySize_of_plain (Json.plain_of_all hkey), Segments.add, hvalue]
    dsimp only
    omega
  fields_eq := by
    rw [List.length_append, ← h.fields_eq]
    rfl

theorem Counts.addSome (h : acc.Counts fields) (key : String)
    (hkey : key.toList.all (fun c => decide (Json.Plain c)) = true) {α : Type} [Serialize α]
    [JsonSerializedLen α] (hexact : LenExact α) (value : Option α) :
    (acc.addSome key value).Counts (fields ++ skipNone key value) := by
  cases value with
  | none =>
    rw [skipNone, List.append_nil]
    exact h
  | some a => exact h.add key hkey (hexact a)

theorem Counts.addNonempty (h : acc.Counts fields) (key : String)
    (hkey : key.toList.all (fun c => decide (Json.Plain c)) = true) {α : Type} (elements : List α)
    {value : Json} {valueLen : ℕ} (hvalue : valueLen = value.size) :
    (acc.addNonempty key elements valueLen).Counts (fields ++ skipEmpty key elements value) := by
  unfold Segments.addNonempty skipEmpty
  split_ifs
  · rw [List.append_nil]
    exact h
  · exact h.add key hkey hvalue

/-- The length of an object whose fields have been added. -/
theorem Counts.size_obj (h : acc.Counts fields) (hne : fields ≠ []) :
    2 + acc.segments + (acc.fields - 1) = (Json.obj fields).size := by
  have hpos := List.length_pos_iff.mpr hne
  rw [Json.size_obj hne, ← h.sum_eq]
  have hfields := h.fields_eq
  omega

end Segments

/-- **A frame** whose calls are exact together is exact. -/
theorem MonadCallFrame.exact_of_calls (frame : MonadCallFrame)
    (hcalls : 2 + sumLen frame.calls + (frame.calls.length - 1) =
      (Json.arr (toJsonAll frame.calls)).size) :
    frame.jsonSerializedLen = frame.toJson.size := by
  obtain ⟨typ, caller, callee, value, gas, gasUsed, input, output, error, revertReason, calls,
    logs⟩ := frame
  have hstart : (Segments.mk 0 0).Counts [] := ⟨rfl, rfl⟩
  -- The fields are added in the order in which they are written.
  have htyp := hstart.add "type" (by decide) (lenExact_callKind typ)
  have hcaller := htyp.add "from" (by decide) (lenExact_fixedData 20 caller)
  have hcallee := hcaller.addSome "to" (by decide) (lenExact_fixedData 20) callee
  have hvalue := hcallee.addSome "value" (by decide) lenExact_monadU256 value
  have hgas := hvalue.add "gas" (by decide) (lenExact_quantity gas)
  have hgasUsed := hgas.add "gasUsed" (by decide) (lenExact_quantity gasUsed)
  have hinput := hgasUsed.add "input" (by decide) (lenExact_unformattedData input)
  have houtput := hinput.addNonempty "output" (by decide) output.data
    (lenExact_unformattedData output)
  have herror := houtput.addSome "error" (by decide) lenExact_string error
  have hreason := herror.addSome "revertReason" (by decide) lenExact_string revertReason
  have hcalls' := hreason.addNonempty "calls" (by decide) calls hcalls
  have hlogs := hcalls'.addNonempty "logs" (by decide) logs
    (lenExact_list lenExact_monadCallFrameLog logs)
  exact hlogs.size_obj (by simp)

/-- The frames of a list are written one after the other. -/
theorem MonadCallFrame.toJsonAll_eq (frames : List MonadCallFrame) :
    toJsonAll frames = frames.map MonadCallFrame.toJson := by
  induction frames with
  | nil => rfl
  | cons frame frames ih => rw [toJsonAll, ih, List.map_cons]

/-- **Frames are exact**, with the frames of the calls made from them, to any depth. -/
theorem lenExact_monadCallFrame : LenExact MonadCallFrame := by
  -- The second statement is about the frames of the calls of a frame.
  refine @MonadCallFrame.rec (fun frame => frame.jsonSerializedLen = frame.toJson.size)
    (fun frames => MonadCallFrame.sumLen frames =
      ((MonadCallFrame.toJsonAll frames).map Json.size).sum) ?_ rfl ?_
  · intro typ caller callee value gas gasUsed input output error revertReason calls logs hcalls
    refine MonadCallFrame.exact_of_calls _ ?_
    rw [Json.size_arr, hcalls, MonadCallFrame.toJsonAll_eq, List.length_map]
  · intro frame frames hframe hframes
    rw [MonadCallFrame.sumLen, MonadCallFrame.toJsonAll, List.map_cons, List.sum_cons, hframe,
      hframes]

theorem lenExact_monadDebugTraceBlockResult : LenExact MonadDebugTraceBlockResult := by
  rintro ⟨txHash, result⟩
  have hbase : "\x7b\"txHash\":,\"result\":\x7d".utf8ByteSize =
    1 + Json.keySize "txHash" + Json.keySize "result" := by decide +kernel
  have htxHash : jsonSerializedLen txHash = (toJson txHash).size := lenExact_fixedData 32 txHash
  have hresult : jsonSerializedLen result = (toJson result).size := lenExact_monadCallFrame result
  change "\x7b\"txHash\":,\"result\":\x7d".utf8ByteSize + jsonSerializedLen txHash +
    jsonSerializedLen result = (Json.obj _).size
  rw [Json.size_obj (by simp), hbase, htxHash, hresult]
  simp only [List.map_cons, List.map_nil, List.sum_cons, List.sum_nil, Json.fieldSize]
  omega

/-- **The lengths are exact**, for all types that have them. -/
theorem jsonSerializedLen_exact :
    LenExact Bool ∧ LenExact Int32 ∧ LenExact Int64 ∧ LenExact String ∧ LenExact RawValue ∧
    (∀ (α : Type) [Serialize α] [JsonSerializedLen α], LenExact α → LenExact (Option α)) ∧
    (∀ (α : Type) [Serialize α] [JsonSerializedLen α], LenExact α → LenExact (List α)) ∧
    (∀ n, LenExact (FixedBytes n)) ∧ LenExact AlloyLog ∧ LenExact Jsonrpc.RequestId ∧
    LenExact Jsonrpc.JsonRpcError ∧ LenExact Jsonrpc.Response ∧ LenExact Quantity ∧
    LenExact MonadU256 ∧ LenExact UnformattedData ∧ (∀ n, LenExact (FixedData n)) ∧
    LenExact CallKind ∧ LenExact MonadCallFrameLog ∧ LenExact MonadCallFrame ∧
    LenExact MonadDebugTraceBlockResult := by
  refine ⟨lenExact_bool, lenExact_int32, lenExact_int64, lenExact_string, lenExact_rawValue,
    fun α _ _ h => lenExact_option h, fun α _ _ h => lenExact_list h, lenExact_fixedBytes,
    lenExact_log, lenExact_requestId, lenExact_jsonRpcError, lenExact_response, lenExact_quantity,
    lenExact_monadU256, lenExact_unformattedData, lenExact_fixedData, lenExact_callKind,
    lenExact_monadCallFrameLog, lenExact_monadCallFrame, lenExact_monadDebugTraceBlockResult⟩

end Rpc

end MonadServices
