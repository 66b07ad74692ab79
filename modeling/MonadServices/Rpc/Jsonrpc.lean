import MonadServices.Rpc.JsonSerializedLen

/-!
# Errors and responses of JSON-RPC

An error has a code, a message and maybe data. Most are made from one of a list of codes, each of
which has a message of its own that is taken where no other is given.
-/

namespace MonadServices

namespace Rpc

namespace Jsonrpc

/-- `jsonrpc::ErrorCode`. -/
inductive ErrorCode where
  | executionReverted
  | transactionTimeout
  | transactionUnready
  | serverError
  | transactionRejected
  | parseError
  | invalidRequest
  | methodNotFound
  | invalidParams
  | internalError
  | methodNotSupported
  deriving DecidableEq

namespace ErrorCode

/-- The number that stands for an error on the wire. -/
def code : ErrorCode → Int32
  | .executionReverted => 3
  | .transactionTimeout => 4
  | .transactionUnready => 5
  | .serverError => -32000
  | .transactionRejected => -32003
  | .parseError => -32700
  | .invalidRequest => -32600
  | .methodNotFound => -32601
  | .invalidParams => -32602
  | .internalError => -32603
  | .methodNotSupported => -32004

/-- The message of an error for which no other one is given. -/
def defaultMessage : ErrorCode → String
  | .executionReverted => "execution reverted"
  | .transactionTimeout => "Transaction confirmation timed out"
  | .transactionUnready => "The transaction is not ready to be processed"
  | .serverError => "Server error"
  | .transactionRejected => "Transaction rejected"
  | .parseError => "Parse error"
  | .invalidRequest => "Invalid request"
  | .methodNotFound => "Method not found"
  | .invalidParams => "Invalid params"
  | .internalError => "Internal error"
  | .methodNotSupported => "Method not supported"

end ErrorCode

/-! ### Errors -/

namespace Msg

/-- The sender cannot pay for the gas and the value. -/
def insufficientFunds : String := "Insufficient funds for gas * price + value"

/-- The sender cannot pay for as much gas as the call takes. -/
def outOfGasAllowance : String := "out of gas: gas required exceeds allowance"

end Msg

namespace JsonRpcError

/-- The error of a code, with the message of this code. -/
def new (code : ErrorCode) : JsonRpcError := ⟨code.code, code.defaultMessage, none⟩

/-- The error of a code, with a message of its own. -/
def withMessage (code : ErrorCode) (message : String) : JsonRpcError := ⟨code.code, message, none⟩

/-- The text that comes with an error is written as a string. -/
def withMessageAndData (code : ErrorCode) (message : String) (data : Option String) :
    JsonRpcError :=
  ⟨code.code, message, data.map fun data => ⟨(toJson data).compact⟩⟩

/-- A call that could not be executed. -/
def ethCallError (message : String) (data : Option String) : JsonRpcError :=
  withMessageAndData .serverError message data

/-- A call that has been reverted; the data are what it has returned. -/
def ethCallExecutionRevert (message : String) (data : Option String) : JsonRpcError :=
  withMessageAndData .executionReverted message data

/-- The sender of a transaction cannot pay for it. -/
def insufficientFunds : JsonRpcError := withMessage .transactionRejected Msg.insufficientFunds

/-- A transaction is to create a contract that is too large. -/
def codeSizeTooLarge (size : ℕ) : JsonRpcError :=
  withMessage .transactionRejected
    s!"Contract code size is {size} bytes and exceeds code size limit"

/-- The parameters of a request cannot be used. -/
def invalidParams : JsonRpcError := new .invalidParams

/-- No source has the block that is asked for. -/
def blockNotFound : JsonRpcError :=
  withMessage .invalidParams
    ("Block requested not found. Request might be querying " ++
      "historical state that is not available. If possible, " ++
      "reformulate query to point to more recent blocks")

/-- Something else has gone wrong, as the message says. -/
def internalError (message : String) : JsonRpcError :=
  withMessage .internalError s!"Internal error: {message}"

end JsonRpcError

namespace Response

/-- A response, which says its version. -/
def new (result : Option RawValue) (error : Option JsonRpcError) (id : RequestId) : Response :=
  ⟨"2.0", result, error, id⟩

/-- The response to a request: what its method has returned. -/
def fromResult (id : RequestId) : Except JsonRpcError RawValue → Response
  | .ok v => new (some v) none id
  | .error e => new none (some e) id

end Response

end Jsonrpc

/-- `eth_json::serialize_result`: the values that are returned can all be written. -/
def serializeResult {α : Type} [Serialize α] (value : α) :
    Except Jsonrpc.JsonRpcError RawValue :=
  .ok ⟨(toJson value).compact⟩

end Rpc

end MonadServices
