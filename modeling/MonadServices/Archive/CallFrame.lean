import MonadServices.Archive.Alloy

/-!
# Call frames

A stored trace is the coding of the call frames of a transaction, in groups. A frame is not a
list of its own: its fields follow each other in the list of its group, and its logs are there
if anything follows.
-/

namespace MonadServices

namespace Archive

inductive CallKind where
  | call
  | delegateCall
  | callCode
  | create
  | create2
  | selfDestruct
  | staticCall
  deriving DecidableEq

/-- A log with its place among the calls of the frame. -/
structure CallFrameLog where
  log : Log
  position : UInt64
  deriving DecidableEq

structure CallFrame where
  typ : CallKind
  flags : UInt64
  caller : Address
  callee : Option Address
  value : BitVec 256
  gas : UInt64
  gasUsed : UInt64
  input : Bytes
  output : Bytes
  status : UInt8
  depth : UInt64
  logs : Option (List CallFrameLog)
  deriving DecidableEq

/-- The kind of a call: a static call is a call with a flag. -/
def CallKind.ofByte (flags : UInt64) (typ : UInt8) : Option CallKind :=
  match typ.toNat with
  | 0 => some (if flags = 1 then .staticCall else .call)
  | 1 => some .delegateCall
  | 2 => some .callCode
  | 3 => some .create
  | 4 => some .create2
  | 5 => some .selfDestruct
  | _ => none

/-- The callee; the empty string stands for none. -/
def calleeOfRlp : Rlp → Option (Option Address)
  | .str [] => some none
  | x => ((RlpCodec.fixed 20).ofRlp x).map some

section Decode

-- The coding of a log is that of its library.
variable (log : RlpCodec Log)

def CallFrameLog.ofRlp : Rlp → Option CallFrameLog
  | .list [l, position] => do return ⟨← log.ofRlp l, ← RlpCodec.uint64.ofRlp position⟩
  | _ => none

/-- The logs at the end of a frame: anything that follows is taken for them. -/
def logsOfRlp : List Rlp → Option (Option (List CallFrameLog) × List Rlp)
  | [] => some (none, [])
  | .list logs :: rest => do return (some (← logs.mapM (CallFrameLog.ofRlp log)), rest)
  | _ :: _ => none

/-- Reads a frame from the front of a group. -/
def CallFrame.ofItems : List Rlp → Option (CallFrame × List Rlp)
  | typ :: flags :: caller :: callee :: value :: gas :: gasUsed :: input :: output :: status ::
      depth :: rest => do
    let typ ← RlpCodec.uint8.ofRlp typ
    let flags ← RlpCodec.uint64.ofRlp flags
    let caller ← (RlpCodec.fixed 20).ofRlp caller
    let callee ← calleeOfRlp callee
    let value ← RlpCodec.uint256.ofRlp value
    let gas ← RlpCodec.uint64.ofRlp gas
    let gasUsed ← RlpCodec.uint64.ofRlp gasUsed
    let input ← RlpCodec.bytes.ofRlp input
    let output ← RlpCodec.bytes.ofRlp output
    let status ← RlpCodec.uint8.ofRlp status
    let depth ← RlpCodec.uint64.ofRlp depth
    let (logs, rest) ← logsOfRlp log rest
    let typ ← CallKind.ofByte flags typ
    return (⟨typ, flags, caller, callee, value, gas, gasUsed, input, output, status, depth, logs⟩,
      rest)
  | _ => none

/-- The frames of a group, for as long as there are items. A frame takes some, so that there
are no more frames than items. -/
def framesOfItems : ℕ → List Rlp → Option (List CallFrame)
  | _, [] => some []
  | 0, _ :: _ => none
  | fuel + 1, items => do
    let (frame, rest) ← CallFrame.ofItems log items
    return frame :: (← framesOfItems fuel rest)

/-- The frames of a group. -/
def groupOfRlp : Rlp → Option (List CallFrame)
  | .list items => framesOfItems log items.length items
  | .str _ => none

/-- **Decodes a trace.** What follows the list of the groups is not looked at. -/
def decodeTrace (trace : Bytes) : Option (List (List CallFrame)) := do
  let (item, _) ← Rlp.decode trace
  match item with
  | .list groups => groups.mapM (groupOfRlp log)
  | .str _ => none

/-- The traces of a block. -/
def decodeTraces (traces : List Bytes) : Option (List (List (List CallFrame))) :=
  traces.mapM (decodeTrace log)

end Decode

end Archive

end MonadServices
