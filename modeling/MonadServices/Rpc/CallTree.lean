import MonadServices.Archive.Checker
import MonadServices.Lib.DepthTree
import MonadServices.Query.TraceAddress
import MonadServices.Rpc.JsonSerializedLen

/-!
# The tree of the calls of a transaction

A trace is stored as a list of frames, each with its depth, and is returned as a tree of calls.
The logs of a frame come with the number of calls that were made before them; when the tree is
built, all its logs are numbered in the order in which they were emitted.

**The tree has the frames in the order of the list, and each below the last frame before it that
has a smaller depth**; the paths to the frames are the addresses that the index of traces has for
them, unless a counter of the latter runs out
(`MonadServices.Rpc.CallTree.rebuilds_iff`).
-/

namespace MonadServices

namespace Rpc

namespace CallTree

open Archive (CallFrame CallFrameLog decodeTrace)

/-! ### Frames -/

/-- A log of a frame. Its index is the number of logs that were emitted before it. -/
structure MonadCallFrameLog where
  address : Address
  topics : List B256
  data : Bytes
  position : UInt64
  index : ℕ
  deriving DecidableEq

def MonadCallFrameLog.fromCallFrameLog (value : CallFrameLog) (index : ℕ) : MonadCallFrameLog where
  address := value.log.address
  topics := value.log.topics
  data := value.log.data
  position := value.position
  index := index

/-- A frame without the calls that are made from it. `caller` and `callee` are the fields `from`
and `to`. -/
structure Frame where
  typ : Archive.CallKind
  caller : Address
  callee : Option Address
  value : Option (BitVec 256)
  gas : UInt64
  gasUsed : UInt64
  input : Bytes
  output : Bytes
  depth : ℕ
  error : Option String
  revertReason : Option String
  logs : List MonadCallFrameLog
  deriving DecidableEq

/-- A frame with the frames of the calls that are made from it. -/
abbrev MonadCallFrame := Tree Frame

/-- What is used of the database, and of the libraries that read traces. -/
structure Env where
  /-- How a log is coded. -/
  log : RlpCodec Archive.Log
  /-- The text of the error for a trace that cannot be read. -/
  rlpError : Bytes → String
  decodeRevertMessage : Bytes → Option String
  /-- The hash of the code of an account. -/
  getAccount : Address → Except String (Option B256)
  getCode : B256 → Except String Bytes

variable (env : Env)

/-- What a status says of a frame. -/
def errorOf (status : UInt8) : Option String :=
  match status.toNat with
  | 0 => none
  | 2 => some "execution reverted"
  | 3 => some "out of gas"
  | 18 => some "reserve balance violation"
  | _ => some "error"

/-- Whether a frame creates a contract. -/
def isCreate : Archive.CallKind → Bool
  | .create | .create2 => true
  | _ => false

/-- `MonadCallFrame::from`, without calls. -/
def Frame.fromCallFrame (value : CallFrame) : Frame where
  typ := value.typ
  caller := value.caller
  callee :=
    if (errorOf value.status).isSome && isCreate value.typ && value.callee.isSome then none
    else value.callee
  value := if value.typ = .staticCall then none else some value.value
  gas := value.gas
  gasUsed := value.gasUsed
  input := value.input
  output := value.output
  depth := value.depth.toNat
  error := errorOf value.status
  revertReason := (errorOf value.status).bind fun _ => env.decodeRevertMessage value.output
  logs := (value.logs.getD []).mapIdx fun i log => .fromCallFrameLog log i

/-! ### The order in which logs are emitted -/

/-- A log of a tree: the path to its frame, and its number there. -/
structure LogRef where
  path : List ℕ
  log : ℕ
  deriving DecidableEq

/-- The same log, seen from the frame above. -/
def LogRef.under (c : ℕ) (ref : LogRef) : LogRef := ⟨c :: ref.path, ref.log⟩

/-- How many logs come before the call with number `c`. -/
def logsBefore (c : ℕ) (logs : List MonadCallFrameLog) : ℕ :=
  (logs.takeWhile fun log => log.position.toNat ≤ c).length

/-- The logs from number `k` on. -/
def ownLogs (k : ℕ) (n : ℕ) : List LogRef := (List.range' k n).map fun k => ⟨[], k⟩

mutual

/-- **The logs of a frame in the order in which they were emitted**, those of its calls among
them. -/
def extendLogsByEmitOrder : MonadCallFrame → List LogRef
  | .node frame calls => extendCalls 0 0 frame.logs calls

/-- The logs from number `k` on, and those of the calls from number `c` on. -/
def extendCalls (c k : ℕ) (logs : List MonadCallFrameLog) : List MonadCallFrame → List LogRef
  | [] => ownLogs k logs.length
  | call :: calls =>
    let n := logsBefore c logs
    ownLogs k n ++ (extendLogsByEmitOrder call).map (LogRef.under c) ++
      extendCalls (c + 1) (k + n) (logs.drop n) calls

end

mutual

/-- Gives each log its index. -/
def setIndices (index : LogRef → ℕ) : MonadCallFrame → MonadCallFrame
  | .node frame calls =>
    .node { frame with logs := frame.logs.mapIdx fun k log => { log with index := index ⟨[], k⟩ } }
      (setIndicesFrom index 0 calls)

def setIndicesFrom (index : LogRef → ℕ) (c : ℕ) : List MonadCallFrame → List MonadCallFrame
  | [] => []
  | call :: calls =>
    setIndices (fun ref => index (ref.under c)) call :: setIndicesFrom index (c + 1) calls

end

/-- **Builds the tree of a list of frames**; a log is numbered by its place in the order in which
the logs were emitted. -/
def buildCallTree (frames : List CallFrame) : Option MonadCallFrame :=
  (Tree.build Frame.depth (frames.map (Frame.fromCallFrame env))).map fun root =>
    setIndices (fun ref => (extendLogsByEmitOrder root).idxOf ref) root

/-! ### Reading a trace -/

inductive Tracer where
  | callTracer
  | preStateTracer

structure TracerObject where
  tracer : Tracer
  onlyTopCall : Bool
  diffMode : Bool
  withLog : Bool

def internalError (message : String) : Jsonrpc.JsonRpcError :=
  ⟨-32603, s!"Internal error: {message}", none⟩

def methodNotSupported : Jsonrpc.JsonRpcError := ⟨-32004, "Method not supported", none⟩

/-- Whether the logs of a frame are there, if they are asked for; else they are dropped. -/
def checkLogs (withLog : Bool) (frame : CallFrame) : Except Jsonrpc.JsonRpcError CallFrame :=
  if withLog then
    if frame.logs.isNone then
      if frame.typ = .selfDestruct then .ok { frame with logs := some [] }
      else .error (internalError "logs not found in call frame")
    else .ok frame
  else .ok { frame with logs := none }

/-- Adds the code of a contract that a frame has created, if its output was not stored. -/
def includeCodeOutput (frame : CallFrame) : Except Jsonrpc.JsonRpcError CallFrame :=
  if frame.output ≠ [] || !isCreate frame.typ then .ok frame
  else
    match frame.callee with
    | none =>
      if frame.status = 0 then
        .error (internalError "contract address not found in call frame")
      else .ok frame
    | some contractAddr =>
      match env.getAccount contractAddr with
      | .error e => .error (internalError e)
      | .ok none => .ok { frame with output := [] }
      | .ok (some codeHash) =>
        match env.getCode codeHash with
        | .error e => .error (internalError e)
        | .ok code => .ok { frame with output := code }

/-- A frame without its calls. -/
def clearCalls : MonadCallFrame → MonadCallFrame
  | .node frame _ => .node frame []

/-- **Decodes a trace** to the tree of its calls. -/
def decodeCallFrame (trace : Bytes) (tracer : TracerObject) :
    Except Jsonrpc.JsonRpcError (Option MonadCallFrame) :=
  match decodeTrace env.log trace with
  | none => .error ⟨-32000, s!"Rlp Decode error: {env.rlpError trace}", none⟩
  | some groups => do
    let callFrames ← groups.flatten.mapM (checkLogs tracer.withLog)
    match tracer.tracer with
    | .callTracer =>
      if tracer.diffMode then .error methodNotSupported
      else if tracer.onlyTopCall then
        match callFrames with
        | [] => return none
        | root :: rest =>
          let root ← includeCodeOutput env root
          return (buildCallTree env (root :: rest)).map clearCalls
      else
        let callFrames ← callFrames.mapM (includeCodeOutput env)
        return buildCallTree env callFrames
    | .preStateTracer => .error methodNotSupported

/-! ### What is expected -/

/-- A frame as far as it does not depend on the other frames. -/
def withoutIndices (frame : Frame) : Frame :=
  { frame with logs := frame.logs.map fun log => { log with index := 0 } }

/-- The depth of a frame of a list. -/
def depthOf (frames : List CallFrame) (i : ℕ) : ℕ := (frames[i]?.map (·.depth.toNat)).getD 0

open DepthList Query

/-- **What is expected of the tree of a list of frames**, in a build that checks overflows or in one
that does not. -/
structure Rebuilds (overflowChecks : Bool) (frames : List CallFrame) (root : MonadCallFrame) :
    Prop where
  /-- The frames of the tree are those of the list, in order. -/
  preorder : root.preorder.map withoutIndices =
    frames.map fun frame => withoutIndices (.fromCallFrame env frame)
  /-- A frame is a call of the last one before it with a smaller depth, or of the first one. -/
  parent : ∀ i, 0 < i → i < frames.length → ∃ j c, LastAbove (depthOf frames) j i ∧
    root.paths.getD i [] = root.paths.getD j [] ++ [c]
  /-- The paths are the trace addresses, if these can be computed and there is one frame at the
  top. -/
  address : ∀ depths addresses, depths.map UInt32.toNat = frames.map (·.depth.toNat) →
    computeTraceAddresses overflowChecks depths = .ok addresses →
    (∀ i, 0 < i → i < frames.length → 0 < depthOf frames i) →
    root.paths = addresses.map (·.map UInt32.toNat)
  /-- The top call of a trace is the root of its tree without the calls. -/
  topCall : ∀ (trace : Bytes) (tracer : TracerObject) (result : Option MonadCallFrame),
    decodeCallFrame env trace { tracer with onlyTopCall := false } = .ok result →
    decodeCallFrame env trace { tracer with onlyTopCall := true } = .ok (result.map clearCalls)

/-- The depths of the frames list a tree with one frame at the top, and are numbers of 32 bits. -/
structure SingleTree (frames : List CallFrame) : Prop where
  listing : Listing (depthOf frames) frames.length
  single : ∀ i, 0 < i → i < frames.length → 0 < depthOf frames i
  small : ∀ i, depthOf frames i < 2 ^ 32

/-- **No frame has too many siblings before it**, unless overflows are checked: the counters of the
trace addresses have 32 bits. -/
def FewSiblings (overflowChecks : Bool) (frames : List CallFrame) : Prop :=
  overflowChecks = false → SingleTree frames → ∀ j i, i < frames.length →
    Parent (depthOf frames) j i → childrenBefore (depthOf frames) j i < 2 ^ 32

/-! ### The tree with its indices -/

section Indices

mutual

theorem paths_setIndices (index : LogRef → ℕ) :
    ∀ t : MonadCallFrame, (setIndices index t).paths = t.paths
  | .node frame calls => by
    rw [setIndices, Tree.paths, Tree.paths, pathsFrom_setIndices index 0 0 calls]

theorem pathsFrom_setIndices (index : LogRef → ℕ) (c k : ℕ) : ∀ calls : List MonadCallFrame,
    Tree.pathsFrom k (setIndicesFrom index c calls) = Tree.pathsFrom k calls
  | [] => rfl
  | call :: calls => by
    rw [setIndicesFrom, Tree.pathsFrom, Tree.pathsFrom, paths_setIndices,
      pathsFrom_setIndices index (c + 1) (k + 1) calls]

end

mutual

theorem preorder_setIndices (index : LogRef → ℕ) : ∀ t : MonadCallFrame,
    (setIndices index t).preorder.map withoutIndices = t.preorder.map withoutIndices
  | .node frame calls => by
    rw [setIndices, Tree.preorder, Tree.preorder, List.map_cons, List.map_cons,
      preorderAll_setIndices index 0 calls]
    have hlogs : (frame.logs.mapIdx fun k log => { log with index := index ⟨[], k⟩ }).map
        (fun log => { log with index := 0 }) =
        frame.logs.map fun log => { log with index := 0 } := by
      refine List.ext_getElem? fun k => ?_
      rw [List.getElem?_map, List.getElem?_mapIdx, List.getElem?_map, Option.map_map]
      rfl
    rw [withoutIndices, withoutIndices, hlogs]

theorem preorderAll_setIndices (index : LogRef → ℕ) (c : ℕ) : ∀ calls : List MonadCallFrame,
    (Tree.preorderAll (setIndicesFrom index c calls)).map withoutIndices =
      (Tree.preorderAll calls).map withoutIndices
  | [] => rfl
  | call :: calls => by
    rw [setIndicesFrom, Tree.preorderAll, Tree.preorderAll, List.map_append, List.map_append,
      preorder_setIndices, preorderAll_setIndices index (c + 1) calls]

end

end Indices

/-! ### The frames and their paths -/

section Paths

variable {env} {frames : List CallFrame} {root : MonadCallFrame}

variable (env) in
/-- The indices of the logs do not change the shape of the tree. -/
theorem buildCallTree_spec (hne : frames ≠ []) : ∃ root, buildCallTree env frames = some root ∧
    root.preorder.map withoutIndices =
      frames.map (fun frame => withoutIndices (.fromCallFrame env frame)) ∧
    root.paths = (List.range frames.length).map (address (level (depthOf frames))) := by
  obtain ⟨t, hbuild, hpreorder, hpaths⟩ := Tree.build_spec Frame.depth
    (l := frames.map (Frame.fromCallFrame env)) (by simpa using hne)
  have hdepths : Tree.depthIn Frame.depth (frames.map (Frame.fromCallFrame env)) =
      depthOf frames := by
    funext i
    rw [Tree.depthIn, List.getElem?_map, Option.map_map, depthOf]
    rfl
  rw [hdepths, List.length_map] at hpaths
  refine ⟨_, by rw [buildCallTree, hbuild]; rfl, ?_, ?_⟩
  · rw [preorder_setIndices, hpreorder, List.map_map]
    rfl
  · rw [paths_setIndices, hpaths]

theorem getD_paths (hpaths : root.paths = (List.range frames.length).map
    (address (level (depthOf frames)))) {i : ℕ} (hi : i < frames.length) :
    root.paths.getD i [] = address (level (depthOf frames)) i := by
  rw [hpaths, List.getD_eq_getElem _ _ (by simpa using hi), List.getElem_map, List.getElem_range]

/-- **A frame is below the last one before it with a smaller depth.** -/
theorem parent_of_paths (hpaths : root.paths = (List.range frames.length).map
    (address (level (depthOf frames)))) {i : ℕ} (hpos : 0 < i) (hi : i < frames.length) :
    ∃ j c, LastAbove (depthOf frames) j i ∧
      root.paths.getD i [] = root.paths.getD j [] ++ [c] := by
  obtain ⟨j, habove⟩ := exists_lastAbove (depthOf frames) hpos
  refine ⟨j, childrenBefore (level (depthOf frames)) j i, habove, ?_⟩
  rw [getD_paths hpaths hi, getD_paths hpaths (habove.1.trans hi)]
  exact (listing_level _ frames.length).address_of_parent hi habove.parent_level

/-- The depths of frames, as the index of traces has them. -/
theorem depthAt_eq {depths : List UInt32}
    (h : depths.map UInt32.toNat = frames.map (·.depth.toNat)) :
    depthAt depths = depthOf frames := by
  funext i
  have hi := congrArg (fun l : List ℕ => l[i]?.getD 0) h
  simp only [List.getElem?_map] at hi
  rw [depthAt, depthOf, List.getD_eq_getElem?_getD, ← hi]
  cases depths[i]? <;> rfl

/-- Paths are as long as the depths of a single tree. -/
theorem address_level_eq (h : Listing (depthOf frames) frames.length)
    (hsingle : ∀ i, 0 < i → i < frames.length → 0 < depthOf frames i) {i : ℕ}
    (hi : i < frames.length) :
    address (level (depthOf frames)) i = address (depthOf frames) i := by
  induction i with
  | zero => rfl
  | succ i ih => rw [address, address, ih (by omega), h.level_eq hsingle hi]

/-- **Where no counter runs out, all numbers of children fit.** -/
theorem childrenBefore_lt_of_not_exhausted {d : ℕ → ℕ} {n i j : ℕ} (h : Listing d n)
    (hall : ∀ i < n, ¬Exhausted (address d i)) (hi : i < n) : childrenBefore d j i < 2 ^ 32 := by
  by_contra hge
  -- The counter runs out at an earlier child.
  obtain ⟨k, hk, hchild, hcount⟩ := exists_childrenBefore_eq (d := d) (j := j) (i := i)
    (m := 2 ^ 32 - 1) (by omega)
  refine hall k (hk.trans hi) ?_
  rw [h.address_of_parent (hk.trans hi) hchild, exhausted_append_singleton, hcount]
  rfl

/-- **Paths are the trace addresses** where there are few siblings. -/
theorem paths_eq_addresses {overflowChecks : Bool} (hpaths : root.paths =
    (List.range frames.length).map (address (level (depthOf frames))))
    (hfew : FewSiblings overflowChecks frames) {depths : List UInt32}
    {addresses : List (List UInt32)}
    (hdepths : depths.map UInt32.toNat = frames.map (·.depth.toNat))
    (hok : computeTraceAddresses overflowChecks depths = .ok addresses)
    (hsingle : ∀ i, 0 < i → i < frames.length → 0 < depthOf frames i) :
    root.paths = addresses.map (·.map UInt32.toNat) := by
  obtain ⟨hwell, hnot, rfl⟩ := computeTraceAddresses_eq_ok_iff.mp hok
  have hlen : depths.length = frames.length := by simpa using congrArg List.length hdepths
  have hd := depthAt_eq hdepths
  have hlisting : Listing (depthOf frames) frames.length := by
    rw [WellFormed, hd, hlen] at hwell
    exact hwell
  have hsmall : ∀ i, depthOf frames i < 2 ^ 32 := by
    intro i
    rw [← hd]
    exact (depths.getD i 0).toNat_lt
  have hlt : Query.FewSiblings false depths := by
    intro _ j i hi hpar
    rw [hd] at hpar ⊢
    rw [hlen] at hi
    cases overflowChecks with
    | false => exact hfew rfl ⟨hlisting, hsingle, hsmall⟩ j i hi hpar
    | true =>
      have hall := hnot rfl
      rw [hd, hlen] at hall
      exact childrenBefore_lt_of_not_exhausted hlisting hall hi
  rw [hpaths, List.map_map, hlen]
  refine List.map_congr_left fun i hi => ?_
  have hi := List.mem_range.mp hi
  rw [Function.comp_apply, toNat_stored (hlt.lt hwell (by omega)), hd,
    address_level_eq hlisting hsingle hi]

/-- The depths of a single tree, as the index of traces has them. -/
theorem SingleTree.map_toNat (h : SingleTree frames) :
    (frames.map fun frame => UInt32.ofNat frame.depth.toNat).map UInt32.toNat =
      frames.map (·.depth.toNat) := by
  rw [List.map_map]
  refine List.map_congr_left fun frame hframe => ?_
  obtain ⟨i, hi, rfl⟩ := List.mem_iff_getElem.mp hframe
  have hsmall := h.small i
  rw [depthOf, List.getElem?_eq_getElem hi, Option.map_some, Option.getD_some] at hsmall
  exact UInt32.toNat_ofNat_of_lt' hsmall

/-- **Where paths are the trace addresses, there are few siblings**: a component of an address has
32 bits. -/
theorem fewSiblings_of_paths_eq (hpaths : root.paths =
    (List.range frames.length).map (address (level (depthOf frames))))
    (haddress : ∀ depths addresses, depths.map UInt32.toNat = frames.map (·.depth.toNat) →
      computeTraceAddresses false depths = .ok addresses →
      (∀ i, 0 < i → i < frames.length → 0 < depthOf frames i) →
      root.paths = addresses.map (·.map UInt32.toNat))
    (h : SingleTree frames) {i j : ℕ} (hi : i < frames.length)
    (hpar : Parent (depthOf frames) j i) : childrenBefore (depthOf frames) j i < 2 ^ 32 := by
  have hdepths := h.map_toNat
  have hd := depthAt_eq hdepths
  have hwell : WellFormed (frames.map fun frame => UInt32.ofNat frame.depth.toNat) := by
    rw [WellFormed, hd, List.length_map]
    exact h.listing
  have heq := haddress _ _ hdepths (computeTraceAddresses_eq_ok_iff.mpr
    ⟨hwell, fun hchecks => absurd hchecks Bool.false_ne_true, rfl⟩) h.single
  have hgetD := congrArg (fun paths => paths.getD i []) heq
  rw [hd] at hgetD
  simp only [getD_paths hpaths hi, List.map_map, List.length_map] at hgetD
  rw [List.getD_eq_getElem _ _ (by simpa using hi), List.getElem_map, List.getElem_range,
    Function.comp_apply, address_level_eq h.listing h.single hi,
    h.listing.address_of_parent hi hpar] at hgetD
  have hmem : childrenBefore (depthOf frames) j i ∈
      (stored (address (depthOf frames) j ++ [childrenBefore (depthOf frames) j i])).map
        UInt32.toNat := by
    rw [← hgetD]
    exact List.mem_append_right _ (List.mem_singleton_self _)
  obtain ⟨c, -, hc⟩ := List.mem_map.mp hmem
  rw [← hc]
  exact c.toNat_lt

end Paths

/-! ### The top call -/

section TopCall

variable {env}

/-- What the tree and the order of its logs depend on. -/
def Frame.shape (frame : Frame) : ℕ × List MonadCallFrameLog := (frame.depth, frame.logs)

mutual

theorem extendLogsByEmitOrder_congr : ∀ {t u : MonadCallFrame},
    t.map Frame.shape = u.map Frame.shape → extendLogsByEmitOrder t = extendLogsByEmitOrder u
  | .node a ts, .node b us, h => by
    rw [Tree.map, Tree.map, Tree.node.injEq, Frame.shape, Frame.shape, Prod.mk.injEq] at h
    rw [extendLogsByEmitOrder, extendLogsByEmitOrder, h.1.2, extendCalls_congr 0 0 b.logs h.2]

theorem extendCalls_congr (c k : ℕ) (logs : List MonadCallFrameLog) :
    ∀ {ts us : List MonadCallFrame}, Tree.mapAll Frame.shape ts = Tree.mapAll Frame.shape us →
      extendCalls c k logs ts = extendCalls c k logs us
  | [], [], _ => rfl
  | t :: ts, u :: us, h => by
    rw [Tree.mapAll, Tree.mapAll, List.cons.injEq] at h
    rw [extendCalls, extendCalls, extendLogsByEmitOrder_congr h.1,
      extendCalls_congr (c + 1) _ _ h.2]

end

/-- The top call of a tree with its indices. -/
theorem clearCalls_setIndices (index : LogRef → ℕ) (t : MonadCallFrame) :
    clearCalls (setIndices index t) = .node { t.value with
      logs := t.value.logs.mapIdx fun k log => { log with index := index ⟨[], k⟩ } } [] := by
  obtain ⟨frame, calls⟩ := t
  rw [setIndices, clearCalls]
  rfl

/-- The root of a tree is the first frame. -/
theorem value_of_build {frame : Frame} {frames : List Frame} {t : MonadCallFrame}
    (h : Tree.build Frame.depth (frame :: frames) = some t) : t.value = frame := by
  obtain ⟨t', hbuild, hpreorder, -⟩ := Tree.build_spec Frame.depth (List.cons_ne_nil frame frames)
  obtain rfl : t' = t := Option.some.inj (hbuild.symm.trans h)
  obtain ⟨a, ts⟩ := t'
  rw [Tree.preorder, List.cons.injEq] at hpreorder
  exact hpreorder.1

/-- **The top call does not depend on the other frames**, as far as these have the same depths and
logs. -/
theorem clearCalls_buildCallTree_congr {root : CallFrame} {rest rest' : List CallFrame}
    (h : rest'.map (fun frame => (frame.depth, frame.logs)) =
      rest.map fun frame => (frame.depth, frame.logs)) :
    (buildCallTree env (root :: rest')).map clearCalls =
      (buildCallTree env (root :: rest)).map clearCalls := by
  have hshape : ∀ frames : List CallFrame,
      (frames.map (Frame.fromCallFrame env)).map Frame.shape =
        (frames.map fun frame => (frame.depth, frame.logs)).map fun p => (p.1.toNat,
          (p.2.getD []).mapIdx fun i log => MonadCallFrameLog.fromCallFrameLog log i) := by
    intro frames
    rw [List.map_map, List.map_map]
    rfl
  have hmap := congrArg (Tree.build Prod.fst) (((hshape (root :: rest')).trans
    (congrArg _ (congrArg (List.cons _) h))).trans (hshape (root :: rest)).symm)
  rw [Tree.build_map Frame.shape _ ((root :: rest').map _),
    Tree.build_map Frame.shape _ ((root :: rest).map _)] at hmap
  rw [buildCallTree, buildCallTree, Option.map_map, Option.map_map]
  obtain ⟨t, ht, -⟩ := Tree.build_spec Frame.depth
    (l := (root :: rest).map (Frame.fromCallFrame env)) (List.cons_ne_nil _ _)
  obtain ⟨t', ht', -⟩ := Tree.build_spec Frame.depth
    (l := (root :: rest').map (Frame.fromCallFrame env)) (List.cons_ne_nil _ _)
  have hdepth : (Prod.fst : ℕ × List MonadCallFrameLog → ℕ) ∘ Frame.shape = Frame.depth := rfl
  rw [hdepth, ht, ht', Option.map_some, Option.map_some, Option.some.injEq] at hmap
  rw [ht, ht', Option.map_some, Option.map_some, Function.comp_apply, Function.comp_apply,
    clearCalls_setIndices, clearCalls_setIndices, value_of_build ht, value_of_build ht',
    extendLogsByEmitOrder_congr hmap]

/-- The code of a contract is output only. -/
theorem includeCodeOutput_eq_ok {frame frame' : CallFrame}
    (h : includeCodeOutput env frame = .ok frame') :
    (frame'.depth, frame'.logs) = (frame.depth, frame.logs) := by
  unfold includeCodeOutput at h
  repeat' split at h
  all_goals
    cases h
    try rfl

theorem mapM_includeCodeOutput_eq_ok {frames frames' : List CallFrame}
    (h : frames.mapM (includeCodeOutput env) = .ok frames') :
    frames'.map (fun frame => (frame.depth, frame.logs)) =
      frames.map fun frame => (frame.depth, frame.logs) := by
  induction frames generalizing frames' with
  | nil =>
    rw [List.mapM_nil] at h
    cases h
    rfl
  | cons frame frames ih =>
    rw [List.mapM_cons] at h
    obtain ⟨a, ha, h⟩ := bind_eq_ok.mp h
    obtain ⟨as, has, h⟩ := bind_eq_ok.mp h
    cases h
    rw [List.map_cons, List.map_cons, includeCodeOutput_eq_ok ha, ih has]

/-- **If a trace is decoded, its top call is the root of the tree** without the calls. -/
theorem decodeCallFrame_onlyTopCall {trace : Bytes} {tracer : TracerObject}
    {result : Option MonadCallFrame}
    (h : decodeCallFrame env trace { tracer with onlyTopCall := false } = .ok result) :
    decodeCallFrame env trace { tracer with onlyTopCall := true } =
      .ok (result.map clearCalls) := by
  unfold decodeCallFrame at h ⊢
  cases htrace : decodeTrace env.log trace with
  | none =>
    rw [htrace] at h
    cases h
  | some groups =>
    rw [htrace] at h
    obtain ⟨callFrames, hcheck, h⟩ := bind_eq_ok.mp h
    refine bind_eq_ok.mpr ⟨callFrames, hcheck, ?_⟩
    cases htracer : tracer.tracer with
    | preStateTracer =>
      simp only [htracer] at h
      cases h
    | callTracer =>
      simp only [htracer] at h ⊢
      split at h
      · cases h
      · rename_i hdiff
        rw [if_neg hdiff, if_pos trivial]
        rw [if_neg Bool.false_ne_true] at h
        obtain ⟨frames, hframes, h⟩ := bind_eq_ok.mp h
        cases h
        cases callFrames with
        | nil =>
          rw [List.mapM_nil] at hframes
          cases hframes
          rfl
        | cons root rest =>
          rw [List.mapM_cons] at hframes
          obtain ⟨root', hroot, hframes⟩ := bind_eq_ok.mp hframes
          obtain ⟨rest', hrest, hframes⟩ := bind_eq_ok.mp hframes
          cases hframes
          refine bind_eq_ok.mpr ⟨root', hroot, ?_⟩
          exact congrArg Except.ok
            (clearCalls_buildCallTree_congr (mapM_includeCodeOutput_eq_ok hrest)).symm

end TopCall

/-! ### When the tree is as expected -/

/-- **A tree of calls is rebuilt** from any list of frames that is not empty, and its paths are the
trace addresses exactly if no counter of these can run out. -/
theorem rebuilds_iff (overflowChecks : Bool) (frame : CallFrame) (frames : List CallFrame) :
    ∃ root, buildCallTree env (frame :: frames) = some root ∧
      (Rebuilds env overflowChecks (frame :: frames) root ↔
        FewSiblings overflowChecks (frame :: frames)) := by
  obtain ⟨root, hbuild, hpreorder, hpaths⟩ :=
    buildCallTree_spec env (List.cons_ne_nil frame frames)
  refine ⟨root, hbuild, fun h hchecks htree j i hi hpar => ?_, fun hfew => ?_⟩
  · subst hchecks
    exact fewSiblings_of_paths_eq hpaths h.address htree hi hpar
  · exact ⟨hpreorder, fun i hpos hi => parent_of_paths hpaths hpos hi,
      fun depths addresses hdepths hok hsingle =>
        paths_eq_addresses hpaths hfew hdepths hok hsingle,
      fun trace tracer result h => decodeCallFrame_onlyTopCall h⟩

/-! ### A root with many calls -/

section ManyCalls

variable {env}

def sampleEnv : Env where
  log := Archive.Checker.logCodec
  rlpError := fun _ => ""
  decodeRevertMessage := fun _ => none
  getAccount := fun _ => .ok none
  getCode := fun _ => .ok []

def sampleCall (depth : UInt64) : CallFrame :=
  ⟨.call, 0, ⟨List.replicate 20 0, rfl⟩, none, 0, 0, 0, [], [], 0, depth, none⟩

/-- A root from which `n` calls are made. -/
def manyCalls (n : ℕ) : List CallFrame := sampleCall 0 :: List.replicate n (sampleCall 1)

theorem depthOf_manyCalls (n : ℕ) : depthOf (manyCalls n) = depthAt (Query.star n) := by
  refine (depthAt_eq ?_).symm
  rw [Query.star, manyCalls, List.map_cons, List.map_cons, List.map_replicate, List.map_replicate]
  rfl

theorem length_manyCalls (n : ℕ) : (manyCalls n).length = n + 1 := by
  rw [manyCalls, List.length_cons, List.length_replicate]

theorem singleTree_manyCalls (n : ℕ) : SingleTree (manyCalls n) where
  listing := by
    have h := wellFormed_star n
    have hlen : (Query.star n).length = n + 1 := by
      rw [Query.star, List.length_cons, List.length_replicate]
    rw [WellFormed, hlen] at h
    rw [depthOf_manyCalls, length_manyCalls]
    exact h
  single i hpos hi := by
    rw [length_manyCalls] at hi
    obtain ⟨i, rfl⟩ := Nat.exists_eq_succ_of_ne_zero hpos.ne'
    rw [depthOf_manyCalls, depthAt_star (by omega)]
    exact Nat.one_pos
  small i := by
    rw [depthOf_manyCalls]
    exact UInt32.toNat_lt _

/-- The tree of a root with many calls is as expected only if these can be counted. -/
theorem lt_of_rebuilds_manyCalls {n : ℕ} {root : MonadCallFrame}
    (hpaths : root.paths = (List.range (manyCalls (n + 1)).length).map
      (address (level (depthOf (manyCalls (n + 1))))))
    (h : Rebuilds env false (manyCalls (n + 1)) root) : n < 2 ^ 32 := by
  have hi : n + 1 < (manyCalls (n + 1)).length := by
    rw [length_manyCalls]
    exact Nat.lt_succ_self _
  have hpar := parent_star (Nat.lt_succ_self n)
  rw [← depthOf_manyCalls] at hpar
  have hlt := fewSiblings_of_paths_eq hpaths h.address (singleTree_manyCalls (n + 1)) hi hpar
  rw [depthOf_manyCalls] at hlt
  rwa [childrenBefore_star (Nat.le_succ n)] at hlt

/-- A root with one call more than a counter of 32 bits can tell apart: the index has the address of
the first call for the last. -/
theorem not_rebuilds_manyCalls : ∃ root,
    buildCallTree sampleEnv (manyCalls (2 ^ 32 + 1)) = some root ∧
      ¬Rebuilds sampleEnv false (manyCalls (2 ^ 32 + 1)) root := by
  obtain ⟨root, hbuild, -, hpaths⟩ :=
    buildCallTree_spec sampleEnv (List.cons_ne_nil _ _ : manyCalls (2 ^ 32 + 1) ≠ [])
  exact ⟨root, hbuild, fun h => Nat.lt_irrefl _ (lt_of_rebuilds_manyCalls hpaths h)⟩

end ManyCalls

end CallTree

end Rpc

end MonadServices
