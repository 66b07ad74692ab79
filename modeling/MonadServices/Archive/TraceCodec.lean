import MonadServices.Archive.CallFrame
import MonadServices.Archive.Checker

/-!
# The coding of traces

A frame is written field by field, without a head, and the frames of a group follow each other in
one list. The kind of a frame is written as a number that a static call shares with a call, and
told again from that number and the flags; a missing callee is the empty string; missing logs are
not written at all.

A group is read back as long as only its last frame has no logs: what follows a frame without
logs would be taken for them. **A trace is then read back as it was written**
(`MonadServices.Archive.decodeTraces_encodeTrace`).
-/

namespace MonadServices

namespace Archive

/-! ### Encoding -/

/-- The coding of a vector from those of its elements. -/
def encodeVec (codings : List Bytes) : Bytes :=
  Rlp.head 0xc0 codings.flatten.length ++ codings.flatten

/-- The number of a kind. -/
def CallKind.toByte : CallKind → UInt8
  | .call => 0
  | .staticCall => 0
  | .delegateCall => 1
  | .callCode => 2
  | .create => 3
  | .create2 => 4
  | .selfDestruct => 5

section Encode

variable (log : RlpCodec Log)

def CallFrameLog.encode (entry : CallFrameLog) : Bytes :=
  encodeVec [log.encode entry.log, RlpCodec.uint64.encode entry.position]

/-- **Encodes a frame.** -/
def CallFrame.encode (frame : CallFrame) : Bytes :=
  RlpCodec.uint8.encode frame.typ.toByte ++ RlpCodec.uint64.encode frame.flags ++
    (RlpCodec.fixed 20).encode frame.caller ++
    (match frame.callee with
      | some callee => (RlpCodec.fixed 20).encode callee
      | none => [0x80]) ++
    RlpCodec.uint256.encode frame.value ++ RlpCodec.uint64.encode frame.gas ++
    RlpCodec.uint64.encode frame.gasUsed ++ RlpCodec.bytes.encode frame.input ++
    RlpCodec.bytes.encode frame.output ++ RlpCodec.uint8.encode frame.status ++
    RlpCodec.uint64.encode frame.depth ++
    (match frame.logs with
      | some logs => encodeVec (logs.map (CallFrameLog.encode log))
      | none => [])

/-- **Encodes a trace**, a vector of groups of frames. -/
def encodeTrace (groups : List (List CallFrame)) : Bytes :=
  encodeVec (groups.map fun frames => encodeVec (frames.map (CallFrame.encode log)))

end Encode

/-! ### The items that are written -/

section Items

theorem encodeAll_eq_flatten (items : List Rlp) :
    Rlp.encodeAll items = (items.map Rlp.encode).flatten := by
  induction items with
  | nil => rfl
  | cons item items ih => rw [Rlp.encodeAll_cons, ih, List.map_cons, List.flatten_cons]

theorem encodeAll_append (items items' : List Rlp) :
    Rlp.encodeAll (items ++ items') = Rlp.encodeAll items ++ Rlp.encodeAll items' := by
  rw [encodeAll_eq_flatten, encodeAll_eq_flatten, encodeAll_eq_flatten, List.map_append,
    List.flatten_append]

/-- A vector whose elements are coded by items is coded by the list of these. -/
theorem encodeVec_eq {α : Type} {coding : α → Bytes} {items : α → List Rlp}
    (h : ∀ a, coding a = Rlp.encodeAll (items a)) (as : List α) :
    encodeVec (as.map coding) = Rlp.encode (.list (as.flatMap items)) := by
  have hflatten : (as.map coding).flatten = Rlp.encodeAll (as.flatMap items) := by
    induction as with
    | nil => rfl
    | cons a as ih =>
      rw [List.map_cons, List.flatten_cons, List.flatMap_cons, encodeAll_append, h a, ih]
  rw [encodeVec, Rlp.encode_list, hflatten]

variable (log : RlpCodec Log)

/-- The item of a log entry. -/
def CallFrameLog.toRlp (entry : CallFrameLog) : Rlp :=
  .list [log.toRlp entry.log, RlpCodec.uint64.toRlp entry.position]

/-- The item of a callee. -/
def calleeToRlp : Option Address → Rlp
  | some callee => (RlpCodec.fixed 20).toRlp callee
  | none => .str []

/-- The items of the logs. -/
def logsToRlp (logs : Option (List CallFrameLog)) : List Rlp :=
  (logs.map fun logs => Rlp.list (logs.map (CallFrameLog.toRlp log))).toList

/-- The items of a frame. -/
def CallFrame.toItems (frame : CallFrame) : List Rlp :=
  RlpCodec.uint8.toRlp frame.typ.toByte :: RlpCodec.uint64.toRlp frame.flags ::
    (RlpCodec.fixed 20).toRlp frame.caller :: calleeToRlp frame.callee ::
    RlpCodec.uint256.toRlp frame.value :: RlpCodec.uint64.toRlp frame.gas ::
    RlpCodec.uint64.toRlp frame.gasUsed :: RlpCodec.bytes.toRlp frame.input ::
    RlpCodec.bytes.toRlp frame.output :: RlpCodec.uint8.toRlp frame.status ::
    RlpCodec.uint64.toRlp frame.depth :: logsToRlp log frame.logs

variable {log}

theorem CallFrameLog.encode_eq (entry : CallFrameLog) :
    entry.encode log = Rlp.encodeAll [entry.toRlp log] := by
  rw [encode, toRlp, encodeVec, Rlp.encodeAll_cons, Rlp.encodeAll_nil, List.append_nil,
    Rlp.encode_list, encodeAll_eq_flatten]
  rfl

theorem encodeVec_logs (logs : List CallFrameLog) :
    encodeVec (logs.map (CallFrameLog.encode log)) =
      Rlp.encode (.list (logs.map (CallFrameLog.toRlp log))) := by
  rw [encodeVec_eq CallFrameLog.encode_eq, ← List.map_eq_flatMap]

/-- **A frame is coded by its items**, one after the other. -/
theorem CallFrame.encode_eq (frame : CallFrame) :
    frame.encode log = Rlp.encodeAll (frame.toItems log) := by
  have hcallee : (match frame.callee with
      | some callee => (RlpCodec.fixed 20).encode callee
      | none => [0x80]) = Rlp.encode (calleeToRlp frame.callee) := by
    cases frame.callee with
    | none => rfl
    | some callee => rfl
  have hlogs : (match frame.logs with
      | some logs => encodeVec (logs.map (CallFrameLog.encode log))
      | none => []) = Rlp.encodeAll (logsToRlp log frame.logs) := by
    cases frame.logs with
    | none => rfl
    | some logs =>
      show encodeVec _ = Rlp.encodeAll [Rlp.list _]
      rw [encodeVec_logs, Rlp.encodeAll_cons, Rlp.encodeAll_nil, List.append_nil]
  rw [encode, hcallee, hlogs, toItems]
  simp only [Rlp.encodeAll_cons, RlpCodec.encode, List.append_assoc]

/-- **The coding of a trace** is that of the lists of the items of its groups. -/
theorem encodeTrace_eq (groups : List (List CallFrame)) :
    encodeTrace log groups = Rlp.encode
      (.list (groups.map fun frames => .list (frames.flatMap (CallFrame.toItems log)))) := by
  have hgroup : ∀ frames : List CallFrame, encodeVec (frames.map (CallFrame.encode log)) =
      Rlp.encodeAll [.list (frames.flatMap (CallFrame.toItems log))] := by
    intro frames
    rw [encodeVec_eq CallFrame.encode_eq, Rlp.encodeAll_cons, Rlp.encodeAll_nil, List.append_nil]
  rw [encodeTrace, encodeVec_eq hgroup, ← List.map_eq_flatMap]

end Items

/-! ### The round trip -/

section RoundTrip

variable {log : RlpCodec Log}

/-- **The kind and the flags of a frame agree**: of calls and static calls, those with the flag
are static. -/
def CallFrame.Consistent (frame : CallFrame) : Prop :=
  (frame.typ = .call → frame.flags ≠ 1) ∧ (frame.typ = .staticCall → frame.flags = 1)

instance (frame : CallFrame) : Decidable frame.Consistent :=
  inferInstanceAs (Decidable ((frame.typ = .call → frame.flags ≠ 1) ∧
    (frame.typ = .staticCall → frame.flags = 1)))

/-- **The kind is told** from its number and the flags. -/
theorem CallFrame.Consistent.ofByte_toByte {frame : CallFrame} (h : frame.Consistent) :
    CallKind.ofByte frame.flags frame.typ.toByte = some frame.typ := by
  obtain ⟨hcall, hstatic⟩ := h
  cases htyp : frame.typ with
  | call =>
    show some (if frame.flags = 1 then CallKind.staticCall else .call) = _
    rw [if_neg (hcall htyp)]
  | staticCall =>
    show some (if frame.flags = 1 then CallKind.staticCall else .call) = _
    rw [if_pos (hstatic htyp)]
  | delegateCall => rfl
  | callCode => rfl
  | create => rfl
  | create2 => rfl
  | selfDestruct => rfl

theorem calleeOfRlp_calleeToRlp (callee : Option Address) :
    calleeOfRlp (calleeToRlp callee) = some callee := by
  cases callee with
  | none => rfl
  | some callee =>
    obtain ⟨b, hb⟩ := callee
    cases b with
    | nil => simp at hb
    | cons x xs =>
      show ((RlpCodec.fixed 20).ofRlp ((RlpCodec.fixed 20).toRlp ⟨x :: xs, hb⟩)).map some = _
      rw [RlpCodec.ofRlp_toRlp]
      rfl

theorem CallFrameLog.ofRlp_toRlp (entry : CallFrameLog) :
    CallFrameLog.ofRlp log (entry.toRlp log) = some entry := by
  simp [ofRlp, toRlp, RlpCodec.ofRlp_toRlp]

/-- **The logs are read back**, if they are there or nothing follows. -/
theorem logsOfRlp_logsToRlp {logs : Option (List CallFrameLog)} {rest : List Rlp}
    (h : logs.isSome ∨ rest = []) :
    logsOfRlp log (logsToRlp log logs ++ rest) = some (logs, rest) := by
  cases logs with
  | none =>
    obtain rfl : rest = [] := h.resolve_left (by simp)
    rfl
  | some logs =>
    have hmap : (logs.map (CallFrameLog.toRlp log)).mapM (CallFrameLog.ofRlp log) = some logs := by
      rw [mapM_eq_some, List.forall₂_map_left_iff, List.forall₂_same]
      exact fun entry _ => CallFrameLog.ofRlp_toRlp entry
    show (do return (some (← (logs.map (CallFrameLog.toRlp log)).mapM (CallFrameLog.ofRlp log)),
      rest)) = _
    rw [hmap]
    rfl

/-- **A frame is read back** from the front of a group. -/
theorem CallFrame.ofItems_toItems {frame : CallFrame} {rest : List Rlp} (h : frame.Consistent)
    (hrest : frame.logs.isSome ∨ rest = []) :
    CallFrame.ofItems log (frame.toItems log ++ rest) = some (frame, rest) := by
  rw [toItems]
  simp only [List.cons_append, ofItems, RlpCodec.ofRlp_toRlp, calleeOfRlp_calleeToRlp,
    logsOfRlp_logsToRlp hrest, h.ofByte_toByte, Option.bind_eq_bind, Option.bind_some,
    Option.pure_def]

/-- A group goes on after its first frame. -/
theorem framesOfItems_of_ofItems {items rest : List Rlp} {frame : CallFrame} {fuel : ℕ}
    (h : CallFrame.ofItems log items = some (frame, rest)) :
    framesOfItems log (fuel + 1) items =
      (framesOfItems log fuel rest).map fun frames => frame :: frames := by
  cases items with
  | nil => cases h
  | cons item items =>
    rw [framesOfItems, h]
    · show (framesOfItems log fuel rest >>= fun frames => some (frame :: frames)) = _
      rw [Option.bind_eq_bind, Option.map_eq_bind]
      rfl
    · intro hcon
      cases hcon

/-- **A group is read back.** -/
theorem framesOfItems_toItems {frames : List CallFrame} {fuel : ℕ} (hfuel : frames.length ≤ fuel)
    (hconsistent : ∀ frame ∈ frames, frame.Consistent)
    (hlogs : ∀ frame ∈ frames.dropLast, frame.logs.isSome) :
    framesOfItems log fuel (frames.flatMap (CallFrame.toItems log)) = some frames := by
  induction frames generalizing fuel with
  | nil => rw [List.flatMap_nil, framesOfItems]
  | cons frame frames ih =>
    obtain ⟨fuel, rfl⟩ := Nat.exists_eq_add_of_le' (Nat.one_le_of_lt hfuel)
    have hframe := hconsistent frame (by simp)
    -- Only the last frame may be without logs, and nothing follows it.
    have hrest : frame.logs.isSome ∨ frames.flatMap (CallFrame.toItems log) = [] := by
      cases frames with
      | nil => exact Or.inr rfl
      | cons frame' frames => exact Or.inl (hlogs frame (by simp))
    have htail : ∀ frame' ∈ frames.dropLast, frame'.logs.isSome := by
      intro frame' hframe'
      cases frames with
      | nil => simp at hframe'
      | cons _ _ => exact hlogs frame' (List.mem_cons_of_mem frame hframe')
    rw [List.flatMap_cons, framesOfItems_of_ofItems (CallFrame.ofItems_toItems hframe hrest),
      ih (by simpa using hfuel) (fun frame' h => hconsistent frame' (List.mem_cons_of_mem _ h))
        htail]
    rfl

theorem length_le_length_flatMap_toItems (frames : List CallFrame) :
    frames.length ≤ (frames.flatMap (CallFrame.toItems log)).length := by
  induction frames with
  | nil => exact Nat.zero_le _
  | cons frame frames ih =>
    rw [List.flatMap_cons, List.length_append, List.length_cons, CallFrame.toItems,
      List.length_cons]
    omega

/-- **A trace is read back.** -/
theorem decodeTrace_encodeTrace {groups : List (List CallFrame)}
    (hconsistent : ∀ frames ∈ groups, ∀ frame ∈ frames, frame.Consistent)
    (hlogs : ∀ frames ∈ groups, ∀ frame ∈ frames.dropLast, frame.logs.isSome)
    (hlen : (encodeTrace log groups).length < 2 ^ 64) :
    decodeTrace log (encodeTrace log groups) = some groups := by
  have hdecode := Rlp.decode_encode (.list (groups.map fun frames =>
    .list (frames.flatMap (CallFrame.toItems log)))) [] (by rwa [← encodeTrace_eq])
  rw [List.append_nil, ← encodeTrace_eq] at hdecode
  rw [decodeTrace, hdecode]
  show (groups.map fun frames => Rlp.list (frames.flatMap (CallFrame.toItems log))).mapM
    (groupOfRlp log) = some groups
  rw [mapM_eq_some, List.forall₂_map_left_iff, List.forall₂_same]
  intro frames hframes
  exact framesOfItems_toItems (length_le_length_flatMap_toItems frames)
    (hconsistent frames hframes) (hlogs frames hframes)

end RoundTrip

/-- **The traces of a block are read back** as they were written: the same frames in the same
groups, with every field. -/
theorem decodeTraces_encodeTrace (log : RlpCodec Log) (traces : List (List (List CallFrame)))
    (hconsistent : ∀ groups ∈ traces, ∀ frames ∈ groups, ∀ frame ∈ frames, frame.Consistent)
    (hlogs : ∀ groups ∈ traces, ∀ frames ∈ groups, ∀ frame ∈ frames.dropLast, frame.logs.isSome)
    (hlen : ∀ groups ∈ traces, (encodeTrace log groups).length < 2 ^ 64) :
    decodeTraces log (traces.map (encodeTrace log)) = some traces := by
  rw [decodeTraces, mapM_eq_some, List.forall₂_map_left_iff, List.forall₂_same]
  intro groups hgroups
  exact decodeTrace_encodeTrace (hconsistent groups hgroups) (hlogs groups hgroups)
    (hlen groups hgroups)

/-- An address of equal bytes. -/
def account (b : UInt8) : Address := ⟨List.replicate 20 b, List.length_replicate⟩

/-- Two groups of frames: a static call with a log and the creation of a contract without any
logs, and a call. -/
def sampleTrace : List (List CallFrame) :=
  [[⟨.staticCall, 1, account 1, some (account 2), 7, 21000, 400, [0xab, 0xcd], [], 0, 0,
      some [⟨⟨account 2, [word 5], [0x80]⟩, 3⟩]⟩,
    ⟨.create, 0, account 2, none, 0, 300, 300, [], [1, 2], 2, 1, none⟩],
   [⟨.call, 0, account 1, none,
      0x8000000000000000000000000000000000000000000000000000000000000000, 0, 0, [], [], 0, 0,
      some []⟩]]

theorem decodeTraces_encodeTrace_sample :
    decodeTraces Checker.logCodec [encodeTrace Checker.logCodec sampleTrace] = some [sampleTrace] :=
  decodeTraces_encodeTrace Checker.logCodec [sampleTrace] (by decide) (by decide)
    (by decide +kernel)

end Archive

end MonadServices
