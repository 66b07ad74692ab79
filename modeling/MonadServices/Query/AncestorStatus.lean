import MonadServices.Query.TraceAddress
import MonadServices.Query.Validate.Complete

/-!
# Failed ancestors

A trace is marked when a frame above it has failed. The walk that finds the marks
(`MonadServices.Query.fromTraces`) knows the depth of a frame only, and keeps for each transaction
a stack of flags: the entry at a depth says whether the frame that is open there, or one above
it, has failed.

The frames that are open before a frame and above it are its ancestors
(`MonadServices.DepthList.Listing.ancestor_iff_open`), hence **the marks are right**. As each
transaction has a stack of its own, it makes no difference whether the walk is made over one
transaction, as the writer does, or over the block, as the validator does
(`MonadServices.Query.fromTraces_marks`).
-/

namespace MonadServices

namespace Query

open DepthList

/-! ### The flag stack -/

section Flags

variable {d : ℕ → ℕ} {failed : ℕ → Prop} {n i : ℕ} {stack : List Bool}

/-- **The flag stack before a frame**: the entry at a depth says whether an open frame that is not
deeper has failed. -/
structure Flags (d : ℕ → ℕ) (failed : ℕ → Prop) (i : ℕ) (stack : List Bool) : Prop where
  length : stack.length = openDepth d i
  flag : ∀ e < stack.length, (stack[e]?).getD false = true ↔
    ∃ j, Open d j i ∧ d j ≤ e ∧ failed j

theorem flags_nil (d : ℕ → ℕ) (failed : ℕ → Prop) : Flags d failed 0 [] :=
  ⟨rfl, fun e he => absurd he (Nat.not_lt_zero e)⟩

/-- **The flag of the parent** is that of the ancestors. -/
theorem Flags.parentFailed_iff (hflags : Flags d failed i stack) (h : Listing d n) (hi : i < n) :
    parentFailed stack (d i) = true ↔ ∃ j, Ancestor d j i ∧ failed j := by
  have hdepth := h.le_openDepth hi
  simp only [h.ancestor_iff_open hi]
  unfold parentFailed
  cases hd : d i with
  | zero => simp [checkedSub]
  | succ m =>
    have hm : m < stack.length := by
      rw [hflags.length]
      omega
    rw [checkedSub, if_pos (by omega), Nat.add_sub_cancel]
    rw [hflags.flag m hm]
    refine exists_congr fun j => ?_
    rw [Nat.lt_succ_iff, and_assoc]

/-- **A frame is pushed.** -/
theorem Flags.push (hflags : Flags d failed i stack) (h : Listing d n) (hi : i < n) {b : Bool}
    (hb : b = true ↔ parentFailed stack (d i) = true ∨ failed i) :
    Flags d failed (i + 1) (pushFrame stack (d i) b) := by
  have hdepth := h.le_openDepth hi
  rw [← hflags.length] at hdepth
  have hpush : pushFrame stack (d i) b = stack.take (d i) ++ [b] := by
    rw [pushFrame, Nat.sub_eq_zero_of_le hdepth, List.replicate_zero, List.append_nil]
  have htake : (stack.take (d i)).length = d i := List.length_take_of_le hdepth
  rw [hpush]
  constructor
  · rw [List.length_append, htake]
    rfl
  · intro e he
    rw [List.length_append, htake, List.length_singleton] at he
    simp only [open_succ_iff]
    rcases (Nat.lt_succ_iff.mp he).lt_or_eq with he | rfl
    · -- Above the frame nothing changes.
      rw [List.getElem?_append_left (by omega), List.getElem?_take_of_lt he,
        hflags.flag e (by omega)]
      refine exists_congr fun j => ?_
      constructor
      · rintro ⟨hopen, hde, hfailed⟩
        exact ⟨Or.inr ⟨hopen, by omega⟩, hde, hfailed⟩
      · rintro ⟨rfl | ⟨hopen, -⟩, hde, hfailed⟩
        · omega
        · exact ⟨hopen, hde, hfailed⟩
    · -- At the frame its own status counts, and that of the frames above it.
      rw [List.getElem?_append_right htake.le, htake, Nat.sub_self]
      have hb' : ([b][0]?).getD false = b := rfl
      rw [hb', hb, hflags.parentFailed_iff h hi]
      simp only [h.ancestor_iff_open hi]
      constructor
      · rintro (⟨j, ⟨hopen, hlt⟩, hfailed⟩ | hfailed)
        · exact ⟨j, Or.inr ⟨hopen, hlt⟩, hlt.le, hfailed⟩
        · exact ⟨i, Or.inl rfl, le_rfl, hfailed⟩
      · rintro ⟨j, rfl | ⟨hopen, hlt⟩, -, hfailed⟩
        · exact Or.inr hfailed
        · exact Or.inl ⟨j, ⟨hopen, hlt⟩, hfailed⟩

/-- **The marks of a transaction**, from a frame on. -/
theorem Flags.fromTracesWith {traces : List StoredTraceQueryItem} {flags : UInt32 → List Bool}
    {txIndex : UInt32} (hflags : Flags d failed i (flags txIndex)) (h : Listing d n)
    (hn : n = i + traces.length) (htx : ∀ trace ∈ traces, trace.txIndex = txIndex)
    (hdepth : ∀ k trace, traces[k]? = some trace → trace.traceAddress.length = d (i + k))
    (hfailed : ∀ k trace, traces[k]? = some trace → (trace.status ≠ 0 ↔ failed (i + k)))
    {k : ℕ} {item : TraceWithAncestorStatus}
    (hk : (Query.fromTracesWith flags traces)[k]? = some item) :
    item.ancestorReverted = true ↔ ∃ j, Ancestor d j (i + k) ∧ failed j := by
  induction traces generalizing i flags k with
  | nil => simp [Query.fromTracesWith] at hk
  | cons trace traces ih =>
    rw [List.length_cons] at hn
    have hi : i < n := by omega
    have hd : trace.traceAddress.length = d i := hdepth 0 trace rfl
    have hstatus : trace.status ≠ 0 ↔ failed i := hfailed 0 trace rfl
    have htrace : trace.txIndex = txIndex := htx trace (by simp)
    rw [Query.fromTracesWith, hd, htrace] at hk
    cases k with
    | zero =>
      obtain rfl := Option.some.inj hk
      exact hflags.parentFailed_iff h hi
    | succ k =>
      rw [show i + (k + 1) = i + 1 + k by omega]
      refine ih ?_ (by omega) (fun t ht => htx t (List.mem_cons_of_mem trace ht)) ?_ ?_ hk
      · rw [Function.update_self]
        refine hflags.push h hi ?_
        rw [Bool.or_eq_true, bne_iff_ne, hstatus]
      · intro m t ht
        rw [show i + 1 + m = i + (m + 1) by omega]
        exact hdepth (m + 1) t ht
      · intro m t ht
        rw [show i + 1 + m = i + (m + 1) by omega]
        exact hfailed (m + 1) t ht

end Flags

/-! ### The marks of a block -/

/-- The depths of the frames of a transaction. -/
def depthsOf (traces : List StoredTraceQueryItem) : List UInt32 :=
  traces.map StoredTraceQueryItem.depth

/-- A frame of a transaction has failed. -/
def FailedAt (traces : List StoredTraceQueryItem) (j : ℕ) : Prop :=
  ∃ trace, traces[j]? = some trace ∧ trace.status ≠ 0

/-- **The traces of a block as the indexer stores them**: with the index of their transaction, and
the addresses that were worked out from their depths. -/
structure QueryWriterBlock.Traced (overflowChecks : Bool) (block : QueryWriterBlock) : Prop where
  wellFormed : block.WellFormed
  addresses : ∀ tx ∈ block.txs, computeTraceAddresses overflowChecks (depthsOf tx.traces) =
    .ok (tx.traces.map StoredTraceQueryItem.traceAddress)

/-- The marks of the frames of one transaction. -/
theorem ancestorReverted_iff {overflowChecks : Bool} {traces : List StoredTraceQueryItem}
    {txIndex : UInt32} (htx : ∀ trace ∈ traces, trace.txIndex = txIndex)
    (haddresses : computeTraceAddresses overflowChecks (depthsOf traces) =
      .ok (traces.map StoredTraceQueryItem.traceAddress)) {i : ℕ} {item : TraceWithAncestorStatus}
    (hi : (fromTraces traces)[i]? = some item) :
    item.ancestorReverted = true ↔
      ∃ j, Ancestor (depthAt (depthsOf traces)) j i ∧ FailedAt traces j := by
  have hlen : (depthsOf traces).length = traces.length := List.length_map _
  obtain ⟨hlisting, -, haddresses⟩ := computeTraceAddresses_eq_ok_iff.mp haddresses
  rw [WellFormed, hlen] at hlisting
  have hnil : Flags (depthAt (depthsOf traces)) (FailedAt traces) 0
      ((fun _ => [] : UInt32 → List Bool) txIndex) := flags_nil _ _
  have hmarks := hnil.fromTracesWith hlisting (Nat.zero_add _).symm htx ?_ ?_ hi
  · rwa [Nat.zero_add] at hmarks
  · intro k trace hk
    have hlt : k < traces.length := (List.getElem?_eq_some_iff.mp hk).1
    have haddress := congrArg (fun l => l[k]?) haddresses
    simp only [List.getElem?_map, hk, List.getElem?_range (hlen.symm ▸ hlt), Option.map_some,
      Option.some.injEq] at haddress
    rw [haddress, length_stored, hlisting.length_address hlt, Nat.zero_add]
  · intro k trace hk
    rw [Nat.zero_add]
    constructor
    · intro hstatus
      exact ⟨trace, hk, hstatus⟩
    · rintro ⟨trace', hk', hstatus⟩
      rw [hk] at hk'
      rwa [Option.some.inj hk']

/-- **The marks of a block are right**: every trace has one, in the order of the traces, and they
are the same over the block and over each transaction. -/
theorem fromTraces_marks {overflowChecks : Bool} {block : QueryWriterBlock}
    (h : block.Traced overflowChecks) :
    (∀ tx ∈ block.txs,
      (fromTraces tx.traces).map TraceWithAncestorStatus.trace = tx.traces ∧
      ∀ i item, (fromTraces tx.traces)[i]? = some item →
        (item.ancestorReverted = true ↔
          ∃ j, Ancestor (depthAt (depthsOf tx.traces)) j i ∧ FailedAt tx.traces j)) ∧
    fromTraces (block.txs.flatMap QueryWriterTx.traces) =
      block.txs.flatMap fun tx => fromTraces tx.traces := by
  refine ⟨fun tx htx => ⟨map_trace_fromTraces tx.traces, fun i item hi => ?_⟩, ?_⟩
  · obtain ⟨position, hposition⟩ := List.getElem?_of_mem htx
    have hindex : ∀ trace ∈ tx.traces, trace.txIndex = UInt32.ofNat position := by
      intro trace htrace
      rw [← h.wellFormed position tx hposition trace htrace, UInt32.ofNat_toNat]
    exact ancestorReverted_iff hindex (h.addresses tx htx) hi
  · refine fromTraces_flatMap (k := 0) (fun _ _ => rfl) fun i tx htx trace htrace => ?_
    rw [Nat.zero_add]
    exact h.wellFormed i tx htx trace htrace

/-- A frame of a sample block. -/
def StoredTraceQueryItem.sample (txIndex depth : UInt32) (traceAddress : List UInt32)
    (status : UInt8) : StoredTraceQueryItem where
  type := .call
  sentFrom := (QueryWriterBlock.sample 0 0).header.header.beneficiary
  sentTo := none
  value := 0
  gas := 0
  gasUsed := 0
  input := []
  output := []
  status := status
  depth := depth
  txIndex := txIndex
  traceAddress := traceAddress
  txStatus := true

/-- The frames of a sample block: a failed call between two that succeed, each with a call of its
own, and a second transaction. -/
def sampleTraces : List (List StoredTraceQueryItem) :=
  [[.sample 0 0 [] 0, .sample 0 1 [0] 0, .sample 0 2 [0, 0] 0, .sample 0 1 [1] 1,
    .sample 0 2 [1, 0] 0, .sample 0 1 [2] 0, .sample 0 2 [2, 0] 0],
   [.sample 1 0 [] 0, .sample 1 1 [0] 0]]

/-- A sample block with these frames. -/
def sampleTraced : QueryWriterBlock where
  header := (QueryWriterBlock.sample 0 0).header
  txs := sampleTraces.map fun traces =>
    ⟨⟨word 0, (QueryWriterBlock.sample 0 0).header.header.beneficiary, []⟩, [], traces⟩

theorem sampleTraced_traced : sampleTraced.Traced false := by
  constructor
  · intro i tx htx
    rcases i with _ | _ | i
    · obtain rfl := Option.some.inj htx
      decide
    · obtain rfl := Option.some.inj htx
      decide
    · cases htx
  · decide

theorem fromTraces_marks_sample :
    (∀ tx ∈ sampleTraced.txs,
      (fromTraces tx.traces).map TraceWithAncestorStatus.trace = tx.traces ∧
      ∀ i item, (fromTraces tx.traces)[i]? = some item →
        (item.ancestorReverted = true ↔
          ∃ j, Ancestor (depthAt (depthsOf tx.traces)) j i ∧ FailedAt tx.traces j)) ∧
    fromTraces (sampleTraced.txs.flatMap QueryWriterTx.traces) =
      sampleTraced.txs.flatMap fun tx => fromTraces tx.traces :=
  fromTraces_marks sampleTraced_traced

end Query

end MonadServices
