import MonadServices.Query.Writer.View

/-!
# Batches of a chain

What a flush is about to write, on the abstract side. The writer has committed `m`
blocks and holds the next ones, up to `n`; `MonadServices.Query.QueryWriter.assign`
gives their records the ids of the chain (`MonadServices.Query.Chain.assign_segment`), so
the batch of the flush is determined by `m` and `n`.

While the flush runs, the tables are on the way from one view to another. The rules
for that – every value written is the one of the view at `n`, and so every value
read is that of some view from the stored frontier on – are stated here once, for
all stages: `MonadServices.Query.Chain.Stored` is what a failure leaves, and
`MonadServices.Query.Chain.Underway` adds the keys that are already written.
-/

namespace MonadServices

namespace Query

/-! ### The ids of a block -/

theorem length_fromTraces (traces : List StoredTraceQueryItem) :
    (fromTraces traces).length = traces.length := by
  conv_rhs => rw [← map_trace_fromTraces traces, List.length_map]

theorem QueryWriterBlock.length_transactions (block : QueryWriterBlock) :
    (block.records .transaction).length = block.txs.length := by
  simp [records]

theorem QueryWriterBlock.length_logs (block : QueryWriterBlock) :
    (block.records .log).length = (block.txs.map fun tx => tx.logs.length).sum := by
  simp [records, logs, List.length_flatMap]

theorem QueryWriterBlock.length_traces (block : QueryWriterBlock) :
    (block.records .trace).length = (block.txs.map fun tx => tx.traces.length).sum := by
  simp [records, List.length_flatMap, length_fromTraces]

namespace Chain

variable {chain : Chain} {ext : Externals} {m n : ℕ}

/-- The block at an index with the ids of the chain. -/
def assigned (chain : Chain) (i : ℕ) (block : QueryWriterBlock) : AssignedBlock where
  block := block
  logs := ⟨chain.frontier .log i, (block.records .log).length⟩
  txs := ⟨chain.frontier .transaction i, (block.records .transaction).length⟩
  traces := ⟨chain.frontier .trace i, (block.records .trace).length⟩

/-- The blocks from `m` to `n` with their ids. -/
def assignedSegment (chain : Chain) (m n : ℕ) : List AssignedBlock :=
  ((chain.segment m n).zipIdx m).map fun p => chain.assigned p.2 p.1

/-- The batch that commits the blocks from `m` to `n`. -/
def batch (chain : Chain) (m n : ℕ) : QueryWriterFlushBatch :=
  ⟨chain.assignedSegment m n, chain.stateAt n⟩

theorem assignedSegment_cons (h : m < n) {block : QueryWriterBlock}
    (hb : chain.blocks[m]? = some block) :
    chain.assignedSegment m n = chain.assigned m block :: chain.assignedSegment (m + 1) n := by
  simp [assignedSegment, segment_cons h hb]

theorem assignedSegment_of_le (h : n ≤ m) : chain.assignedSegment m n = [] := by
  simp [assignedSegment, segment_of_le h]

theorem mem_assignedSegment {a : AssignedBlock} :
    a ∈ chain.assignedSegment m n ↔
      ∃ i block, m ≤ i ∧ i < n ∧ chain.blocks[i]? = some block ∧ a = chain.assigned i block := by
  unfold assignedSegment
  simp only [List.mem_map, Prod.exists, List.mem_zipIdx_iff_le_and_getElem?_sub]
  constructor
  · rintro ⟨block, i, ⟨hi, hget⟩, rfl⟩
    unfold segment at hget
    rw [List.getElem?_drop, List.getElem?_take, ite_eq_iff] at hget
    rcases hget with ⟨hlt, hget⟩ | ⟨-, hcon⟩
    · refine ⟨i, block, hi, by omega, ?_, rfl⟩
      rwa [Nat.add_sub_cancel' hi] at hget
    · cases hcon
  · rintro ⟨i, block, hi, hlt, hget, rfl⟩
    refine ⟨block, i, ⟨hi, ?_⟩, rfl⟩
    unfold segment
    rw [List.getElem?_drop, List.getElem?_take, Nat.add_sub_cancel' hi, if_pos hlt, hget]

/-- The ids of a family in a block of the batch. -/
theorem familyRange_assigned {i : ℕ} {block : QueryWriterBlock} (hb : chain.blocks[i]? = some block)
    (family : Family) : familyRange (chain.assigned i block) family =
      ⟨chain.frontier family i, (block.records family).length⟩ := by
  cases family with
  | blockHeader =>
    have hi := (List.getElem?_eq_some_iff.mp hb).1
    simp [familyRange, assigned, chain.number_eq i block hb, frontier_blockHeader hi.le,
      QueryWriterBlock.records]
  | transaction => rfl
  | log => rfl
  | trace => rfl

/-- **Assigning ids gives those of the chain.** -/
theorem assign_segment (hmn : m ≤ n) (hn : n ≤ chain.blocks.length)
    {r : List AssignedBlock × ℕ × ℕ × ℕ}
    (h : QueryWriter.assign (chain.frontier .transaction m) (chain.frontier .log m)
      (chain.frontier .trace m) (chain.segment m n) = .ok r) :
    r = (chain.assignedSegment m n, chain.frontier .transaction n, chain.frontier .log n,
        chain.frontier .trace n) ∧
      (m < n → ∀ family, family ≠ .blockHeader → chain.frontier family n < 2 ^ 64) ∧
      ∀ i block, m ≤ i → i < n → chain.blocks[i]? = some block →
        ∀ family, family ≠ .blockHeader → (block.records family).length < 2 ^ 32 := by
  -- Backwards from `n`: the first block of the segment is the one `assign` takes.
  induction hk : n - m generalizing m r with
  | zero =>
    obtain rfl : m = n := by omega
    rw [segment_of_le le_rfl] at h
    simp only [QueryWriter.assign, Except.ok.injEq] at h
    refine ⟨by rw [← h, assignedSegment_of_le le_rfl], by omega, ?_⟩
    intro i block h1 h2
    omega
  | succ k ih =>
    have hlt : m < n := by omega
    obtain ⟨block, hb⟩ : ∃ block, chain.blocks[m]? = some block :=
      ⟨_, List.getElem?_eq_getElem (by omega)⟩
    rw [segment_cons hlt hb] at h
    obtain ⟨nTx, nLog, nTrace, rest, rfl, rfl, rfl, hcount, hnext, hrest, rfl⟩ :=
      QueryWriter.assign_cons_ok h
    rw [← block.length_transactions, ← block.length_logs, ← block.length_traces] at *
    rw [← frontier_succ hb, ← frontier_succ hb, ← frontier_succ hb] at *
    obtain ⟨rfl, hids, hcounts⟩ := ih (by omega) hrest (by omega)
    refine ⟨by rw [assignedSegment_cons hlt hb]; rfl, fun _ family hfam => ?_, ?_⟩
    · rcases Nat.lt_or_ge (m + 1) n with hlt' | hge
      · exact hids hlt' family hfam
      · obtain rfl : n = m + 1 := by omega
        cases family with
        | blockHeader => exact absurd rfl hfam
        | transaction => exact hnext.1
        | log => exact hnext.2.1
        | trace => exact hnext.2.2
    · intro i block' hmi hin hget family hfam
      rcases Nat.lt_or_ge m i with hlt' | hge
      · exact hcounts i block' (by omega) hin hget family hfam
      · obtain rfl : i = m := by omega
        obtain rfl : block = block' := Option.some.inj (hb.symm.trans hget)
        cases family with
        | blockHeader => exact absurd rfl hfam
        | transaction => exact hcount.1
        | log => exact hcount.2.1
        | trace => exact hcount.2.2

/-! ### The state of the writer -/

/-- A state that stands for `m` committed blocks. A writer that starts at block zero
has no start block before its first flush. -/
def Represents (chain : Chain) (m : ℕ) (state : StateIndex) : Prop :=
  state = chain.stateAt m ∨ (m = 0 ∧ chain.start = 0 ∧ state = StateIndex.default)

theorem Represents.next {state : StateIndex} (h : chain.Represents m state) :
    state.nextBlockId = chain.start + m ∧ state.nextTxId = chain.frontier .transaction m ∧
      state.nextLogId = chain.frontier .log m ∧ state.nextTraceId = chain.frontier .trace m := by
  rcases h with rfl | ⟨rfl, hstart, rfl⟩
  · exact ⟨rfl, rfl, rfl, rfl⟩
  · simp [StateIndex.default, hstart, base]

theorem checkedSub_one (a : ℕ) : checkedSub a 1 = if 0 < a then some (a - 1) else none := rfl

/-- **The last committed id** is the one before the frontier. -/
theorem Represents.committedId {state : StateIndex} (h : chain.Represents m state)
    (hm : m ≤ chain.blocks.length) (family : Family) : committedId state family =
      if chain.base family < chain.frontier family m then some (chain.frontier family m - 1)
      else none := by
  obtain ⟨hblock, htx, hlog, htrace⟩ := h.next
  cases family with
  | blockHeader =>
    rw [frontier_blockHeader hm, base_blockHeader]
    simp only [Query.committedId, lastBlockId, hblock, checkedSub_one]
    rcases Nat.eq_zero_or_pos m with rfl | hpos
    · rcases h with rfl | ⟨-, hstart, rfl⟩
      · rcases Nat.eq_zero_or_pos chain.start with h0 | h0
        · simp [h0]
        · simp [h0, stateAt]
      · simp [hstart]
    · obtain rfl : state = chain.stateAt m := by
        rcases h with h | ⟨h, -⟩
        · exact h
        · omega
      rw [if_pos (by omega), if_pos (by omega)]
      simp [stateAt]
      omega
  | transaction =>
    rw [chain.base_eq_zero (nofun : Family.transaction ≠ .blockHeader), Query.committedId, htx,
      checkedSub_one]
  | log =>
    rw [chain.base_eq_zero (nofun : Family.log ≠ .blockHeader), Query.committedId, hlog,
      checkedSub_one]
  | trace =>
    rw [chain.base_eq_zero (nofun : Family.trace ≠ .blockHeader), Query.committedId, htrace,
      checkedSub_one]

theorem getLast?_segment (h : m < n) (hn : n ≤ chain.blocks.length) :
    (chain.segment m n).getLast? = chain.blocks[n - 1]? := by
  unfold segment
  rw [List.getLast?_eq_getElem?, List.length_drop, List.length_take, min_eq_left hn,
    List.getElem?_drop, List.getElem?_take, if_pos (by omega)]
  congr 1
  omega

/-- **A batch of the writer is a batch of the chain.** -/
theorem prepareFlush_eq {w : QueryWriter} (hst : chain.Represents m w.state)
    (hp : w.pending = chain.segment m n) (hmn : m ≤ n) (hn : n ≤ chain.blocks.length)
    {b : QueryWriterFlushBatch} (h : w.prepareFlush = .ok (some b)) :
    m < n ∧ b = chain.batch m n ∧ (∀ family, chain.frontier family n < 2 ^ 64) ∧
      ∀ i block, m ≤ i → i < n → chain.blocks[i]? = some block →
        ∀ family, (block.records family).length < 2 ^ 32 := by
  have hlt : m < n := by
    by_contra hcon
    rw [segment_of_le (by omega)] at hp
    simp [QueryWriter.prepareFlush, hp] at h
  obtain ⟨first, hfirst⟩ : ∃ first, chain.blocks[m]? = some first :=
    ⟨_, List.getElem?_eq_getElem (by omega)⟩
  obtain ⟨last, hlast⟩ : ∃ last, chain.blocks[n - 1]? = some last :=
    ⟨_, List.getElem?_eq_getElem (by omega)⟩
  obtain ⟨hblock, htx, hlog, htrace⟩ := hst.next
  unfold QueryWriter.prepareFlush at h
  rw [hp, getLast?_segment hlt hn, hlast, htx, hlog, htrace] at h
  obtain ⟨r, hr, h⟩ := bind_eq_ok.mp h
  obtain ⟨rfl, hids, hcounts⟩ := assign_segment hmn hn hr
  rw [chain.number_eq _ last hlast] at h
  rcases hnext : checkedAdd (chain.start + (n - 1)) 1 with _ | next
  · simp [hnext] at h
  · obtain ⟨hnext', hlt64⟩ := checkedAdd_eq_some.mp hnext
    obtain rfl : next = chain.start + n := by omega
    rw [segment_cons hlt hfirst] at h
    simp only [hnext, List.head?_cons, Option.map_some, chain.number_eq m first hfirst,
      Except.ok.injEq, Option.some.injEq] at h
    have hstart : w.state.indexedStart.or (some (chain.start + m)) = some chain.start := by
      rcases hst with hst | ⟨rfl, hst0, hst⟩
      · simp [hst, stateAt]
      · simp [hst, StateIndex.default]
    rw [hstart] at h
    refine ⟨hlt, h.symm, fun family => ?_, fun i block hi hin hget family => ?_⟩
    · by_cases hfam : family = .blockHeader
      · rw [hfam, frontier_blockHeader hn]
        exact hlt64
      · exact hids hlt family hfam
    · by_cases hfam : family = .blockHeader
      · simp [hfam, QueryWriterBlock.records]
      · exact hcounts i block hi hin hget family hfam

/-! ### Tables on the way -/

section Underway

variable {lo hi : ℕ} {D : TableKey → Prop}

/-- What a flush may rely on: the writer has committed `m` blocks, the tables `lo`,
the flush is to commit `n`, and no flush has seen more than `hi`. A stored frontier
ahead of the writer's is left by a flush that failed after its last write. -/
structure Flushing (chain : Chain) (state : StateIndex) (m lo n hi : ℕ) : Prop where
  represents : chain.Represents m state
  le_stored : m ≤ lo
  stored_le : lo ≤ n
  le_high : n ≤ hi
  high_le : hi ≤ chain.blocks.length
  ids_lt : ∀ family, chain.frontier family hi < 2 ^ 64

/-- The tables between the frontiers `lo` and `hi`, with `lo` in the state row. -/
structure Stored (chain : Chain) (ext : Externals) (lo hi : ℕ) (t : Tables) : Prop where
  between : Between (chain.view ext) t lo hi
  state : t .stateIndex = chain.view ext lo .stateIndex

/-- The same tables while the values of the view at `n` are written, with those
under the keys of `D` in place. -/
structure Underway (chain : Chain) (ext : Externals) (lo hi n : ℕ) (D : TableKey → Prop)
    (t : Tables) : Prop extends Stored chain ext lo hi t where
  written : ∀ k, D k → t k = chain.view ext n k

/-- **The rule of reading**: what is read is the value of a view in the range. -/
theorem get_meets (k : TableKey) : Faulty.Meets (chain.Underway ext lo hi n D) (get k)
    (fun v t => (∃ j, lo ≤ j ∧ j ≤ hi ∧ rowValue (chain.view ext j k) = .ok v) ∧
      chain.Underway ext lo hi n D t) (chain.Stored ext lo hi) := by
  refine Faulty.read_meets (fun v t hv ht => ⟨?_, ht⟩) fun t ht => ht.toStored
  obtain ⟨j, h1, h2, hj⟩ := ht.between k
  refine ⟨j, h1, h2, ?_⟩
  rw [← hj]
  rcases hrow : rowValue (t k) with e | v'
  · simp [hrow, Except.mapError] at hv
  · simpa [hrow, Except.mapError] using hv

theorem Stored.applyAll {t : Tables} (h : chain.Stored ext lo hi t) (hlo : lo ≤ n) (hhi : n ≤ hi)
    {ws : List TableWrite} (hws : ∀ w ∈ ws, w.2 = chain.view ext n w.1)
    (hstate : ∀ w ∈ ws, w.1 ≠ .stateIndex) :
    chain.Stored ext lo hi (MonadServices.applyAll t ws) where
  between := h.between.applyAll hws hlo hhi
  state := by rw [applyAll_of_not_mem hstate, h.state]

/-- **The rule of writing**: a batch of values of the view at `n`, whether it goes
through or not. -/
theorem putBatch_meets (hlo : lo ≤ n) (hhi : n ≤ hi) {ws : List TableWrite}
    (hws : ∀ w ∈ ws, w.2 = chain.view ext n w.1) (hstate : ∀ w ∈ ws, w.1 ≠ .stateIndex) :
    Faulty.Meets (chain.Underway ext lo hi n D) (putBatch ws)
      (fun _ => chain.Underway ext lo hi n fun k => D k ∨ ∃ w ∈ ws, w.1 = k)
      (chain.Stored ext lo hi) := by
  refine Faulty.write_meets (fun t ht => ⟨ht.toStored.applyAll hlo hhi hws hstate, ?_⟩)
    fun t ws' ht hsub => ht.toStored.applyAll hlo hhi (fun w hw => hws w (hsub.subset hw))
      fun w hw => hstate w (hsub.subset hw)
  intro k hk
  by_cases hmem : ∃ w ∈ ws, w.1 = k
  · exact applyAll_of_mem hws hmem
  · exact (applyAll_of_not_mem fun w hw hcon => hmem ⟨w, hw, hcon⟩).trans
      (ht.written k (hk.resolve_right hmem))

theorem Underway.mono {D' : TableKey → Prop} {t : Tables} (h : chain.Underway ext lo hi n D t)
    (hD : ∀ k, D' k → D k) : chain.Underway ext lo hi n D' t :=
  ⟨h.toStored, fun k hk => h.written k (hD k hk)⟩

end Underway

end Chain

end Query

end MonadServices
