import MonadServices.Query.Writer.Flush

/-!
# The query writer

A writer holds the state it has committed, the hash of the last block, and the
blocks that wait to be flushed. `MonadServices.Query.QueryWriter.append` takes the next
block of the chain, `MonadServices.Query.QueryWriter.flush` assigns ids to the waiting
blocks and writes them, and `MonadServices.Query.openWriter` rebuilds a writer from the
tables.
-/

namespace MonadServices

namespace Query

/-- The writer. -/
structure QueryWriter where
  state : StateIndex
  lastBlockHash : Option B256
  pending : List QueryWriterBlock
  deriving DecidableEq

/-- `QueryTables::init`; the tables need no preparation, but the call may fail. -/
def initTables : StoreM Unit := Faulty.read storeError fun _ => .ok ()

/-- `QueryWriter::open`. -/
def openWriter : StoreM QueryWriter := do
  initTables
  let row ← get .stateIndex
  let state := (row.map StateIndexRow.decode).getD StateIndex.default
  match lastBlockId state with
  | none => pure ⟨state, none, []⟩
  | some blockHeight =>
    match ← get (.blockHash blockHeight) with
    | none => Faulty.fail (.error (.missingData "indexed block is missing block hash"))
    | some hash => pure ⟨state, some hash, []⟩

namespace QueryWriter

variable (ext : Externals) (w : QueryWriter)

/-- `QueryWriter::next_block_number`. -/
def nextBlockNumber : Except QueryError ℕ :=
  match checkedAdd w.state.nextBlockId w.pending.length with
  | none => .error (.invalidBlock "block number overflow")
  | some number => .ok number

/-- The hash that the next block has to name as its parent, if there is one. -/
def previousHash : Option B256 :=
  (w.pending.getLast?.map (QueryWriterBlock.blockHash ext)).or w.lastBlockHash

/-- `QueryWriter::append`. -/
def append (block : QueryWriterBlock) : Except QueryError QueryWriter := do
  if block.blockNumber ≠ (← w.nextBlockNumber) then
    .error (.invalidBlock "finalized blocks must be appended in order")
  else if (w.previousHash ext).any fun previous => block.parentHash ≠ previous then
    .error (.invalidBlock "finalized block does not extend the indexed chain")
  else .ok { w with pending := w.pending ++ [block] }

/-- `QueryWriter::start_at`. -/
def startAt (blockNumber : ℕ) : Except QueryError QueryWriter :=
  if w.state.indexedStart.isSome ∨ w.state.nextBlockId ≠ 0 ∨ w.pending ≠ [] then
    .error (.invalidBlock "writer already contains blocks")
  else .ok { w with
    state := { w.state with indexedStart := some blockNumber, nextBlockId := blockNumber } }

/-- A range of ids; the number of records of a block is a `u32`. -/
def range (first count : ℕ) : Except QueryError FamilyMetadata :=
  if count < 2 ^ 32 then .ok ⟨first, count⟩
  else .error (.invalidBlock "block contains too many records")

/-- Adds to an id; `what` names the family in the error. -/
def nextId (what : String) (id count : ℕ) : Except QueryError ℕ :=
  match checkedAdd id count with
  | none => .error (.invalidBlock (what ++ " ID overflow"))
  | some next => .ok next

/-- Assigns ids to blocks, from the given next ids on, and gives the next ids after
them. -/
def assign (nextTx nextLog nextTrace : ℕ) :
    List QueryWriterBlock → Except QueryError (List AssignedBlock × ℕ × ℕ × ℕ)
  | [] => .ok ([], nextTx, nextLog, nextTrace)
  | block :: blocks => do
    let txs ← range nextTx block.txs.length
    let logs ← range nextLog (block.txs.map fun tx => tx.logs.length).sum
    let traces ← range nextTrace (block.txs.map fun tx => tx.traces.length).sum
    let nextTx ← nextId "transaction" nextTx txs.count
    let nextLog ← nextId "log" nextLog logs.count
    let nextTrace ← nextId "trace" nextTrace traces.count
    let rest ← assign nextTx nextLog nextTrace blocks
    .ok (⟨block, logs, txs, traces⟩ :: rest.1, rest.2)

theorem range_eq_ok {first count : ℕ} {ids : FamilyMetadata} :
    range first count = .ok ids ↔ count < 2 ^ 32 ∧ ids = ⟨first, count⟩ := by
  unfold range
  split
  · rename_i h
    rw [Except.ok.injEq, and_iff_right h, eq_comm]
  · rename_i h
    simp only [reduceCtorEq, false_iff, not_and]
    exact fun hlt => absurd hlt h

theorem nextId_eq_ok {what : String} {id count next : ℕ} :
    nextId what id count = .ok next ↔ id + count = next ∧ next < 2 ^ 64 := by
  rw [← checkedAdd_eq_some]
  unfold nextId
  rcases checkedAdd id count with _ | v <;> simp

/-- One step of the assignment: no count exceeds a `u32` and no next id a `u64`. -/
theorem assign_cons_ok {nextTx nextLog nextTrace : ℕ} {block : QueryWriterBlock}
    {blocks : List QueryWriterBlock} {r : List AssignedBlock × ℕ × ℕ × ℕ}
    (h : assign nextTx nextLog nextTrace (block :: blocks) = .ok r) :
    ∃ (nTx nLog nTrace : ℕ) (rest : List AssignedBlock × ℕ × ℕ × ℕ),
      nTx = block.txs.length ∧ nLog = (block.txs.map fun tx => tx.logs.length).sum ∧
      nTrace = (block.txs.map fun tx => tx.traces.length).sum ∧
      (nTx < 2 ^ 32 ∧ nLog < 2 ^ 32 ∧ nTrace < 2 ^ 32) ∧
      (nextTx + nTx < 2 ^ 64 ∧ nextLog + nLog < 2 ^ 64 ∧ nextTrace + nTrace < 2 ^ 64) ∧
      assign (nextTx + nTx) (nextLog + nLog) (nextTrace + nTrace) blocks = .ok rest ∧
      r = (⟨block, ⟨nextLog, nLog⟩, ⟨nextTx, nTx⟩, ⟨nextTrace, nTrace⟩⟩ :: rest.1, rest.2) := by
  simp only [assign, bind_eq_ok] at h
  obtain ⟨txs, htxs, logs, hlogs, traces, htraces, tx', htx, log', hlog, trace', htrace, rest,
    hrest, hr⟩ := h
  obtain ⟨hltTx, rfl⟩ := range_eq_ok.mp htxs
  obtain ⟨hltLog, rfl⟩ := range_eq_ok.mp hlogs
  obtain ⟨hltTrace, rfl⟩ := range_eq_ok.mp htraces
  obtain ⟨rfl, hTx⟩ := nextId_eq_ok.mp htx
  obtain ⟨rfl, hLog⟩ := nextId_eq_ok.mp hlog
  obtain ⟨rfl, hTrace⟩ := nextId_eq_ok.mp htrace
  exact ⟨_, _, _, rest, rfl, rfl, rfl, ⟨hltTx, hltLog, hltTrace⟩, ⟨hTx, hLog, hTrace⟩, hrest,
    (Except.ok.inj hr).symm⟩

/-- The assignment keeps the blocks. -/
theorem map_block_assign {nextTx nextLog nextTrace : ℕ} {blocks : List QueryWriterBlock}
    {r : List AssignedBlock × ℕ × ℕ × ℕ}
    (h : assign nextTx nextLog nextTrace blocks = .ok r) :
    r.1.map AssignedBlock.block = blocks := by
  induction blocks generalizing nextTx nextLog nextTrace r with
  | nil =>
    simp only [assign, Except.ok.injEq] at h
    subst h
    rfl
  | cons block blocks ih =>
    obtain ⟨_, _, _, rest, -, -, -, -, -, hrest, rfl⟩ := assign_cons_ok h
    simp [ih hrest]

/-- `QueryWriter::prepare_flush`. -/
def prepareFlush : Except QueryError (Option QueryWriterFlushBatch) :=
  match w.pending.getLast? with
  | none => .ok none
  | some last => do
    let assigned ← assign w.state.nextTxId w.state.nextLogId w.state.nextTraceId w.pending
    let indexedStart := w.state.indexedStart.or
      (w.pending.head?.map QueryWriterBlock.blockNumber)
    match checkedAdd last.blockNumber 1 with
    | none => .error (.invalidBlock "block number overflow")
    | some nextBlockId =>
      .ok (some ⟨assigned.1,
        ⟨indexedStart, nextBlockId, assigned.2.2.1, assigned.2.1, assigned.2.2.2⟩⟩)

/-- **`QueryWriter::flush`**: gives its result, the writer and the tables. The
waiting blocks are taken out of the writer for the flush, and put back when it
fails; a panic loses them. -/
def flush (fs : List Fault) (t : Tables) : Except Stop Unit × QueryWriter × Tables :=
  match w.prepareFlush with
  | .error e => (.error (.error e), w, t)
  | .ok none => (.ok (), w, t)
  | .ok (some batch) =>
    match flushBatch ext w.state batch fs t with
    | (.ok (), t', _) =>
      (.ok (), ⟨batch.state,
        batch.blocks.getLast?.map fun assigned => assigned.block.blockHash ext, []⟩, t')
    | (.error (.error e), t', _) =>
      (.error (.error e), { w with pending := batch.blocks.map AssignedBlock.block }, t')
    | (.error (.panic message), t', _) =>
      (.error (.panic message), { w with pending := [] }, t')

/-- A batch holds the waiting blocks. -/
theorem map_block_prepareFlush {w : QueryWriter} {batch : QueryWriterFlushBatch}
    (h : w.prepareFlush = .ok (some batch)) :
    batch.blocks.map AssignedBlock.block = w.pending := by
  unfold prepareFlush at h
  split at h
  · simp at h
  · obtain ⟨assigned, hassigned, h⟩ := bind_eq_ok.mp h
    split at h
    · cases h
    · obtain rfl := Option.some.inj (Except.ok.inj h)
      exact map_block_assign hassigned

theorem prepareFlush_eq_none {w : QueryWriter} (h : w.prepareFlush = .ok none) :
    w.pending = [] := by
  unfold prepareFlush at h
  split at h
  · rename_i hlast
    simpa using hlast
  · obtain ⟨assigned, -, h⟩ := bind_eq_ok.mp h
    split at h <;> cases h

/-- **The outcomes of a flush**: it has no batch to write – because the blocks are
refused, or because there are none – or its result is that of the batch. -/
theorem flush_cases {ext : Externals} {w w' : QueryWriter} {fs : List Fault} {t t' : Tables}
    {r : Except Stop Unit} (h : w.flush ext fs t = (r, w', t')) :
    (∃ e, r = .error (.error e) ∧ w' = w ∧ t' = t) ∨
    (w.pending = [] ∧ r = .ok () ∧ w' = w ∧ t' = t) ∨
    ∃ batch fs', w.prepareFlush = .ok (some batch) ∧
      flushBatch ext w.state batch fs t = (r, t', fs') ∧
      (r = .ok () → w' = ⟨batch.state,
        batch.blocks.getLast?.map fun assigned => assigned.block.blockHash ext, []⟩) ∧
      ∀ e, r = .error (.error e) → w' = w := by
  unfold flush at h
  split at h
  · rename_i e _
    cases h
    exact Or.inl ⟨e, rfl, rfl, rfl⟩
  · rename_i hnone
    cases h
    exact Or.inr (Or.inl ⟨prepareFlush_eq_none hnone, rfl, rfl, rfl⟩)
  · rename_i batch hbatch
    refine Or.inr (Or.inr ⟨batch, ?_⟩)
    split at h <;> rename_i hrun <;> cases h
    · exact ⟨_, hbatch, hrun, fun _ => rfl, nofun⟩
    · exact ⟨_, hbatch, hrun, nofun, fun _ _ => by rw [map_block_prepareFlush hbatch]⟩
    · exact ⟨_, hbatch, hrun, nofun, nofun⟩

/-- **A flush that returns an error leaves the writer as it was.** -/
theorem flush_error {ext : Externals} {w w' : QueryWriter} {fs : List Fault} {t t' : Tables}
    {e : QueryError} (h : w.flush ext fs t = (.error (.error e), w', t')) : w' = w := by
  rcases flush_cases h with ⟨_, -, hw, -⟩ | ⟨-, -, hw, -⟩ | ⟨_, _, -, -, -, hw⟩
  · exact hw
  · exact hw
  · exact hw e rfl

end QueryWriter

end Query

end MonadServices
