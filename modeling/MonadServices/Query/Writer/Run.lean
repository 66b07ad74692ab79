import MonadServices.Query.Writer.Commit

/-!
# Runs of the writer

A run is any sequence of the operations a process – or several, one after the other
– may do with one finalized chain and one start block: open a writer on the tables,
set the start block, append a block, flush. Opening drops the writer there was, with
the blocks it held; every operation on the tables may fail, and a failed flush may be
retried, continued with more blocks, or given up for a new writer.

The invariant of runs is `MonadServices.Query.Consistent`. Two frontiers describe the
tables, the stored one and the furthest one any flush has tried to reach, and the
writer is never ahead of the first (`MonadServices.Query.consistent_run`). What a
successful flush leaves is then known, `MonadServices.Query.Consistent.flush_ok`.
-/

namespace MonadServices

namespace Query

/-- An open writer, if there is one, and the tables. -/
structure System where
  writer : Option QueryWriter
  tables : Tables

/-- The operations of a run. -/
inductive Op where
  | openWriter (faults : List Fault)
  | startAt
  | append (i : ℕ)
  | flush (faults : List Fault)

section Step

variable (ext : Externals) (chain : Chain)

/-- One operation. A writer that panics is gone, and one that cannot be opened is
not there; an operation that is refused changes nothing. -/
def step (s : System) : Op → System
  | .openWriter faults =>
    match openWriter faults s.tables with
    | (.ok w, t, _) => ⟨some w, t⟩
    | (.error _, t, _) => ⟨none, t⟩
  | .startAt =>
    match s.writer with
    | none => s
    | some w =>
      match w.startAt chain.start with
      | .ok w' => { s with writer := some w' }
      | .error _ => s
  | .append i =>
    match s.writer, chain.blocks[i]? with
    | some w, some block =>
      match w.append ext block with
      | .ok w' => { s with writer := some w' }
      | .error _ => s
    | _, _ => s
  | .flush faults =>
    match s.writer with
    | none => s
    | some w =>
      match w.flush ext faults s.tables with
      | (.error (.panic _), _, t) => ⟨none, t⟩
      | (_, w', t) => ⟨some w', t⟩

/-- **A run** from empty tables. -/
def run (ops : List Op) : System := ops.foldl (step ext chain) ⟨none, Tables.empty⟩

end Step

variable {ext : Externals} {chain : Chain}

/-! ### The invariant -/

/-- The blocks before `n` name their predecessors as parents. -/
def Chain.Linked (chain : Chain) (ext : Externals) (n : ℕ) : Prop :=
  ∀ i a b, i + 1 < n → chain.blocks[i]? = some a → chain.blocks[i + 1]? = some b →
    b.parentHash = a.blockHash ext

/-- The hash of the last of the first `m` blocks. -/
def Chain.hashBefore (chain : Chain) (ext : Externals) (m : ℕ) : Option B256 :=
  if m = 0 then none else chain.blocks[m - 1]?.map fun block => block.blockHash ext

/-- The writer has committed `m` blocks and holds the next ones, up to `n`. -/
structure WriterAt (chain : Chain) (ext : Externals) (w : QueryWriter) (m n : ℕ) : Prop where
  le : m ≤ n
  le_length : n ≤ chain.blocks.length
  state : w.state = chain.stateAt m ∨
    (m = 0 ∧ w.state = StateIndex.default ∧ (n = 0 ∨ chain.start = 0))
  lastBlockHash : w.lastBlockHash = chain.hashBefore ext m
  pending : w.pending = chain.segment m n
  linked : chain.Linked ext n

/-- **The invariant of runs**: the tables are stored at the frontier `lo`, no flush
has tried to go beyond `hi`, and the writer is at or behind `lo` and holds the blocks
up to it. -/
structure Consistent (chain : Chain) (ext : Externals) (s : System) (lo hi : ℕ) : Prop where
  stored : chain.Stored ext lo hi s.tables
  le : lo ≤ hi
  le_length : hi ≤ chain.blocks.length
  ids_lt : ∀ family, chain.frontier family hi < 2 ^ 64
  admissible : chain.Admissible ext lo
  linked : chain.Linked ext lo
  writer : ∀ w, s.writer = some w → ∃ m n, WriterAt chain ext w m n ∧ m ≤ lo ∧ lo ≤ n

theorem WriterAt.represents {w : QueryWriter} {m n : ℕ} (h : WriterAt chain ext w m n)
    (hlt : m < n) : chain.Represents m w.state := by
  rcases h.state with hs | ⟨rfl, hs, hn⟩
  · exact Or.inl hs
  · exact Or.inr ⟨rfl, by omega, hs⟩

theorem view_zero : chain.view ext 0 = Tables.empty := by
  funext k
  cases k with
  | bitmapIndex key => simp [Chain.view, Chain.bits, Chain.entries, Chain.records, Tables.empty]
  | pageStats key => simp [Chain.view, Chain.bits, Chain.entries, Chain.records, Tables.empty]
  | blockHash height => simp [Chain.view, Chain.blockAt, Tables.empty]
  | family family height => simp [Chain.view, Chain.blockAt, Tables.empty]
  | familyBlockIndex family id => simp [Chain.view, Chain.blockOfFirst, Tables.empty]
  | payload key => simp [Chain.view, Chain.blobEntries, Chain.entries, Chain.records, Tables.empty]
  | payloadLocation family id => simp [Chain.view, Tables.empty]
  | stateIndex => simp [Chain.view, Tables.empty]

theorem consistent_empty : Consistent chain ext ⟨none, Tables.empty⟩ 0 0 where
  stored := by
    rw [← @view_zero ext chain]
    exact ⟨between_view 0, rfl⟩
  le := le_rfl
  le_length := Nat.zero_le _
  ids_lt family := by
    rw [Chain.frontier_zero]
    cases family with
    | blockHeader => exact chain.start_lt
    | transaction => exact Nat.two_pow_pos 64
    | log => exact Nat.two_pow_pos 64
    | trace => exact Nat.two_pow_pos 64
  admissible := ⟨by simp [Chain.entries, Chain.records], by simp [Chain.entries, Chain.records]⟩
  linked i a b h := by omega
  writer := by simp

/-! ### Opening -/

theorem stored_get_meets {lo hi : ℕ} (k : TableKey) :
    Faulty.Meets (chain.Stored ext lo hi) (get k)
      (fun v t => (∃ j, lo ≤ j ∧ j ≤ hi ∧ rowValue (chain.view ext j k) = .ok v) ∧
        chain.Stored ext lo hi t) (chain.Stored ext lo hi) :=
  (@Chain.get_meets chain ext lo lo hi (fun _ => False) k).conseq (fun _ ht => ⟨ht, nofun⟩)
    (fun _ _ hs => ⟨hs.1, hs.2.toStored⟩) fun _ hs => hs

theorem columns_decode (n : ℕ) : (chain.stateAt n).columns.decode = chain.stateAt n := rfl

/-- The state of an opened writer. -/
theorem state_meets {lo hi : ℕ} :
    Faulty.Meets (chain.Stored ext lo hi) (get .stateIndex)
      (fun row t => (row.map StateIndexRow.decode).getD StateIndex.default =
          (if lo = 0 then StateIndex.default else chain.stateAt lo) ∧ chain.Stored ext lo hi t)
      (chain.Stored ext lo hi) := by
  refine Faulty.read_meets (fun row t hrow ht => ⟨?_, ht⟩) fun t ht => ht
  rw [ht.state] at hrow
  simp only [Chain.view] at hrow
  split_ifs at hrow ⊢ with h0
  · obtain rfl : none = row := Except.ok.inj hrow
    rfl
  · obtain rfl : some _ = row := Except.ok.inj hrow
    rfl

theorem lastBlockId_stateAt {m : ℕ} (hpos : m ≠ 0) :
    lastBlockId (chain.stateAt m) = some (chain.start + m - 1) := by
  unfold lastBlockId
  rw [Chain.checkedSub_one, if_pos (by simp only [Chain.stateAt]; omega)]
  simp [Chain.stateAt]
  omega

/-- **A writer opened on the tables** is at the stored frontier. -/
theorem openWriter_meets {lo hi : ℕ} (hle : lo ≤ hi) (hlen : hi ≤ chain.blocks.length)
    (hlinked : chain.Linked ext lo) :
    Faulty.Meets (chain.Stored ext lo hi) openWriter
      (fun w t => WriterAt chain ext w lo lo ∧ chain.Stored ext lo hi t)
      (chain.Stored ext lo hi) := by
  have hinit : Faulty.Meets (chain.Stored ext lo hi) initTables
      (fun _ => chain.Stored ext lo hi) (chain.Stored ext lo hi) :=
    Faulty.read_meets (fun _ _ _ ht => ht) fun _ ht => ht
  refine Faulty.bind_meets hinit fun _ => Faulty.bind_meets_of_fact state_meets
    fun row hstate => ?_
  dsimp only
  rw [hstate]
  split_ifs with h0
  · subst h0
    refine Faulty.pure_meets fun t ht => ⟨?_, ht⟩
    exact ⟨le_rfl, Nat.zero_le _, Or.inr ⟨rfl, rfl, Or.inl rfl⟩, rfl,
      (Chain.segment_of_le le_rfl).symm, hlinked⟩
  · obtain ⟨last, hlast⟩ : ∃ last, chain.blocks[lo - 1]? = some last :=
      ⟨_, List.getElem?_eq_getElem (by omega)⟩
    rw [lastBlockId_stateAt h0]
    refine Faulty.bind_meets_of_fact (stored_get_meets _) fun hash hread => ?_
    obtain ⟨j, hj, -, hrow⟩ := hread
    have hview : chain.view ext j (.blockHash (chain.start + lo - 1)) =
        some (.ok (last.blockHash ext)) := by
      rw [Nat.add_sub_assoc (by omega)]
      exact Chain.view_blockHash (by omega) hlast
    rw [hview] at hrow
    obtain rfl : some _ = hash := Except.ok.inj hrow
    refine Faulty.pure_meets fun t ht => ⟨?_, ht⟩
    exact ⟨le_rfl, by omega, Or.inl rfl, by simp [Chain.hashBefore, h0, hlast],
      (Chain.segment_of_le le_rfl).symm, hlinked⟩

/-! ### Appending and starting -/

/-- The start block is set before anything else. -/
theorem WriterAt.startAt {w w' : QueryWriter} {m n : ℕ} (h : WriterAt chain ext w m n)
    (hstart : w.startAt chain.start = .ok w') : WriterAt chain ext w' m n := by
  unfold QueryWriter.startAt at hstart
  split_ifs at hstart with hcond
  obtain rfl := Except.ok.inj hstart
  rcases h.state with hs | ⟨rfl, hs, -⟩
  · simp [hs, Chain.stateAt] at hcond
  · refine { h with state := Or.inl ?_ }
    simp [hs, StateIndex.default, Chain.stateAt, Chain.base]

theorem WriterAt.length_pending {w : QueryWriter} {m n : ℕ} (h : WriterAt chain ext w m n) :
    w.pending.length = n - m := by
  rw [h.pending, Chain.segment, List.length_drop, List.length_take, min_eq_left h.le_length]

theorem segment_succ {m n : ℕ} (hmn : m ≤ n) {block : QueryWriterBlock}
    (hb : chain.blocks[n]? = some block) :
    chain.segment m (n + 1) = chain.segment m n ++ [block] := by
  obtain ⟨hn, rfl⟩ := List.getElem?_eq_some_iff.mp hb
  unfold Chain.segment
  rw [List.take_add_one, hb, Option.toList_some, List.drop_append_of_le_length]
  rw [List.length_take]
  omega

/-- The parent that the next block has to name. -/
theorem WriterAt.previousHash {w : QueryWriter} {m n : ℕ} (h : WriterAt chain ext w m n) :
    w.previousHash ext = chain.hashBefore ext n := by
  unfold QueryWriter.previousHash
  rw [h.pending, h.lastBlockHash]
  rcases Nat.lt_or_ge m n with hlt | hge
  · obtain ⟨last, hlast⟩ : ∃ last, chain.blocks[n - 1]? = some last := by
      have := h.le_length
      exact ⟨_, List.getElem?_eq_getElem (by omega)⟩
    rw [Chain.getLast?_segment hlt h.le_length, hlast]
    simp [Chain.hashBefore, show n ≠ 0 by omega, hlast]
  · obtain rfl : m = n := le_antisymm h.le hge
    rw [Chain.segment_of_le le_rfl]
    rfl

/-- **A block that is accepted is the next one**, and it names its parent. -/
theorem WriterAt.append {w w' : QueryWriter} {m n i : ℕ} (h : WriterAt chain ext w m n)
    {block : QueryWriterBlock} (hb : chain.blocks[i]? = some block)
    (happend : w.append ext block = .ok w') : WriterAt chain ext w' m (n + 1) := by
  have hlen := h.length_pending
  have hmn := h.le
  simp only [QueryWriter.append, bind_eq_ok] at happend
  obtain ⟨number, hnumber, happend⟩ := happend
  split_ifs at happend with hne hparent
  obtain rfl := Except.ok.inj happend
  unfold QueryWriter.nextBlockNumber at hnumber
  rcases hadd : checkedAdd w.state.nextBlockId w.pending.length with _ | next
  · simp [hadd] at hnumber
  rw [hadd] at hnumber
  obtain rfl := Except.ok.inj hnumber
  obtain ⟨hnext, -⟩ := checkedAdd_eq_some.mp hadd
  rw [not_ne_iff, chain.number_eq i block hb] at hne
  have hin : i = n ∧ (m = 0 ∧ w.state = StateIndex.default → chain.start = 0) := by
    rcases h.state with hs | ⟨rfl, hs, hstart⟩
    · rw [hs] at hnext
      simp only [Chain.stateAt] at hnext
      refine ⟨by omega, fun hcon => ?_⟩
      simp [hs, Chain.stateAt, StateIndex.default] at hcon
    · rw [hs] at hnext
      simp only [StateIndex.default] at hnext
      omega
  obtain ⟨rfl, hzero⟩ := hin
  refine ⟨by omega, (List.getElem?_eq_some_iff.mp hb).1, ?_, h.lastBlockHash, ?_, ?_⟩
  · rcases h.state with hs | ⟨hm, hs, -⟩
    · exact Or.inl hs
    · exact Or.inr ⟨hm, hs, Or.inr (hzero ⟨hm, hs⟩)⟩
  · rw [segment_succ hmn hb, ← h.pending]
  · intro k a b hk ha hb'
    rcases Nat.lt_or_ge (k + 1) i with hlt | hge
    · exact h.linked k a b hlt ha hb'
    · obtain rfl : i = k + 1 := by omega
      obtain rfl : block = b := Option.some.inj (hb.symm.trans hb')
      rw [h.previousHash] at hparent
      simpa [Chain.hashBefore, ha] using hparent

/-! ### Flushing -/

theorem Chain.Stored.mono {lo hi hi' : ℕ} {t : Tables} (h : chain.Stored ext lo hi t)
    (hhi : hi ≤ hi') : chain.Stored ext lo hi' t :=
  ⟨h.between.mono le_rfl hhi, h.state⟩

section Flush

variable {s : System} {w w' : QueryWriter} {m n lo hi : ℕ} {faults : List Fault} {t' : Tables}

/-- A flush with a batch, in the terms of the chain. -/
theorem Consistent.flushing (hc : Consistent chain ext s lo hi) (hat : WriterAt chain ext w m n)
    (hm : m ≤ lo) (hn : lo ≤ n) {batch : QueryWriterFlushBatch}
    (hbatch : w.prepareFlush = .ok (some batch)) :
    m < n ∧ batch = chain.batch m n ∧ chain.Flushing w.state m lo n (max hi n) := by
  have hlt : m < n := by
    by_contra hcon
    have hnil : w.pending = [] := by rw [hat.pending, Chain.segment_of_le (by omega)]
    simp [QueryWriter.prepareFlush, hnil] at hbatch
  obtain ⟨-, rfl, hids, -⟩ :=
    Chain.prepareFlush_eq (hat.represents hlt) hat.pending hat.le hat.le_length hbatch
  refine ⟨hlt, rfl, hat.represents hlt, hm, hn, le_max_right _ _,
    max_le hc.le_length hat.le_length, fun family => ?_⟩
  rcases le_total hi n with hle | hle
  · rw [max_eq_right hle]
    exact hids family
  · rw [max_eq_left hle]
    exact hc.ids_lt family

theorem getLast?_assignedSegment (hlt : m < n) (hn : n ≤ chain.blocks.length) :
    (chain.assignedSegment m n).getLast?.map (fun a => a.block.blockHash ext) =
      chain.hashBefore ext n := by
  obtain ⟨last, hlast⟩ : ∃ last, chain.blocks[n - 1]? = some last :=
    ⟨_, List.getElem?_eq_getElem (by omega)⟩
  have hblocks : (chain.assignedSegment m n).getLast?.map AssignedBlock.block = some last := by
    rw [← List.getLast?_map, ← hlast, ← Chain.getLast?_segment hlt hn]
    congr 1
    unfold Chain.assignedSegment
    rw [List.map_map]
    exact List.zipIdx_map_fst m _
  rw [Chain.hashBefore, if_neg (by omega), hlast, ← hblocks, Option.map_map]
  rfl

/-- **A flush that goes through** brings the tables and the writer to the end of the
waiting blocks. -/
theorem Consistent.flush_ok (hc : Consistent chain ext s lo hi) (hat : WriterAt chain ext w m n)
    (hm : m ≤ lo) (hn : lo ≤ n) (hflush : w.flush ext faults s.tables = (.ok (), w', t')) :
    WriterAt chain ext w' n n ∧ Consistent chain ext ⟨some w', t'⟩ n (max hi n) := by
  rcases QueryWriter.flush_cases hflush with ⟨e, he, -⟩ | ⟨hnil, -, rfl, rfl⟩ |
    ⟨batch, fs', hbatch, hrun, hw', -⟩
  · cases he
  · -- Nothing waits, so the writer and the tables are at the same frontier.
    have hlen := hat.length_pending
    rw [hnil, List.length_nil] at hlen
    obtain rfl : m = n := le_antisymm hat.le (by omega)
    obtain rfl : m = lo := le_antisymm hm hn
    refine ⟨hat, { hc with stored := ?_, le := ?_, le_length := ?_, ids_lt := ?_, writer := ?_ }⟩
    · exact hc.stored.mono (le_max_left _ _)
    · exact le_max_right _ _
    · exact max_le hc.le_length hat.le_length
    · rw [max_eq_left hc.le]
      exact hc.ids_lt
    · rintro w'' ⟨⟩
      exact ⟨m, m, hat, le_rfl, le_rfl⟩
  · obtain ⟨hlt, rfl, hfl⟩ := hc.flushing hat hm hn hbatch
    obtain ⟨hadmissible, hstored⟩ := (Chain.flushBatch_meets hfl hlt hc.admissible).ok
      (hc.stored.mono (le_max_left _ _)) hrun
    have hat' : WriterAt chain ext w' n n := by
      rw [hw' rfl]
      exact ⟨le_rfl, hat.le_length, Or.inl rfl, getLast?_assignedSegment hlt hat.le_length,
        (Chain.segment_of_le le_rfl).symm, hat.linked⟩
    refine ⟨hat', hstored, hfl.le_high, hfl.high_le, hfl.ids_lt, hadmissible, hat.linked, ?_⟩
    rintro w'' ⟨⟩
    exact ⟨n, n, hat', le_rfl, le_rfl⟩

/-- **A flush that fails** leaves the stored frontier where it was, or – when only the
answer to its last write was lost – at the end of the waiting blocks. -/
theorem Consistent.flush_error (hc : Consistent chain ext s lo hi)
    (hat : WriterAt chain ext w m n) (hm : m ≤ lo) (hn : lo ≤ n) {stop : Stop}
    (hflush : w.flush ext faults s.tables = (.error stop, w', t')) :
    ∃ lo' hi', (lo' = lo ∨ lo' = n) ∧ hi' ≤ max hi n ∧
      Consistent chain ext ⟨none, t'⟩ lo' hi' := by
  rcases QueryWriter.flush_cases hflush with ⟨e, -, -, rfl⟩ | ⟨-, hr, -⟩ |
    ⟨batch, fs', hbatch, hrun, -, -⟩
  · exact ⟨lo, hi, Or.inl rfl, le_max_left _ _, { hc with writer := nofun }⟩
  · cases hr
  · obtain ⟨hlt, rfl, hfl⟩ := hc.flushing hat hm hn hbatch
    rcases (Chain.flushBatch_meets hfl hlt hc.admissible).error
      (hc.stored.mono (le_max_left _ _)) hrun with hstored | ⟨hadmissible, hstored⟩
    · exact ⟨lo, _, Or.inl rfl, le_rfl, hstored, hn.trans hfl.le_high, hfl.high_le, hfl.ids_lt,
        hc.admissible, hc.linked, nofun⟩
    · exact ⟨n, _, Or.inr rfl, le_rfl, hstored, hfl.le_high, hfl.high_le, hfl.ids_lt, hadmissible,
        hat.linked, nofun⟩

end Flush

/-! ### Whole runs -/

theorem Consistent.withWriter {s : System} {lo hi m n : ℕ} (hc : Consistent chain ext s lo hi)
    {w : QueryWriter} (hat : WriterAt chain ext w m n) (hm : m ≤ lo) (hn : lo ≤ n) :
    Consistent chain ext ⟨some w, s.tables⟩ lo hi :=
  { hc with writer := by rintro w' ⟨⟩; exact ⟨m, n, hat, hm, hn⟩ }

theorem Consistent.openWriter {s : System} {lo hi : ℕ} (hc : Consistent chain ext s lo hi)
    (faults : List Fault) : Consistent chain ext (step ext chain s (.openWriter faults)) lo hi := by
  have hmeets := openWriter_meets hc.le hc.le_length hc.linked
  rcases hrun : Query.openWriter faults s.tables with ⟨r, t, fs'⟩
  cases r with
  | ok w =>
    obtain ⟨hat, hstored⟩ := hmeets.ok hc.stored hrun
    have hc' : Consistent chain ext ⟨none, t⟩ lo hi :=
      { hc with stored := hstored, writer := nofun }
    simpa [step, hrun] using hc'.withWriter hat le_rfl le_rfl
  | error stop =>
    have hstored := hmeets.error hc.stored hrun
    have hc' : Consistent chain ext ⟨none, t⟩ lo hi :=
      { hc with stored := hstored, writer := nofun }
    simpa [step, hrun] using hc'

/-- An operation on the writer alone. -/
def Op.isLocal : Op → Bool
  | .startAt | .append _ => true
  | .openWriter _ | .flush _ => false

/-- **An operation on the writer alone** keeps what it has committed, and it holds no
fewer blocks. -/
theorem WriterAt.step {s : System} {w : QueryWriter} {m n : ℕ} (hat : WriterAt chain ext w m n)
    (hw : s.writer = some w) {op : Op} (hop : op.isLocal = true) :
    ∃ w' n', step ext chain s op = ⟨some w', s.tables⟩ ∧ WriterAt chain ext w' m n' ∧ n ≤ n' := by
  obtain ⟨writer, t⟩ := s
  obtain rfl : writer = some w := hw
  cases op with
  | openWriter faults => cases hop
  | flush faults => cases hop
  | startAt =>
    rcases hstart : w.startAt chain.start with e | w'
    · exact ⟨w, n, by simp [Query.step, hstart], hat, le_rfl⟩
    · exact ⟨w', n, by simp [Query.step, hstart], hat.startAt hstart, le_rfl⟩
  | append i =>
    rcases hb : chain.blocks[i]? with _ | block
    · exact ⟨w, n, by simp [Query.step, hb], hat, le_rfl⟩
    · rcases happend : w.append ext block with e | w'
      · exact ⟨w, n, by simp [Query.step, hb, happend], hat, le_rfl⟩
      · exact ⟨w', n + 1, by simp [Query.step, hb, happend], hat.append hb happend, by omega⟩

theorem step_of_no_writer {s : System} (hw : s.writer = none) {op : Op}
    (hop : ∀ faults, op ≠ .openWriter faults) : step ext chain s op = s := by
  cases op with
  | openWriter faults => exact absurd rfl (hop faults)
  | startAt => simp [step, hw]
  | append i => simp [step, hw]
  | flush faults => simp [step, hw]

theorem Consistent.step_local {s : System} {lo hi : ℕ} (hc : Consistent chain ext s lo hi)
    {op : Op} (hop : op.isLocal = true) : Consistent chain ext (step ext chain s op) lo hi := by
  rcases hw : s.writer with _ | w
  · rw [step_of_no_writer hw (by rintro faults rfl; cases hop)]
    exact hc
  · obtain ⟨m, n, hat, hm, hn⟩ := hc.writer w hw
    obtain ⟨w', n', hstep, hat', hle⟩ := hat.step hw hop
    rw [hstep]
    exact hc.withWriter hat' hm (by omega)

/-- **One operation keeps the invariant.** -/
theorem Consistent.step {s : System} {lo hi : ℕ} (hc : Consistent chain ext s lo hi) (op : Op) :
    ∃ lo' hi', Consistent chain ext (step ext chain s op) lo' hi' := by
  cases op with
  | openWriter faults => exact ⟨lo, hi, hc.openWriter faults⟩
  | startAt => exact ⟨lo, hi, hc.step_local rfl⟩
  | append i => exact ⟨lo, hi, hc.step_local rfl⟩
  | flush faults =>
    unfold Query.step
    rcases hw : s.writer with _ | w
    · exact ⟨lo, hi, hc⟩
    · obtain ⟨m, n, hat, hm, hn⟩ := hc.writer w hw
      rcases hflush : w.flush ext faults s.tables with ⟨r, w', t'⟩
      rcases r with (e | message) | ⟨⟩
      · obtain ⟨lo', hi', hlo, -, hc'⟩ := hc.flush_error hat hm hn hflush
        obtain rfl := QueryWriter.flush_error hflush
        refine ⟨lo', hi', ?_⟩
        simpa [hflush] using hc'.withWriter hat (by omega) (by omega)
      · obtain ⟨lo', hi', -, -, hc'⟩ := hc.flush_error hat hm hn hflush
        exact ⟨lo', hi', by simpa [hflush] using hc'⟩
      · obtain ⟨-, hc'⟩ := hc.flush_ok hat hm hn hflush
        exact ⟨n, _, by simpa [hflush] using hc'⟩

/-- **Every run keeps the invariant.** -/
theorem consistent_run (ops : List Op) :
    ∃ lo hi, Consistent chain ext (run ext chain ops) lo hi := by
  have hfold : ∀ (ops : List Op) (s : System), (∃ lo hi, Consistent chain ext s lo hi) →
      ∃ lo hi, Consistent chain ext (ops.foldl (Query.step ext chain) s) lo hi := by
    intro ops
    induction ops with
    | nil => exact fun s h => h
    | cons op ops ih =>
      rintro s ⟨lo, hi, hc⟩
      exact ih _ (hc.step op)
  exact hfold ops _ ⟨0, 0, consistent_empty⟩

/-- **What a successful flush leaves**, at the end of any run. -/
theorem consistent_flush {ops : List Op} {w w' : QueryWriter} {faults : List Fault} {t' : Tables}
    (hw : (run ext chain ops).writer = some w)
    (hflush : w.flush ext faults (run ext chain ops).tables = (.ok (), w', t')) :
    ∃ n hi, WriterAt chain ext w' n n ∧ Consistent chain ext ⟨some w', t'⟩ n hi := by
  obtain ⟨lo, hi, hc⟩ := @consistent_run ext chain ops
  obtain ⟨m, n, hat, hm, hn⟩ := hc.writer w hw
  exact ⟨n, _, hc.flush_ok hat hm hn hflush⟩

end Query

end MonadServices
