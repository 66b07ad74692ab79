import MonadServices.Query.Writer.Chain

/-!
# Indexing a range of blocks

The indexer fetches the blocks of a range in batches, appends them to the writer one by one, and
flushes the writer whenever enough blocks wait, which may be within a batch or after several of
them. What waits at the end is flushed too.

The indexer is modelled with a history of what it does to the writer. Up to any point the blocks
that were appended are those of the range in order, and the ones that were flushed are the first
of them (`MonadServices.Query.Indexer.Ready`); **when it ends they are all of them**, and when it
is stopped they are still the first ones (`MonadServices.Query.indexRange_spec`). It ends on every
range, except that the last block number of all has no successor.
-/

namespace MonadServices

namespace Query

variable {ε : Type}

/-! ### The indexer -/

/-- What the indexer does to the writer: it appends a block, or has the waiting blocks flushed,
with or without success. -/
inductive Event where
  | append (block : QueryWriterBlock)
  | flush (blocks : List QueryWriterBlock) (succeeded : Bool)

/-- The errors of the indexer. The reader has errors of its own. -/
inductive IndexError (ε : Type) where
  | message (text : String)
  | read (error : ε)
  /-- "append block {blockNumber}: {error}" -/
  | append (blockNumber : ℕ) (error : QueryError)
  /-- "flush query writer: {error}" -/
  | flush (error : QueryError)

/-- How the indexer stops early. -/
inductive IndexStop (ε : Type) where
  | error (e : IndexError ε)
  | panic (message : String)

/-- The state of the indexer, with the tables, what the environment does to the flushes to come
and the history. -/
structure Indexer where
  nextBlock : ℕ
  pendingBlocks : ℕ
  writer : QueryWriter
  tables : Tables
  faults : List (List Fault)
  history : List Event

/-- The blocks that were appended. -/
def appended (history : List Event) : List QueryWriterBlock :=
  history.flatMap fun
    | .append block => [block]
    | .flush _ _ => []

/-- The blocks that were flushed successfully. -/
def flushed (history : List Event) : List QueryWriterBlock :=
  history.flatMap fun
    | .flush blocks true => blocks
    | .flush _ false => []
    | .append _ => []

section Indexer

variable (ext : Externals) (read : ℕ → Except ε QueryWriterBlock) (latestBlock : ℕ)
  (fetchConcurrency fetchBatchSize flushEveryBlocks : ℕ)

/-- Flushes the writer. -/
def Indexer.flush (s : Indexer) : Except (IndexStop ε) Unit × Indexer :=
  let (r, w, t) := s.writer.flush ext (s.faults.headD []) s.tables
  let s := { s with
    writer := w
    tables := t
    faults := s.faults.tail
    history := s.history ++ [.flush s.writer.pending r.toBool] }
  match r with
  | .ok () => (.ok (), s)
  | .error (.error e) => (.error (.error (.flush e)), s)
  | .error (.panic message) => (.error (.panic message), s)

/-- One block: it is appended, and flushed if enough blocks wait. -/
def Indexer.push (s : Indexer) (block : QueryWriterBlock) : Except (IndexStop ε) Unit × Indexer :=
  match s.writer.append ext block with
  | .error e => (.error (.error (.append block.blockNumber e)), s)
  | .ok w =>
    let s := { s with writer := w, history := s.history ++ [.append block] }
    match checkedAdd s.nextBlock 1 with
    | none => (.error (.error (.message "block number overflow")), s)
    | some nextBlock =>
      let s := { s with nextBlock := nextBlock, pendingBlocks := s.pendingBlocks + 1 }
      if flushEveryBlocks ≤ s.pendingBlocks then
        match s.flush ext with
        | (.ok (), s) => (.ok (), { s with pendingBlocks := 0 })
        | (.error stop, s) => (.error stop, s)
      else (.ok (), s)

/-- The blocks of a batch, one after the other. -/
def Indexer.pushAll (s : Indexer) :
    List QueryWriterBlock → Except (IndexStop ε) Unit × Indexer
  | [] => (.ok (), s)
  | block :: blocks =>
    match s.push ext flushEveryBlocks block with
    | (.ok (), s) => s.pushAll blocks
    | (.error stop, s) => (.error stop, s)

/-- Fetches the blocks of a batch. The results come in the order of the block numbers, however
many blocks are read at the same time; but if none may be read, nothing ever comes. -/
def fetch (first last : ℕ) : Option (Except ε (List QueryWriterBlock)) :=
  if fetchConcurrency = 0 then none else some ((List.range' first (last - first + 1)).mapM read)

/-- The last block of a batch. -/
def batchEnd (nextBlock : ℕ) : ℕ :=
  min ((checkedAdd nextBlock (fetchBatchSize - 1)).getD latestBlock) latestBlock

/-- The loop over the batches; the first argument bounds their number. -/
def indexLoop : ℕ → Indexer → Option (Except (IndexStop ε) ℕ × Indexer)
  | 0, _ => none
  | fuel + 1, s =>
    if s.nextBlock ≤ latestBlock then
      match fetch read fetchConcurrency s.nextBlock
          (batchEnd latestBlock fetchBatchSize s.nextBlock) with
      | none => none
      | some (.error e) => some (.error (.error (.read e)), s)
      | some (.ok blocks) =>
        match s.pushAll ext flushEveryBlocks blocks with
        | (.ok (), s) => indexLoop fuel s
        | (.error stop, s) => some (.error stop, s)
    else if s.pendingBlocks ≠ 0 then
      match s.flush ext with
      | (.ok (), s) => some (.ok s.nextBlock, s)
      | (.error stop, s) => some (.error stop, s)
    else some (.ok s.nextBlock, s)

/-- **`index_range`**, on a writer and its tables. -/
def indexRange (fuel : ℕ) (w : QueryWriter) (t : Tables) (faults : List (List Fault))
    (nextBlock : ℕ) : Option (Except (IndexStop ε) ℕ × Indexer) :=
  let s : Indexer := ⟨nextBlock, 0, w, t, faults, []⟩
  if fetchBatchSize = 0 then
    some (.error (.error (.message "fetch batch size must be greater than zero")), s)
  else if flushEveryBlocks = 0 then
    some (.error (.error (.message "flush interval must be greater than zero")), s)
  else if 2 ^ 64 ≤ fetchBatchSize then
    some (.error (.error (.message "fetch batch size does not fit in a block number")), s)
  else indexLoop ext read latestBlock fetchConcurrency fetchBatchSize flushEveryBlocks fuel s

end Indexer

/-! ### The history -/

section History

@[simp] theorem appended_nil : appended [] = [] := rfl

@[simp] theorem flushed_nil : flushed [] = [] := rfl

@[simp] theorem appended_append (history : List Event) (block : QueryWriterBlock) :
    appended (history ++ [.append block]) = appended history ++ [block] := by
  simp [appended]

@[simp] theorem appended_flush (history : List Event) (blocks : List QueryWriterBlock)
    (succeeded : Bool) :
    appended (history ++ [.flush blocks succeeded]) = appended history := by
  simp [appended]

@[simp] theorem flushed_append (history : List Event) (block : QueryWriterBlock) :
    flushed (history ++ [.append block]) = flushed history := by
  simp [flushed]

@[simp] theorem flushed_flush_true (history : List Event) (blocks : List QueryWriterBlock) :
    flushed (history ++ [.flush blocks true]) = flushed history ++ blocks := by
  simp [flushed]

@[simp] theorem flushed_flush_false (history : List Event) (blocks : List QueryWriterBlock) :
    flushed (history ++ [.flush blocks false]) = flushed history := by
  simp [flushed]

end History

/-! ### What is kept -/

section Kept

variable {ext : Externals} {read : ℕ → Except ε QueryWriterBlock}
  {first latestBlock flushEveryBlocks : ℕ} {s s' : Indexer}

/-- **Up to any point** the blocks of the range were appended in order, and no flush was too
large. -/
structure Indexer.Kept (read : ℕ → Except ε QueryWriterBlock) (first flushEveryBlocks : ℕ)
    (s : Indexer) : Prop where
  reads : List.Forall₂ (fun number block => read number = .ok block)
    (List.range' first (appended s.history).length) (appended s.history)
  covers : ∀ blocks succeeded, Event.flush blocks succeeded ∈ s.history →
    blocks.length ≤ flushEveryBlocks

/-- What was appended was flushed or waits. -/
def Indexer.Split (s : Indexer) : Prop :=
  appended s.history = flushed s.history ++ s.writer.pending

/-- **The indexer is ready for the next block.** -/
structure Indexer.Ready (read : ℕ → Except ε QueryWriterBlock) (first flushEveryBlocks : ℕ)
    (s : Indexer) : Prop extends s.Kept read first flushEveryBlocks where
  split : s.Split
  next : s.nextBlock = first + (appended s.history).length
  count : s.writer.pending.length = s.pendingBlocks
  lt : s.pendingBlocks < flushEveryBlocks

/-- What is left when the indexer goes on or stops: a panic loses the waiting blocks. -/
def Leaves (P : Indexer → Prop) (read : ℕ → Except ε QueryWriterBlock)
    (first flushEveryBlocks : ℕ) : Except (IndexStop ε) Unit × Indexer → Prop
  | (.ok (), s) => P s
  | (.error (.error _), s) => s.Kept read first flushEveryBlocks ∧ s.Split
  | (.error (.panic _), s) => s.Kept read first flushEveryBlocks

/-- The waiting blocks after a flush. -/
theorem pending_of_flush {w w' : QueryWriter} {faults : List Fault} {t t' : Tables}
    (h : w.flush ext faults t = (.ok (), w', t')) : w'.pending = [] := by
  rcases QueryWriter.flush_cases h with ⟨e, he, -⟩ | ⟨hnil, -, rfl, -⟩ | ⟨_, _, -, -, hw, -⟩
  · cases he
  · exact hnil
  · rw [hw rfl]

/-- **A flush** moves the waiting blocks to the flushed ones, or leaves them waiting. -/
theorem Indexer.Kept.flush (ext : Externals) (hkept : s.Kept read first flushEveryBlocks)
    (hsplit : s.Split) (hcount : s.writer.pending.length ≤ flushEveryBlocks) :
    Leaves (fun s' => s'.Kept read first flushEveryBlocks ∧ s'.Split ∧ s'.writer.pending = [] ∧
      s'.nextBlock = s.nextBlock ∧ appended s'.history = appended s.history)
      read first flushEveryBlocks (s.flush ext) := by
  have hcovers : ∀ r, ∀ blocks succeeded, Event.flush blocks succeeded ∈
      s.history ++ [.flush s.writer.pending r] → blocks.length ≤ flushEveryBlocks := by
    intro r blocks succeeded hmem
    rcases List.mem_append.mp hmem with hmem | hmem
    · exact hkept.covers blocks succeeded hmem
    · obtain ⟨rfl, rfl⟩ := Event.flush.inj (List.mem_singleton.mp hmem)
      exact hcount
  have hreads : ∀ r, List.Forall₂ (fun number block => read number = .ok block)
      (List.range' first (appended (s.history ++ [.flush s.writer.pending r])).length)
      (appended (s.history ++ [.flush s.writer.pending r])) := by
    intro r
    rw [appended_flush]
    exact hkept.reads
  rcases hflush : s.writer.flush ext (s.faults.headD []) s.tables with ⟨r, w, t⟩
  unfold Indexer.flush
  rw [hflush]
  rcases r with (e | message) | ⟨⟩
  · refine ⟨⟨hreads _, hcovers _⟩, ?_⟩
    rw [Indexer.Split]
    simp only [QueryWriter.flush_error hflush, Except.toBool, appended_flush, flushed_flush_false]
    exact hsplit
  · exact ⟨hreads _, hcovers _⟩
  · refine ⟨⟨hreads _, hcovers _⟩, ?_, pending_of_flush hflush, rfl, appended_flush _ _ _⟩
    rw [Indexer.Split]
    simp only [pending_of_flush hflush, Except.toBool, appended_flush, flushed_flush_true,
      List.append_nil]
    exact hsplit

/-- What appending does to the waiting blocks. -/
theorem pending_of_append {w w' : QueryWriter} {block : QueryWriterBlock}
    (h : w.append ext block = .ok w') : w'.pending = w.pending ++ [block] := by
  simp only [QueryWriter.append, bind_eq_ok] at h
  obtain ⟨number, -, h⟩ := h
  split_ifs at h
  rw [← Except.ok.inj h]

/-- **One block keeps the indexer ready**, if it is the next one. -/
theorem Indexer.Ready.push (ext : Externals) (h : s.Ready read first flushEveryBlocks)
    {block : QueryWriterBlock} (hread : read s.nextBlock = .ok block) :
    Leaves (fun s' => s'.Ready read first flushEveryBlocks ∧ s'.nextBlock = s.nextBlock + 1)
      read first flushEveryBlocks (s.push ext flushEveryBlocks block) := by
  unfold Indexer.push
  rcases happend : s.writer.append ext block with e | w
  · exact ⟨h.toKept, h.split⟩
  have hpending := pending_of_append happend
  -- The block is appended, and waits.
  have hkept : ∀ nextBlock pendingBlocks, Indexer.Kept read first flushEveryBlocks
      { s with
        nextBlock := nextBlock
        pendingBlocks := pendingBlocks
        writer := w
        history := s.history ++ [.append block] } := by
    intro nextBlock pendingBlocks
    constructor
    · rw [appended_append, List.length_append, List.length_singleton, List.range'_concat]
      refine List.rel_append h.reads (.cons ?_ .nil)
      rw [Nat.one_mul, ← h.next]
      exact hread
    · intro blocks succeeded hmem
      rcases List.mem_append.mp hmem with hmem | hmem
      · exact h.covers blocks succeeded hmem
      · cases List.mem_singleton.mp hmem
  have hsplit : ∀ nextBlock pendingBlocks, Indexer.Split
      { s with
        nextBlock := nextBlock
        pendingBlocks := pendingBlocks
        writer := w
        history := s.history ++ [.append block] } := by
    intro nextBlock pendingBlocks
    rw [Indexer.Split, appended_append, flushed_append, hpending, ← List.append_assoc]
    exact congrArg (fun blocks => blocks ++ [block]) h.split
  have hlength : w.pending.length = s.pendingBlocks + 1 := by
    rw [hpending, List.length_append, h.count]
    rfl
  have hlt := h.lt
  dsimp only
  rcases hnext : checkedAdd s.nextBlock 1 with _ | nextBlock
  · exact ⟨hkept _ _, hsplit _ _⟩
  obtain ⟨rfl, -⟩ := checkedAdd_eq_some.mp hnext
  dsimp only
  have hnumber : s.nextBlock + 1 = first + (appended (s.history ++ [.append block])).length := by
    rw [appended_append, List.length_append, h.next]
    rfl
  split_ifs with hfull
  · have hleaves := (hkept (s.nextBlock + 1) (s.pendingBlocks + 1)).flush ext
      (hsplit _ _) (by rw [hlength]; exact hlt)
    generalize Indexer.flush ext
      { s with
        nextBlock := s.nextBlock + 1
        pendingBlocks := s.pendingBlocks + 1
        writer := w
        history := s.history ++ [.append block] } = left at hleaves
    obtain ⟨r, s'⟩ := left
    rcases r with (e | message) | ⟨⟩
    · exact hleaves
    · exact hleaves
    · obtain ⟨hkept', hsplit', hnil, hnext', happended⟩ := hleaves
      refine ⟨⟨⟨hkept'.reads, hkept'.covers⟩, hsplit', ?_, ?_, ?_⟩, hnext'⟩
      · rw [hnext', happended]
        exact hnumber
      · rw [hnil]
        rfl
      · exact Nat.zero_lt_of_lt hlt
  · exact ⟨⟨hkept _ _, hsplit _ _, hnumber, hlength, Nat.lt_of_not_le hfull⟩, rfl⟩

/-- **A batch keeps the indexer ready.** -/
theorem Indexer.Ready.pushAll (ext : Externals) (h : s.Ready read first flushEveryBlocks)
    {blocks : List QueryWriterBlock}
    (hread : List.Forall₂ (fun number block => read number = .ok block)
      (List.range' s.nextBlock blocks.length) blocks) :
    Leaves (fun s' => s'.Ready read first flushEveryBlocks ∧
      s'.nextBlock = s.nextBlock + blocks.length)
      read first flushEveryBlocks (s.pushAll ext flushEveryBlocks blocks) := by
  induction blocks generalizing s with
  | nil => exact ⟨h, rfl⟩
  | cons block blocks ih =>
    rw [List.length_cons, List.range'_succ, List.forall₂_cons] at hread
    obtain ⟨hblock, hblocks⟩ := hread
    have hpush := h.push ext hblock
    unfold Indexer.pushAll
    rcases hrun : (s.push ext flushEveryBlocks block : Except (IndexStop ε) Unit × Indexer)
      with ⟨r, s'⟩
    rw [hrun] at hpush
    rcases r with (e | message) | ⟨⟩
    · exact hpush
    · exact hpush
    · obtain ⟨hready, hnext⟩ := hpush
      have hrest := ih hready (by rwa [hnext])
      rw [List.length_cons, Nat.add_comm blocks.length 1, ← Nat.add_assoc, ← hnext]
      exact hrest

end Kept

/-! ### The loop -/

section Loop

variable {ext : Externals} {read : ℕ → Except ε QueryWriterBlock}
  {first latestBlock fetchConcurrency fetchBatchSize flushEveryBlocks : ℕ} {s : Indexer}

/-- What is left when the loop ends. -/
def Ends (read : ℕ → Except ε QueryWriterBlock) (first latestBlock flushEveryBlocks : ℕ) :
    Except (IndexStop ε) ℕ × Indexer → Prop
  | (.ok result, s) => s.Kept read first flushEveryBlocks ∧ result = latestBlock + 1 ∧
      (appended s.history).length = latestBlock + 1 - first ∧
      appended s.history = flushed s.history ∧ s.writer.pending = []
  | (.error (.error _), s) => s.Kept read first flushEveryBlocks ∧ s.Split
  | (.error (.panic _), s) => s.Kept read first flushEveryBlocks

/-- A batch is not empty and within the range. -/
theorem batchEnd_mem (fetchBatchSize : ℕ) {nextBlock : ℕ} (h : nextBlock ≤ latestBlock) :
    nextBlock ≤ batchEnd latestBlock fetchBatchSize nextBlock ∧
      batchEnd latestBlock fetchBatchSize nextBlock ≤ latestBlock := by
  refine ⟨le_min ?_ h, min_le_right _ _⟩
  rcases hadd : checkedAdd nextBlock (fetchBatchSize - 1) with _ | last
  · exact h
  · obtain ⟨hlast, -⟩ := checkedAdd_eq_some.mp hadd
    rw [Option.getD_some]
    omega

variable {fuel : ℕ} {s' : Indexer} {blocks : List QueryWriterBlock} {stop : IndexStop ε}

/-- The loop stops at a block that cannot be read. -/
theorem indexLoop_of_read_error {e : ε} (hmore : s.nextBlock ≤ latestBlock)
    (hfetch : fetch read fetchConcurrency s.nextBlock
      (batchEnd latestBlock fetchBatchSize s.nextBlock) = some (.error e)) :
    indexLoop ext read latestBlock fetchConcurrency fetchBatchSize flushEveryBlocks (fuel + 1) s =
      some (.error (.error (.read e)), s) := by
  rw [indexLoop, if_pos hmore, hfetch]

/-- The loop goes on after a batch. -/
theorem indexLoop_of_pushAll (hmore : s.nextBlock ≤ latestBlock)
    (hfetch : fetch read fetchConcurrency s.nextBlock
      (batchEnd latestBlock fetchBatchSize s.nextBlock) = some (.ok blocks))
    (hpush : s.pushAll ext flushEveryBlocks blocks = ((.ok () : Except (IndexStop ε) Unit), s')) :
    indexLoop ext read latestBlock fetchConcurrency fetchBatchSize flushEveryBlocks (fuel + 1) s =
      indexLoop ext read latestBlock fetchConcurrency fetchBatchSize flushEveryBlocks fuel s' := by
  rw [indexLoop, if_pos hmore, hfetch]
  dsimp only
  rw [hpush]

/-- The loop stops within a batch. -/
theorem indexLoop_of_pushAll_error (hmore : s.nextBlock ≤ latestBlock)
    (hfetch : fetch read fetchConcurrency s.nextBlock
      (batchEnd latestBlock fetchBatchSize s.nextBlock) = some (.ok blocks))
    (hpush : s.pushAll ext flushEveryBlocks blocks = (.error stop, s')) :
    indexLoop ext read latestBlock fetchConcurrency fetchBatchSize flushEveryBlocks (fuel + 1) s =
      some (.error stop, s') := by
  rw [indexLoop, if_pos hmore, hfetch]
  dsimp only
  rw [hpush]

/-- The last flush. -/
theorem indexLoop_of_flush (hdone : ¬s.nextBlock ≤ latestBlock) (hpending : s.pendingBlocks ≠ 0)
    (hflush : s.flush ext = ((.ok () : Except (IndexStop ε) Unit), s')) :
    indexLoop ext read latestBlock fetchConcurrency fetchBatchSize flushEveryBlocks (fuel + 1) s =
      some (.ok s'.nextBlock, s') := by
  rw [indexLoop, if_neg hdone, if_pos hpending, hflush]

theorem indexLoop_of_flush_error (hdone : ¬s.nextBlock ≤ latestBlock)
    (hpending : s.pendingBlocks ≠ 0) (hflush : s.flush ext = (.error stop, s')) :
    indexLoop ext read latestBlock fetchConcurrency fetchBatchSize flushEveryBlocks (fuel + 1) s =
      some (.error stop, s') := by
  rw [indexLoop, if_neg hdone, if_pos hpending, hflush]

/-- **After the last batch** what waits is flushed. -/
theorem Indexer.Ready.ends (h : s.Ready read first flushEveryBlocks)
    (hnext : s.nextBlock = latestBlock + 1) :
    ∃ r s', (∀ fuel, indexLoop ext read latestBlock fetchConcurrency fetchBatchSize
        flushEveryBlocks (fuel + 1) s = some (r, s')) ∧
      Ends read first latestBlock flushEveryBlocks (r, s') := by
  have hdone : ¬s.nextBlock ≤ latestBlock := by omega
  have hlength : (appended s.history).length = latestBlock + 1 - first := by
    have := h.next
    omega
  by_cases hpending : s.pendingBlocks = 0
  · have hnil : s.writer.pending = [] := by
      rw [← List.length_eq_zero_iff, h.count, hpending]
    refine ⟨.ok s.nextBlock, s, fun fuel => ?_, h.toKept, hnext, hlength, ?_, hnil⟩
    · rw [indexLoop, if_neg hdone, if_neg (not_not.mpr hpending)]
    · have hsplit := h.split
      rwa [Indexer.Split, hnil, List.append_nil] at hsplit
  · have hleaves := h.toKept.flush ext h.split (h.count.trans_le h.lt.le)
    rcases hflush : (s.flush ext : Except (IndexStop ε) Unit × Indexer) with ⟨r, s'⟩
    rw [hflush] at hleaves
    rcases r with (e | message) | ⟨⟩
    · exact ⟨_, _, fun _ => indexLoop_of_flush_error hdone hpending hflush, hleaves⟩
    · exact ⟨_, _, fun _ => indexLoop_of_flush_error hdone hpending hflush, hleaves⟩
    · obtain ⟨hkept, hsplit, hnil, hnext', happended⟩ := hleaves
      refine ⟨_, _, fun _ => indexLoop_of_flush hdone hpending hflush, hkept, hnext'.trans hnext,
        ?_, ?_, hnil⟩
      · rw [happended]
        exact hlength
      · rwa [Indexer.Split, hnil, List.append_nil] at hsplit

/-- **The loop ends**, and with what. The induction is on the number of blocks to come. -/
theorem Indexer.Ready.loop (hconcurrency : 0 < fetchConcurrency) {m : ℕ}
    (h : s.Ready read first flushEveryBlocks) (hle : s.nextBlock ≤ latestBlock + 1)
    (hm : latestBlock + 1 - s.nextBlock ≤ m) :
    ∃ r s', (∀ fuel, m ≤ fuel → indexLoop ext read latestBlock fetchConcurrency fetchBatchSize
        flushEveryBlocks (fuel + 1) s = some (r, s')) ∧
      Ends read first latestBlock flushEveryBlocks (r, s') := by
  induction m generalizing s with
  | zero =>
    have hnext : s.nextBlock = latestBlock + 1 := by omega
    obtain ⟨r, s', hrun, hends⟩ := h.ends hnext
    exact ⟨r, s', fun fuel _ => hrun fuel, hends⟩
  | succ m ih =>
    rcases hle.lt_or_eq with hlt | hnext
    · have hmore : s.nextBlock ≤ latestBlock := Nat.lt_succ_iff.mp hlt
      obtain ⟨hge, hlast⟩ := batchEnd_mem fetchBatchSize hmore
      rcases hblocks : (List.range' s.nextBlock
        (batchEnd latestBlock fetchBatchSize s.nextBlock - s.nextBlock + 1)).mapM read with
        e | blocks
      · have hfetch : fetch read fetchConcurrency s.nextBlock
            (batchEnd latestBlock fetchBatchSize s.nextBlock) = some (.error e) := by
          rw [fetch, if_neg hconcurrency.ne', hblocks]
        exact ⟨_, s, fun _ _ => indexLoop_of_read_error hmore hfetch, h.toKept, h.split⟩
      · have hfetch : fetch read fetchConcurrency s.nextBlock
            (batchEnd latestBlock fetchBatchSize s.nextBlock) = some (.ok blocks) := by
          rw [fetch, if_neg hconcurrency.ne', hblocks]
        have hreads := mapM_eq_ok.mp hblocks
        have hlength := hreads.length_eq
        rw [List.length_range'] at hlength
        rw [hlength] at hreads
        have hleaves := h.pushAll ext hreads
        rcases hpush : (s.pushAll ext flushEveryBlocks blocks : Except (IndexStop ε) Unit × Indexer)
          with ⟨r, s'⟩
        rw [hpush] at hleaves
        rcases r with (e | message) | ⟨⟩
        · exact ⟨_, _, fun _ _ => indexLoop_of_pushAll_error hmore hfetch hpush, hleaves⟩
        · exact ⟨_, _, fun _ _ => indexLoop_of_pushAll_error hmore hfetch hpush, hleaves⟩
        · obtain ⟨hready, hnext⟩ := hleaves
          obtain ⟨r, s'', hrun, hends⟩ := ih hready (by omega) (by omega)
          refine ⟨r, s'', fun fuel hfuel => ?_, hends⟩
          obtain ⟨fuel, rfl⟩ := Nat.exists_eq_add_of_le' (Nat.one_le_of_lt hfuel)
          rw [indexLoop_of_pushAll hmore hfetch hpush]
          exact hrun fuel (Nat.succ_le_succ_iff.mp hfuel)
    · obtain ⟨r, s', hrun, hends⟩ := h.ends hnext
      exact ⟨r, s', fun fuel _ => hrun fuel, hends⟩

end Loop

/-- **What is promised of the indexer** when it ends with a result or is stopped. -/
structure IndexesRange (read : ℕ → Except ε QueryWriterBlock)
    (nextBlock latestBlock flushEveryBlocks : ℕ) (r : Except (IndexStop ε) ℕ) (s : Indexer) :
    Prop where
  /-- If it ends, it has appended the blocks of the range in order, and flushed them all, so that
  the writer is ready for the next range. -/
  ok : ∀ result, r = .ok result → result = latestBlock + 1 ∧
    List.Forall₂ (fun number block => read number = .ok block)
      (List.range' nextBlock (latestBlock + 1 - nextBlock)) (appended s.history) ∧
    (appended s.history).map QueryWriterBlock.blockNumber =
      List.range' nextBlock (latestBlock + 1 - nextBlock) ∧
    appended s.history = flushed s.history ∧ s.writer.pending = []
  /-- No flush is too large. -/
  covers : ∀ blocks succeeded, Event.flush blocks succeeded ∈ s.history →
    blocks.length ≤ flushEveryBlocks
  /-- If it returns an error, a flushed block precedes all blocks of the range that are not
  flushed, among them the appended ones that wait. -/
  error : ∀ e, r = .error (.error e) →
    appended s.history = flushed s.history ++ s.writer.pending ∧
    (appended s.history).map QueryWriterBlock.blockNumber =
      List.range' nextBlock (appended s.history).length ∧
    ∀ block ∈ flushed s.history, ∀ number, nextBlock ≤ number →
      number ∉ (flushed s.history).map QueryWriterBlock.blockNumber → block.blockNumber < number

/-- The numbers of blocks that were read one after the other. -/
theorem map_blockNumber_of_reads {read : ℕ → Except ε QueryWriterBlock}
    (hread : ∀ number block, read number = .ok block → block.blockNumber = number)
    {numbers : List ℕ} {blocks : List QueryWriterBlock}
    (h : List.Forall₂ (fun number block => read number = .ok block) numbers blocks) :
    blocks.map QueryWriterBlock.blockNumber = numbers := by
  induction h with
  | nil => rfl
  | @cons number block numbers blocks hblock _ ih =>
    rw [List.map_cons, hread number block hblock, ih]

/-- **The indexer ends, and keeps its promises**, for every reader that gives the block of a number
under that number or fails, and whatever happens to the flushes. -/
theorem indexRange_spec (ext : Externals) (read : ℕ → Except ε QueryWriterBlock)
    (nextBlock latestBlock fetchConcurrency fetchBatchSize flushEveryBlocks : ℕ) (w : QueryWriter)
    (t : Tables) (faults : List (List Fault)) (hle : nextBlock ≤ latestBlock)
    (hconcurrency : 0 < fetchConcurrency) (hbatch : 0 < fetchBatchSize)
    (hbatch64 : fetchBatchSize < 2 ^ 64) (hflush : 0 < flushEveryBlocks)
    (hread : ∀ number block, read number = .ok block → block.blockNumber = number)
    (hpending : w.pending = []) :
    ∃ r s, (∀ fuel, latestBlock + 1 - nextBlock < fuel →
        indexRange ext read latestBlock fetchConcurrency fetchBatchSize flushEveryBlocks fuel w t
          faults nextBlock = some (r, s)) ∧
      IndexesRange read nextBlock latestBlock flushEveryBlocks r s := by
  have hready : Indexer.Ready read nextBlock flushEveryBlocks
      ⟨nextBlock, 0, w, t, faults, []⟩ := by
    refine ⟨⟨.nil, fun _ _ hmem => absurd hmem List.not_mem_nil⟩, ?_, rfl, ?_, hflush⟩
    · rw [Indexer.Split, appended_nil, flushed_nil, hpending]
      rfl
    · rw [hpending]
      rfl
  obtain ⟨r, s, hrun, hends⟩ := hready.loop hconcurrency (hle.trans (Nat.le_succ _)) le_rfl
  refine ⟨r, s, fun fuel hfuel => ?_, ?_⟩
  · obtain ⟨fuel, rfl⟩ := Nat.exists_eq_add_of_le' (Nat.one_le_of_lt hfuel)
    rw [indexRange, if_neg hbatch.ne', if_neg hflush.ne', if_neg (Nat.not_le.mpr hbatch64)]
    exact hrun fuel (Nat.lt_succ_iff.mp hfuel)
  · have hkept : s.Kept read nextBlock flushEveryBlocks := by
      rcases r with (e | message) | result
      · exact hends.1
      · exact hends
      · exact hends.1
    have hnumbers := map_blockNumber_of_reads hread hkept.reads
    refine ⟨?_, hkept.covers, ?_⟩
    · rintro result rfl
      obtain ⟨-, hresult, hlength, hflushed, hnil⟩ := hends
      have hreads := hkept.reads
      rw [hlength] at hreads hnumbers
      exact ⟨hresult, hreads, hnumbers, hflushed, hnil⟩
    · rintro e rfl
      have hsplit : appended s.history = flushed s.history ++ s.writer.pending := hends.2
      refine ⟨hsplit, hnumbers, fun block hblock number hge hnumber => ?_⟩
      -- The numbers of the flushed blocks are the first ones of the range.
      have hfirst : (flushed s.history).map QueryWriterBlock.blockNumber =
          List.range' nextBlock (flushed s.history).length := by
        have happend : (flushed s.history).map QueryWriterBlock.blockNumber ++
            s.writer.pending.map QueryWriterBlock.blockNumber =
            List.range' nextBlock (flushed s.history).length ++
              List.range' (nextBlock + (flushed s.history).length) s.writer.pending.length := by
          rw [← List.map_append, ← hsplit, hnumbers, hsplit, List.length_append,
            List.range'_append_1]
        exact List.append_inj_left happend (by rw [List.length_map, List.length_range'])
      have hmem : block.blockNumber ∈
          (flushed s.history).map QueryWriterBlock.blockNumber := List.mem_map_of_mem hblock
      rw [hfirst] at hmem hnumber
      obtain ⟨-, hlt⟩ := List.mem_range'_1.mp hmem
      by_contra hcon
      exact hnumber (List.mem_range'_1.mpr ⟨hge, by omega⟩)

/-- A reader of sample blocks. -/
def readSample (number : ℕ) : Except String QueryWriterBlock :=
  if number < 2 ^ 64 then .ok (QueryWriterBlock.sample number 0) else .error "no such block"

theorem blockNumber_of_readSample {number : ℕ} {block : QueryWriterBlock}
    (h : readSample number = .ok block) : block.blockNumber = number := by
  unfold readSample at h
  split_ifs at h with hlt
  rw [← Except.ok.inj h, QueryWriterBlock.blockNumber, QueryWriterBlock.sample,
    UInt64.toNat_ofNat', Nat.mod_eq_of_lt hlt]

theorem indexRange_spec_sample :
    ∃ r s, (∀ fuel, 1 + 1 - 0 < fuel →
        indexRange Externals.sample readSample 1 4 1 2 fuel ⟨StateIndex.default, none, []⟩
          Tables.empty [] 0 = some (r, s)) ∧
      IndexesRange readSample 0 1 2 r s :=
  indexRange_spec Externals.sample readSample 0 1 4 1 2 ⟨StateIndex.default, none, []⟩ Tables.empty
    [] (by decide) (by decide) (by decide) (by decide) (by decide)
    (fun _ _ h => blockNumber_of_readSample h) rfl

end Query

end MonadServices
