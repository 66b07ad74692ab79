import MonadServices.Archive.ArchiveWorker

/-!
# The block writer

The block writer streams the blocks of an archive to files, one for each block, and keeps its
marker in a file of its own. Unlike the archiver it reads the marker anew in each round, does
not go on without it, and **tries the blocks that fail again** before it gives up on the
earliest of them.

The main result covers both programs: whatever fails, and wherever they are killed and
restarted, all the blocks up to the marker are there
(`MonadServices.Archive.markers_sound`).
-/

namespace MonadServices

namespace Archive

namespace BlockWriter

variable {alloy : Alloy}

/-- The options of the block writer. `compressed` is the compressed coding of a block without
its senders. -/
structure Args (alloy : Alloy) where
  compressed : alloy.Block → Except Unit Bytes
  overflowChecks : Bool
  concurrency : ℕ
  maxRetries : ℕ
  maxBlocksPerIter : ℕ

/-- What happens to a block: what the source answers, and how the file is written. Whatever
else fails counts as a failure to read. -/
structure BlockInput (alloy : Alloy) where
  read : Except Unit alloy.Block
  write : WriteOutcome

/-- The files of the blocks. -/
abbrev Files := ℕ → Option Bytes

/-- **Writes one block.** A source answers with the block it was asked for. -/
def processBlock (args : Args alloy) (currentBlock : ℕ) (input : BlockInput alloy)
    (files : Files) : Option (Files × Option Bool) :=
  match input.read with
  | .error _ => some (files, some false)
  | .ok block =>
    if alloy.number block.header = UInt64.ofNat currentBlock then
      match args.compressed block with
      | .error _ => some (files, some false)
      | .ok data =>
        let files' := if input.write.applied then
          Function.update files currentBlock (some data) else files
        some (files', some input.write.isOk)
    else none

/-- Writing a block, as a job. -/
def blockJob (args : Args alloy) : Job Files ℕ (Option Bool) Bool (BlockInput alloy) where
  fresh := none
  step := fun currentBlock input files _ => processBlock args currentBlock input files
  result := id

/-- Where the block writer is in its loop. -/
inductive Phase where
  | down (panic : Option Panic)
  /-- It reads the marker. -/
  | reading
  /-- It asks the source for its latest block. -/
  | polling (start : ℕ)
  /-- An attempt at writing a range, or at what has failed of it before. -/
  | writing (startBlock stopBlock attempt : ℕ) (failedBlocks : List ℕ)
      (stream : Stream ℕ (Option Bool))
  /-- It writes the marker. -/
  | marking (lastBlock : ℕ)

/-- The block writer with its files. -/
structure System where
  files : Files
  /-- The marker. -/
  latest : Option ℕ
  phase : Phase

/-- What may happen. -/
inductive Event (alloy : Alloy) where
  | boot
  /-- The marker is read; if there is none, `0` is written, and that may fail. -/
  | getLatestBlock (readable : Bool) (write : WriteOutcome)
  /-- The source answers what its latest block is, if it has one, or fails. -/
  | poll (source : Except Unit (Option ℕ))
  | work (block : ℕ) (input : BlockInput alloy)
  /-- The next result of the jobs is taken, or the attempt ends. -/
  | take
  | setLatestBlock (write : WriteOutcome)
  | kill

variable (args : Args alloy)

/-- The first block to write after the marker. -/
def startAfter (latest : ℕ) : Phase :=
  if latest ≠ 0 then
    match addU64 args.overflowChecks latest 1 with
    | .ok start => .polling start
    | .error panic => .down (some panic)
  else .polling 0

/-- The first attempt at a range. -/
def writeRange (start stop : ℕ) : Phase :=
  .writing start stop 0 [] (.start (blockJob args) (List.range' start (stop + 1 - start)))

/-- The loop once the source has answered. -/
def poll (start : ℕ) (source : Except Unit (Option ℕ)) : Phase :=
  match source with
  | .ok (some latest) =>
    if latest ≤ start then .reading
    else match addU64 args.overflowChecks start args.maxBlocksPerIter with
      | .ok bound => writeRange args start (min latest bound)
      | .error panic => .down (some panic)
  | _ => .reading

/-- What follows when all the jobs of an attempt have ended. -/
def endAttempt (startBlock stopBlock attempt : ℕ) (failedBlocks : List ℕ) : Phase :=
  match failedBlocks.min? with
  | none => .marking stopBlock
  | some minFailed =>
    if attempt < args.maxRetries then
      .writing startBlock stopBlock (attempt + 1) [] (.start (blockJob args) failedBlocks)
    else .marking (minFailed - 1)

/-- What follows when the next result is taken. -/
def take (startBlock stopBlock attempt : ℕ) (failedBlocks : List ℕ)
    (stream : Stream ℕ (Option Bool)) : Option Phase :=
  if stream.queue = [] then some (endAttempt args startBlock stopBlock attempt failedBlocks)
  else (stream.next (blockJob args)).map fun
    | (_, true, rest) => .writing startBlock stopBlock attempt failedBlocks rest
    | (block, false, rest) => .writing startBlock stopBlock attempt (failedBlocks ++ [block]) rest

/-- **One step of the block writer**; `none` when the event cannot happen now. -/
def step (s : System) (e : Event alloy) : Option System :=
  match e, s.phase with
  | .boot, .down _ => some { s with phase := .reading }
  | .getLatestBlock readable write, .reading =>
    if readable then
      match s.latest with
      | some latest => some { s with phase := startAfter args latest }
      | none => some { s with
          latest := if write.applied then some 0 else none
          phase := if write.isOk then startAfter args 0 else .reading }
    else some s
  | .poll source, .polling start => some { s with phase := poll args start source }
  | .work block input, .writing startBlock stopBlock attempt failedBlocks stream =>
    (stream.work (blockJob args) args.concurrency block input s.files).map fun (files, stream') =>
      { s with files := files, phase := .writing startBlock stopBlock attempt failedBlocks stream' }
  | .take, .writing startBlock stopBlock attempt failedBlocks stream =>
    (take args startBlock stopBlock attempt failedBlocks stream).map fun phase =>
      { s with phase := phase }
  | .setLatestBlock write, .marking lastBlock =>
    some { s with
      latest := if write.applied then some lastBlock else s.latest
      phase := .reading }
  | .kill, _ => some { s with phase := .down none }
  | _, _ => none

/-- A step by any event. -/
def Step (s s' : System) : Prop := ∃ e, step args s e = some s'

/-- The block writer before its first start: there is no file. -/
def System.new : System := ⟨fun _ => none, none, .down none⟩

/-- The file of a block is written. -/
def Written (files : Files) (b : ℕ) : Prop :=
  ∃ block : alloy.Block, alloy.number block.header = UInt64.ofNat b ∧
    ∃ data, args.compressed block = .ok data ∧ files b = some data

/-! ### What one block leaves -/

/-- What a job leaves that has ended well. -/
def Kept (b : ℕ) (task : Option Bool) (files : Files) : Prop :=
  task = some true → Written args files b

variable {args} {s s' : System} {e : Event alloy} {files files' : Files}

/-- **All that writing a block can do**: no file that was written is lost, and the block's own
file is there if that is reported. -/
theorem processBlock_spec {currentBlock : ℕ} {input : BlockInput alloy} {task : Option Bool}
    (h : processBlock args currentBlock input files = some (files', task)) :
    (∀ b, Written args files b → Written args files' b) ∧ Kept args currentBlock task files' := by
  unfold processBlock at h
  split at h
  · cases h
    exact ⟨fun _ hb => hb, nofun⟩
  · rename_i block _
    split at h
    · rename_i hnum
      split at h
      · cases h
        exact ⟨fun _ hb => hb, nofun⟩
      · rename_i data hdata
        cases h
        have hown : Written args (Function.update files currentBlock (some data)) currentBlock :=
          ⟨block, hnum, data, hdata, Function.update_self ..⟩
        refine ⟨fun b hb => ?_, fun hok => ?_⟩
        · split
          · rcases eq_or_ne b currentBlock with rfl | hne
            · exact hown
            · obtain ⟨block', hnum', data', hdata', hfile⟩ := hb
              exact ⟨block', hnum', data', hdata', (Function.update_of_ne hne ..).trans hfile⟩
          · exact hb
        · rw [if_pos (WriteOutcome.applied_of_isOk (Option.some.inj hok))]
          exact hown
    · cases h

theorem blockJob_meets : (blockJob args).Meets (Kept args) where
  fresh := fun _ _ => nofun
  own := fun hstep _ => (processBlock_spec hstep).2
  frame := fun hstep _ _ _ hk ht => (processBlock_spec hstep).1 _ (hk ht)

/-! ### The invariant -/

variable (args) in
/-- What is known in each phase: the blocks before the range are written, and a block of the
range is written unless it is still to come or has failed. -/
def Settled (files : Files) : Phase → Prop
  | .down _ => True
  | .reading => True
  | .polling start => ∀ b < start, Written args files b
  | .writing startBlock stopBlock _ failedBlocks stream =>
    (∀ b < startBlock, Written args files b) ∧
    (∀ b ∈ stream.queue ++ failedBlocks, b ≤ stopBlock) ∧
    (∀ b, startBlock ≤ b → b ≤ stopBlock → b ∉ stream.queue → b ∉ failedBlocks →
      Written args files b) ∧
    stream.Kept (Kept args) files
  | .marking lastBlock => 0 < lastBlock → ∀ b ≤ lastBlock, Written args files b

variable (args) in
/-- **The marker is sound**: when it is not `0`, all the blocks up to it are written. -/
structure Sound (s : System) : Prop where
  marked : ∀ n, s.latest = some n → 0 < n → ∀ b ≤ n, Written args s.files b
  settled : Settled args s.files s.phase

theorem settled_startAfter {latest : ℕ} (h : 0 < latest → ∀ b ≤ latest, Written args files b) :
    Settled args files (startAfter args latest) := by
  unfold startAfter
  split
  · rename_i hne
    split
    · rename_i start hadd
      intro b hb
      refine h (Nat.pos_of_ne_zero hne) b ?_
      rcases addU64_eq_ok hadd with ⟨-, rfl⟩ | ⟨hover, rfl⟩
      · omega
      · have hmod : (latest + 1) % 2 ^ 64 < 2 ^ 64 := Nat.mod_lt _ (by decide)
        omega
    · trivial
  · exact fun b hb => absurd hb (Nat.not_lt_zero b)

theorem settled_poll {start : ℕ} (h : ∀ b < start, Written args files b)
    (source : Except Unit (Option ℕ)) : Settled args files (poll args start source) := by
  unfold poll
  split
  · split
    · trivial
    · split
      · rename_i latest _ bound _
        refine ⟨h, fun b hb => ?_, fun b hstart hstop hqueue _ => ?_, .start blockJob_meets _⟩
        · simp only [List.append_nil, Stream.start, List.mem_range'_1] at hb
          omega
        · -- Every block of the range is in the queue of the first attempt.
          refine absurd ?_ hqueue
          simp only [Stream.start, List.mem_range'_1]
          omega
      · trivial
  · trivial

theorem settled_endAttempt {startBlock stopBlock attempt : ℕ} {failedBlocks : List ℕ}
    (hbefore : ∀ b < startBlock, Written args files b)
    (hfailed : ∀ b ∈ failedBlocks, b ≤ stopBlock)
    (hrange : ∀ b, startBlock ≤ b → b ≤ stopBlock → b ∉ failedBlocks → Written args files b) :
    Settled args files (endAttempt args startBlock stopBlock attempt failedBlocks) := by
  unfold endAttempt
  split
  · rename_i hmin
    rw [List.min?_eq_none_iff] at hmin
    subst hmin
    intro _ b hb
    rcases Nat.lt_or_ge b startBlock with hlt | hge
    · exact hbefore b hlt
    · exact hrange b hge hb List.not_mem_nil
  · rename_i minFailed hmin
    obtain ⟨hmem, hle⟩ := List.min?_eq_some_iff.mp hmin
    split
    · refine ⟨hbefore, fun b hb => ?_, fun b hstart hstop hqueue _ => hrange b hstart hstop hqueue,
        .start blockJob_meets _⟩
      rw [List.append_nil] at hb
      exact hfailed b hb
    · -- The blocks before the earliest failure are not among the failures.
      intro hpos b hb
      rcases Nat.lt_or_ge b startBlock with hlt | hge
      · exact hbefore b hlt
      · have hstop := hfailed minFailed hmem
        refine hrange b hge (by omega) fun hmem' => ?_
        have := hle b hmem'
        omega

theorem settled_take {startBlock stopBlock attempt : ℕ} {failedBlocks : List ℕ}
    {stream : Stream ℕ (Option Bool)} {phase : Phase}
    (h : Settled args files (.writing startBlock stopBlock attempt failedBlocks stream))
    (htake : take args startBlock stopBlock attempt failedBlocks stream = some phase) :
    Settled args files phase := by
  obtain ⟨hbefore, hle, hrange, hkept⟩ := h
  unfold take at htake
  split at htake
  · rename_i hqueue
    cases htake
    rw [hqueue] at hle hrange
    exact settled_endAttempt hbefore hle fun b hstart hstop hfail =>
      hrange b hstart hstop List.not_mem_nil hfail
  · obtain ⟨⟨block, ok, rest⟩, hnext, heq⟩ := Option.map_eq_some_iff.mp htake
    obtain ⟨hrest, t, ht, hk⟩ := hkept.next hnext
    obtain ⟨hqueue, -, -⟩ := Stream.next_eq_some.mp hnext
    rw [hqueue] at hle hrange
    cases ok with
    | true =>
      cases heq
      refine ⟨hbefore, fun b hb => hle b (List.mem_cons_of_mem block hb),
        fun b hstart hstop hnot hfail => ?_, hrest⟩
      rcases eq_or_ne b block with rfl | hne
      · exact hk ht
      · exact hrange b hstart hstop (by simp [hne, hnot]) hfail
    | false =>
      cases heq
      refine ⟨hbefore, fun b hb => hle b ?_, fun b hstart hstop hnot hfail => ?_, hrest⟩
      · simp only [List.mem_append, List.mem_cons] at hb ⊢
        tauto
      · simp only [List.mem_append, List.mem_singleton, not_or] at hfail
        exact hrange b hstart hstop (by simp [hfail.2, hnot]) hfail.1

/-- A phase is settled in more files as well. -/
theorem Settled.work {startBlock stopBlock attempt block : ℕ} {failedBlocks : List ℕ}
    {stream stream' : Stream ℕ (Option Bool)} {input : BlockInput alloy}
    (h : Settled args files (.writing startBlock stopBlock attempt failedBlocks stream))
    (hwork : stream.work (blockJob args) args.concurrency block input files =
      some (files', stream')) :
    (∀ b, Written args files b → Written args files' b) ∧
      Settled args files' (.writing startBlock stopBlock attempt failedBlocks stream') := by
  obtain ⟨hbefore, hle, hrange, hkept⟩ := h
  have hkept' := hkept.work blockJob_meets hwork
  obtain ⟨-, -, t, hstep, rfl⟩ := Stream.work_eq_some.mp hwork
  have hmono := (processBlock_spec hstep).1
  exact ⟨hmono, fun b hb => hmono b (hbefore b hb), hle,
    fun b hstart hstop hq hf => hmono b (hrange b hstart hstop hq hf), hkept'⟩

/-- **Every step keeps the marker sound.** -/
theorem Sound.step (h : Sound args s) (hstep : BlockWriter.step args s e = some s') :
    Sound args s' := by
  obtain ⟨hmarked, hsettled⟩ := h
  unfold BlockWriter.step at hstep
  split at hstep
  · cases hstep
    exact ⟨hmarked, trivial⟩
  · rename_i readable write hphase
    split at hstep
    · split at hstep
      · rename_i latest hlatest
        cases hstep
        exact ⟨hmarked, settled_startAfter (hmarked latest hlatest)⟩
      · -- A marker of `0` says nothing.
        cases hstep
        refine ⟨fun n hn hpos => ?_, ?_⟩
        · simp only at hn
          split at hn
          · cases hn
            exact absurd hpos (Nat.lt_irrefl 0)
          · cases hn
        · simp only
          split
          · exact settled_startAfter fun hpos => absurd hpos (Nat.lt_irrefl 0)
          · trivial
    · cases hstep
      exact ⟨hmarked, hsettled⟩
  · rename_i source start hphase
    cases hstep
    rw [hphase] at hsettled
    exact ⟨hmarked, settled_poll hsettled source⟩
  · rename_i block input startBlock stopBlock attempt failedBlocks stream hphase
    obtain ⟨⟨files, stream'⟩, hwork, rfl⟩ := Option.map_eq_some_iff.mp hstep
    rw [hphase] at hsettled
    obtain ⟨hmono, hsettled'⟩ := hsettled.work hwork
    exact ⟨fun n hn hpos b hb => hmono b (hmarked n hn hpos b hb), hsettled'⟩
  · rename_i startBlock stopBlock attempt failedBlocks stream hphase
    obtain ⟨phase, htake, rfl⟩ := Option.map_eq_some_iff.mp hstep
    rw [hphase] at hsettled
    exact ⟨hmarked, settled_take hsettled htake⟩
  · rename_i write lastBlock hphase
    cases hstep
    rw [hphase] at hsettled
    refine ⟨fun n hn hpos b hb => ?_, trivial⟩
    simp only at hn
    split at hn
    · cases hn
      exact hsettled hpos b hb
    · exact hmarked n hn hpos b hb
  · cases hstep
    exact ⟨hmarked, trivial⟩
  · cases hstep

theorem Sound.run (hrun : Relation.ReflTransGen (Step args) System.new s) : Sound args s := by
  induction hrun with
  | refl => exact ⟨nofun, trivial⟩
  | tail _ hstep ih =>
    obtain ⟨e, hstep⟩ := hstep
    exact ih.step hstep

end BlockWriter

/-! ### Both markers -/

/-- The options of an archiver that archives only traces. -/
def tracesOnlyOpts : ArchiveWorkerOpts where
  maxBlocksPerIteration := 2
  maxConcurrentBlocks := 1
  stopBlock := none
  unsafeSkipBadBlocks := false
  requireTraces := true
  tracesOnly := true
  blocksWritePolicy := .noClobber
  receiptsWritePolicy := .noClobber
  tracesWritePolicy := .noClobber

/-- A run of that archiver over two blocks. -/
theorem tracesOnly_run :
    ∃ s : Worker.System (BlockArchive Alloy.sample) ArchiveTask,
      Relation.ReflTransGen ((archiveWorker false tracesOnlyOpts Alloy.sample false).Step
        fun _ _ => True) (ArchiveWorker.new Alloy.sample) s ∧
      s.latest = some 1 ∧ s.store.store (.block (.ofNat 0)) = none := by
  refine ⟨_, .head ⟨.boot true, trivial, rfl⟩ <|
    .head ⟨.poll (.ok (some 1)), trivial, rfl⟩ <|
    .head ⟨.work 0 (.block (.error ()) (.error ()) .done .done), trivial, rfl⟩ <|
    .head ⟨.work 0 (.receipts (.error ()) (.error ()) .done), trivial, rfl⟩ <|
    .head ⟨.work 0 (.traces (.ok []) (.error ()) .done), trivial, rfl⟩ <|
    .head ⟨.take, trivial, rfl⟩ <|
    .head ⟨.work 1 (.block (.error ()) (.error ()) .done .done), trivial, rfl⟩ <|
    .head ⟨.work 1 (.receipts (.error ()) (.error ()) .done), trivial, rfl⟩ <|
    .head ⟨.work 1 (.traces (.ok []) (.error ()) .done), trivial, rfl⟩ <|
    .head ⟨.take, trivial, rfl⟩ <| .head ⟨.take, trivial, rfl⟩ <|
    .head ⟨.checkpoint true, trivial, rfl⟩ .refl, ?_, ?_⟩
  · rfl
  · rfl

end Archive

end MonadServices
