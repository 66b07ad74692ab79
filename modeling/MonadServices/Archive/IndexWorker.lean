import MonadServices.Archive.ArchiveWorker

/-!
# The indexer

The indexer follows the archive as the archiver follows the chain, and differs from it in two
places. A source without a latest block makes it panic, and when a block fails it takes the
block before it by a plain subtraction: **a failure of block `0` is an underflow**, which
panics in one build and in the other writes the largest number there is to the marker.

Without such a failure its marker is sound, and its arithmetic stays in range as long as the
bounds of its ranges and the numbers of transactions do
(`MonadServices.Archive.index_marker_sound`). Both workers start over from block `0` when they
cannot read their marker, and then take it back; and a write of the marker that is torn leaves a
smaller one. These are the other things that have to go well for the markers never to decrease
(`MonadServices.Archive.markers_never_decrease`).
-/

namespace MonadServices

namespace Archive

/-- What happens to a block: what the source and the fallback source answer, with the number of
transactions they give, and whether the two indexes take it. -/
structure HandleInput where
  data : Except Unit ℕ
  fallbackData : Except Unit ℕ
  txsIndexed : Bool
  logsIndexed : Bool

/-- The options of the indexer. -/
structure IndexWorkerOpts where
  hasFallback : Bool
  hasLogIndex : Bool
  maxBlocksPerIteration : ℕ
  maxConcurrentBlocks : ℕ
  stopBlock : Option ℕ

/-- **Indexes one block**, and gives the number of its transactions. -/
def handleBlock (opts : IndexWorkerOpts) (input : HandleInput) : Except Unit ℕ := do
  let numTxs ← readWith opts.hasFallback input.data input.fallbackData
  if ¬input.txsIndexed then .error ()
  else if opts.hasLogIndex ∧ ¬input.logsIndexed then .error ()
  else return numTxs

/-- The blocks for which `handle_block` has returned `Ok`. -/
abbrev Handled := ℕ → Bool

/-- Indexing a block, as a job. -/
def indexJob (opts : IndexWorkerOpts) :
    Job Handled ℕ (Option (Except Unit ℕ)) (Except Unit ℕ) HandleInput where
  fresh := none
  step := fun blockNum input handled _ =>
    match handleBlock opts input with
    | .ok numTxs => some (Function.update handled blockNum true, some (.ok numTxs))
    | .error e => some (handled, some (.error e))
  result := id

/-- **The indexer.** -/
def indexWorker (opts : IndexWorkerOpts) (overflowChecks : Bool) :
    Worker Handled (Option (Except Unit ℕ)) HandleInput where
  job := indexJob opts
  overflowChecks := overflowChecks
  maxBlocksPerIteration := opts.maxBlocksPerIteration
  maxConcurrentBlocks := opts.maxConcurrentBlocks
  stopBlock := opts.stopBlock
  -- `number.unwrap()`
  noLatest := .error .unwrapNone
  noLatest_eq := nofun
  -- `err_block - 1`
  before := fun errBlock => subtractU64 overflowChecks errBlock 1
  before_succ := fun b => if_pos (Nat.le_add_left 1 b)

/-- The indexer before its first start. -/
def IndexWorker.new : Worker.System Handled (Option (Except Unit ℕ)) :=
  ⟨fun _ => false, none, .down none⟩

section Sound

variable {opts : IndexWorkerOpts} {overflowChecks : Bool}

/-- What a job leaves that has ended well. -/
def HandledBy (blockNum : ℕ) (task : Option (Except Unit ℕ)) (handled : Handled) : Prop :=
  ∀ n, task = some (.ok n) → handled blockNum = true

theorem indexJob_spec {blockNum : ℕ} {input : HandleInput} {handled handled' : Handled}
    {task task' : Option (Except Unit ℕ)}
    (h : (indexJob opts).step blockNum input handled task = some (handled', task')) :
    (∀ b, handled b = true → handled' b = true) ∧ HandledBy blockNum task' handled' := by
  simp only [indexJob] at h
  split at h
  · cases h
    refine ⟨fun b hb => ?_, fun _ _ => Function.update_self ..⟩
    rcases eq_or_ne b blockNum with rfl | hne
    · exact Function.update_self ..
    · rw [Function.update_of_ne hne]
      exact hb
  · cases h
    exact ⟨fun _ hb => hb, nofun⟩

theorem indexJob_meets : (indexJob opts).Meets HandledBy where
  fresh := fun _ _ => nofun
  own := fun hstep _ => (indexJob_spec hstep).2
  frame := fun hstep _ _ _ hk n ht => (indexJob_spec hstep).1 _ (hk n ht)

theorem indexJob_lasting : (indexWorker opts overflowChecks).Lasting HandledBy :=
  fun hstep _ _ hk n ht => (indexJob_spec hstep).1 _ (hk n ht)

/-! ### The arithmetic of the indexer -/

variable (opts overflowChecks) in
/-- The condition on the steps: the bound of a range fits in `u64` when the worker comes to it, and
so does the number of transactions of the blocks that are taken; and block `0`, if it is one of
them, has not failed. -/
def IndexWorker.InRange (s : Worker.System Handled (Option (Except Unit ℕ))) :
    Worker.Event HandleInput → Prop
  | .poll source => ∀ startBlock n, s.phase = .polling startBlock → source = .ok (some n) →
      (∀ stopBlock ∈ opts.stopBlock, startBlock ≤ stopBlock) →
      startBlock + opts.maxBlocksPerIteration < 2 ^ 64
  | .take => ¬(indexWorker opts overflowChecks).FirstFails s ∧
      ∀ endBlock total stream block n rest, s.phase = .running endBlock total stream →
        stream.next (indexJob opts) = some (block, .ok n, rest) → total + n < 2 ^ 64
  | _ => True

theorem addU64_of_lt {a b : ℕ} (h : a + b < 2 ^ 64) : addU64 overflowChecks a b = .ok (a + b) :=
  if_pos h

theorem startAfter_ne_overflow {latest : ℕ} (h : latest + 1 < 2 ^ 64) :
    (indexWorker opts overflowChecks).startAfter latest ≠ .down (some .overflow) := by
  unfold Worker.startAfter
  split
  · nofun
  · have hadd : addU64 (indexWorker opts overflowChecks).overflowChecks latest 1 =
        .ok (latest + 1) := addU64_of_lt h
    rw [hadd]
    nofun

theorem settle_ne_overflow {latest : ℕ} (h : latest + 1 < 2 ^ 64) :
    (indexWorker opts overflowChecks).settle latest ≠ .down (some .overflow) := by
  unfold Worker.settle
  split
  · nofun
  · exact startAfter_ne_overflow h

theorem poll_ne_overflow {startBlock : ℕ} (source : Except Unit (Option ℕ))
    (hmax : 1 ≤ opts.maxBlocksPerIteration)
    (h : ∀ n, source = .ok (some n) → (∀ stopBlock ∈ opts.stopBlock, startBlock ≤ stopBlock) →
      startBlock + opts.maxBlocksPerIteration < 2 ^ 64) :
    (indexWorker opts overflowChecks).poll startBlock source ≠ .down (some .overflow) := by
  unfold Worker.poll
  intro hdown
  split at hdown
  · cases hdown
  · rename_i number
    split at hdown
    · rename_i panic hlatest
      cases number with
      | none =>
        cases hlatest
        cases hdown
      | some n => cases hlatest
    · rename_i latestSource hlatest
      split at hdown
      · cases hdown
      · rename_i hstop
        cases number with
        | none => cases hlatest
        | some n =>
          have hsum := h n rfl fun stopBlock hmem =>
            Nat.not_lt.mp fun hlt => hstop ⟨stopBlock, hmem, hlt⟩
          have hbound : (addU64 overflowChecks startBlock opts.maxBlocksPerIteration >>= fun sum =>
              subtractU64 overflowChecks sum 1) =
              .ok (startBlock + opts.maxBlocksPerIteration - 1) := by
            rw [addU64_of_lt hsum]
            exact if_pos (by omega)
          simp only [indexWorker, hbound] at hdown
          split at hdown <;> cases hdown

variable {s s' : Worker.System Handled (Option (Except Unit ℕ))} {e : Worker.Event HandleInput}
  {bound : ℕ}

/-- **A step in range does not overflow**, in a worker that is below its source. -/
theorem step_ne_overflow (hmax : 1 ≤ opts.maxBlocksPerIteration) (hbound : bound < 2 ^ 64)
    (hpos : 0 < bound) (hb : Worker.Bounded bound s)
    (hrange : IndexWorker.InRange opts overflowChecks s e)
    (hstep : (indexWorker opts overflowChecks).step s e = some s') :
    s'.phase ≠ .down (some .overflow) := by
  rcases Worker.step_cases hstep with ⟨panic, readable, -, hphase, rfl⟩ |
    ⟨startBlock, source, rfl, hphase, rfl⟩ |
    ⟨block, input, endBlock, total, stream, store, stream', -, hphase, hwork, rfl⟩ |
    ⟨endBlock, total, stream, phase, rfl, hphase, htake, rfl⟩ |
    ⟨applied, latest, -, hphase, rfl⟩ | ⟨lost, latest, -, hphase, rfl⟩ | ⟨-, rfl⟩
  · refine startAfter_ne_overflow ?_
    cases readable with
    | false => exact show 0 + 1 < 2 ^ 64 by decide
    | true =>
      cases hlatest : s.latest with
      | none => decide
      | some n =>
        have hn := hb.marked n hlatest
        simp only [if_true, Option.getD_some]
        omega
  · exact poll_ne_overflow source hmax fun n => hrange startBlock n hphase
  · nofun
  · have hend := hb.running _ _ _ hphase
    have hbefore := hb.before
    rw [hphase] at hbefore
    rcases Worker.take_cases htake with ⟨-, rfl⟩ | ⟨block, n, rest, hnext, hres⟩ |
      ⟨block, rest, hnext, hres⟩
    · exact settle_ne_overflow (by omega)
    · rcases hres with ⟨total', -, rfl⟩ | ⟨panic, hadd, rfl⟩
      · nofun
      · -- The sum of the transactions fits.
        have hsum := hrange.2 _ _ _ _ _ _ hphase hnext
        have hok : addU64 (indexWorker opts overflowChecks).overflowChecks total n =
            .ok (total + n) := addU64_of_lt hsum
        rw [hok] at hadd
        cases hadd
    · cases block with
      | zero => exact absurd ⟨endBlock, total, stream, rest, hphase, hnext⟩ hrange.1
      | succ b =>
        obtain ⟨hle, -, -⟩ := hbefore.next hnext
        rcases hres with ⟨latest, hlatest, rfl⟩ | ⟨panic, hlatest, rfl⟩
        · rw [Worker.before_succ, Except.ok.injEq] at hlatest
          exact settle_ne_overflow (by omega)
        · rw [Worker.before_succ] at hlatest
          cases hlatest
  · have hle : latest + 1 ≤ bound := by
      have hbefore := hb.before
      rw [hphase] at hbefore
      exact hbefore
    exact startAfter_ne_overflow (by omega)
  · have hle : latest + 1 ≤ bound := by
      have hbefore := hb.before
      rw [hphase] at hbefore
      exact hbefore
    exact startAfter_ne_overflow (by omega)
  · nofun

/-- **The indexer's marker is sound and its arithmetic exact**, in every run on a source with
less than `2 ^ 63` blocks whose steps are all in range. -/
theorem index_marker_sound (hmax : 1 ≤ opts.maxBlocksPerIteration)
    (hrun : Relation.ReflTransGen ((indexWorker opts overflowChecks).Step fun s e =>
      e.Below (2 ^ 63) ∧ IndexWorker.InRange opts overflowChecks s e) IndexWorker.new s) :
    (∀ n, s.latest = some n → ∀ b ≤ n, s.store b = true) ∧
      s.phase ≠ .down (some .overflow) := by
  have hover : ∀ s : Worker.System Handled (Option (Except Unit ℕ)),
      Worker.Event.Below (2 ^ 63) (.take : Worker.Event HandleInput) ∧
        IndexWorker.InRange opts overflowChecks s .take →
      (indexWorker opts overflowChecks).StartsOver s :=
    fun s hs hfails => absurd hfails hs.2.1
  have hinit : (indexWorker opts overflowChecks).Sound HandledBy IndexWorker.new :=
    ⟨nofun, trivial, nofun⟩
  have hsound := hinit.run indexJob_meets indexJob_lasting hover hrun
  refine ⟨fun n hn b hb => ?_, ?_⟩
  · obtain ⟨task, n', hresult, hk⟩ := hsound.marked n hn b hb
    exact hk n' hresult
  · have hbounded : Worker.Bounded (2 ^ 63) s ∧ s.phase ≠ .down (some .overflow) := by
      clear hsound hinit
      induction hrun with
      | refl => exact ⟨⟨nofun, trivial, nofun⟩, nofun⟩
      | tail _ hstep ih =>
        obtain ⟨e, ⟨hbelow, hrange⟩, hstep⟩ := hstep
        refine ⟨ih.1.step (by decide) (by decide) hbelow (fun he => ?_) hstep,
          step_ne_overflow hmax (by decide) (by decide) ih.1 hrange hstep⟩
        subst he
        exact hover _ ⟨hbelow, hrange⟩
    exact hbounded.2

/-- The options of an indexer that indexes two blocks at a time. -/
def twoBlocks : IndexWorkerOpts where
  hasFallback := false
  hasLogIndex := false
  maxBlocksPerIteration := 2
  maxConcurrentBlocks := 2
  stopBlock := none

/-- A block with `numTxs` transactions that can be indexed. -/
def indexable (numTxs : ℕ) : HandleInput := ⟨.ok numTxs, .error (), true, true⟩

/-- Taking the result of a block that was indexed is in range if the sum is. -/
theorem inRange_take_of_ok {endBlock total block n : ℕ}
    {stream rest : Stream ℕ (Option (Except Unit ℕ))}
    (hphase : s.phase = .running endBlock total stream)
    (hnext : stream.next (indexJob opts) = some (block, .ok n, rest)) (hsum : total + n < 2 ^ 64) :
    IndexWorker.InRange opts overflowChecks s .take := by
  refine ⟨?_, ?_⟩
  · rintro ⟨endBlock', total', stream', rest', hphase', hnext'⟩
    rw [hphase, Worker.Phase.running.injEq] at hphase'
    obtain ⟨-, -, rfl⟩ := hphase'
    have hnext'' : stream.next (indexJob opts) = some (0, .error (), rest') := hnext'
    rw [hnext] at hnext''
    cases hnext''
  · intro endBlock' total' stream' block' n' rest' hphase' hnext'
    rw [hphase, Worker.Phase.running.injEq] at hphase'
    obtain ⟨-, rfl, rfl⟩ := hphase'
    rw [hnext] at hnext'
    cases hnext'
    exact hsum

/-- The end of a range is in range. -/
theorem inRange_take_of_nil {endBlock total : ℕ} {stream : Stream ℕ (Option (Except Unit ℕ))}
    (hphase : s.phase = .running endBlock total stream)
    (hnext : stream.next (indexJob opts) = none) :
    IndexWorker.InRange opts overflowChecks s .take := by
  refine ⟨?_, ?_⟩
  · rintro ⟨endBlock', total', stream', rest', hphase', hnext'⟩
    rw [hphase, Worker.Phase.running.injEq] at hphase'
    obtain ⟨-, -, rfl⟩ := hphase'
    have hnext'' : stream.next (indexJob opts) = some (0, .error (), rest') := hnext'
    rw [hnext] at hnext''
    cases hnext''
  · intro endBlock' total' stream' block' n' rest' hphase' hnext'
    rw [hphase, Worker.Phase.running.injEq] at hphase'
    obtain ⟨-, rfl, rfl⟩ := hphase'
    rw [hnext] at hnext'
    cases hnext'

/-- Two blocks are indexed, the second one first. -/
theorem index_marker_sound_two_blocks :
    ∃ s : Worker.System Handled (Option (Except Unit ℕ)), s.latest = some 1 ∧
      s.store 0 = true ∧ s.store 1 = true := by
  have hrun : ∃ s, s.latest = some 1 ∧ Relation.ReflTransGen
      ((indexWorker twoBlocks true).Step fun s e =>
        e.Below (2 ^ 63) ∧ IndexWorker.InRange twoBlocks true s e) IndexWorker.new s := by
    refine ⟨_, ?_, .head ⟨.boot true, ⟨trivial, trivial⟩, rfl⟩ <|
      .head ⟨.poll (.ok (some 1)), ⟨show 1 < 2 ^ 63 by decide, ?_⟩, rfl⟩ <|
      .head ⟨.work 1 (indexable 3), ⟨trivial, trivial⟩, rfl⟩ <|
      .head ⟨.work 0 (indexable 2), ⟨trivial, trivial⟩, rfl⟩ <|
      .head ⟨.take, ⟨trivial, inRange_take_of_ok rfl rfl (by decide)⟩, rfl⟩ <|
      .head ⟨.take, ⟨trivial, inRange_take_of_ok rfl rfl (by decide)⟩, rfl⟩ <|
      .head ⟨.take, ⟨trivial, inRange_take_of_nil rfl rfl⟩, rfl⟩ <|
      .head ⟨.checkpoint true, ⟨trivial, trivial⟩, rfl⟩ .refl⟩
    · rfl
    · intro startBlock n hstart _ _
      cases hstart
      decide
  obtain ⟨s, hlatest, hrun⟩ := hrun
  have hsound := (index_marker_sound (by decide) hrun).1 1 hlatest
  exact ⟨s, hlatest, hsound 0 (by decide), hsound 1 (by decide)⟩

/-- Block `0` fails, and the marker says that all the blocks there are have been indexed. -/
theorem first_failure_marks_everything :
    ¬ ∀ s, Relation.ReflTransGen ((indexWorker twoBlocks false).Step fun _ e => e.Below (2 ^ 63))
        IndexWorker.new s →
      (∀ n, s.latest = some n → ∀ b ≤ n, s.store b = true) ∧
        s.phase ≠ .down (some .overflow) := by
  intro h
  have hsound := h _ (.head ⟨.boot true, trivial, rfl⟩ <|
    .head ⟨.poll (.ok (some 0)), show 0 < 2 ^ 63 by decide, rfl⟩ <|
    .head ⟨.work 0 ⟨.error (), .error (), true, true⟩, trivial, rfl⟩ <|
    .head ⟨.take, trivial, rfl⟩ <| .head ⟨.checkpoint true, trivial, rfl⟩ .refl)
  have hzero := hsound.1 (2 ^ 64 - 1) rfl 0 (Nat.zero_le _)
  cases hzero

end Sound

/-! ### Both markers never decrease -/

/-- What a run of the archiver has to meet: the source is below the largest number there is, the
marker, if there is one, can be read at each start, and no write of it is torn. -/
def ArchiveWorker.Steady {alloy : Alloy} (s : Worker.System (BlockArchive alloy) ArchiveTask)
    (e : Worker.Event (ArchiveInput alloy)) : Prop :=
  e.Below (2 ^ 64 - 1) ∧ e.Informed s ∧ e.Whole

/-- What a run of the indexer has to meet: the same, and block `0` does not fail. -/
def IndexWorker.Steady (opts : IndexWorkerOpts) (overflowChecks : Bool)
    (s : Worker.System Handled (Option (Except Unit ℕ))) (e : Worker.Event HandleInput) : Prop :=
  e.Below (2 ^ 64 - 1) ∧ e.Informed s ∧ e.Whole ∧
    (e = .take → ¬(indexWorker opts overflowChecks).FirstFails s)

/-- **The markers never decrease**: in every run of the archiver and of the indexer whose steps
are all steady, from any marker below the largest number there is, a later marker is not
smaller. -/
theorem markers_never_decrease (alloy : Alloy) :
    (∀ (hasFallback overflowChecks : Bool) (opts : ArchiveWorkerOpts)
      (s₀ s s' : Worker.System (BlockArchive alloy) ArchiveTask), s₀.phase = .down none →
      (∀ n, s₀.latest = some n → n < 2 ^ 64 - 1) →
      Relation.ReflTransGen ((archiveWorker hasFallback opts alloy overflowChecks).Step
        ArchiveWorker.Steady) s₀ s →
      Relation.ReflTransGen ((archiveWorker hasFallback opts alloy overflowChecks).Step
        ArchiveWorker.Steady) s s' →
      s.latest.getD 0 ≤ s'.latest.getD 0) ∧
    ∀ (overflowChecks : Bool) (opts : IndexWorkerOpts)
      (s₀ s s' : Worker.System Handled (Option (Except Unit ℕ))), s₀.phase = .down none →
      (∀ n, s₀.latest = some n → n < 2 ^ 64 - 1) →
      Relation.ReflTransGen ((indexWorker opts overflowChecks).Step
        (IndexWorker.Steady opts overflowChecks)) s₀ s →
      Relation.ReflTransGen ((indexWorker opts overflowChecks).Step
        (IndexWorker.Steady opts overflowChecks)) s s' →
      s.latest.getD 0 ≤ s'.latest.getD 0 := by
  refine ⟨fun hasFallback overflowChecks opts s₀ s s' hdown hmarked hrun hrun' => ?_,
    fun overflowChecks opts s₀ s s' hdown hmarked hrun hrun' => ?_⟩
  · have hover : ∀ s, ArchiveWorker.Steady s .take →
        (archiveWorker hasFallback opts alloy overflowChecks).StartsOver s :=
      fun _ _ _ latest hbefore => (Except.ok.inj hbefore).symm
    obtain ⟨hord, hbounded, -⟩ := Worker.Ordered.run (Worker.ordered_of_down hdown)
      (Worker.bounded_of_down hdown hmarked) (by decide) (by decide) (fun _ _ hs => hs) hover hrun
    exact (hord.run hbounded (by decide) (by decide) (fun _ _ hs => hs) hover hrun').2.2
  · have hover : ∀ s, IndexWorker.Steady opts overflowChecks s .take →
        (indexWorker opts overflowChecks).StartsOver s :=
      fun _ hs hfails => absurd hfails (hs.2.2.2 rfl)
    obtain ⟨hord, hbounded, -⟩ := Worker.Ordered.run (Worker.ordered_of_down hdown)
      (Worker.bounded_of_down hdown hmarked) (by decide) (by decide)
      (fun _ _ hs => ⟨hs.1, hs.2.1, hs.2.2.1⟩) hover hrun
    exact (hord.run hbounded (by decide) (by decide) (fun _ _ hs => ⟨hs.1, hs.2.1, hs.2.2.1⟩)
      hover hrun').2.2

/-- Taking the result of a block that was indexed, or the end of a range, is steady. -/
theorem IndexWorker.Steady.take {opts : IndexWorkerOpts} {overflowChecks : Bool}
    {s : Worker.System Handled (Option (Except Unit ℕ))}
    (h : IndexWorker.InRange opts overflowChecks s .take) :
    IndexWorker.Steady opts overflowChecks s .take :=
  ⟨trivial, trivial, trivial, fun _ => h.1⟩

/-- An indexer that is killed after two blocks reads its marker and indexes the third one. -/
theorem markers_never_decrease_restart :
    ∃ s s' : Worker.System Handled (Option (Except Unit ℕ)),
      s.latest = some 1 ∧ s'.latest = some 2 ∧ s.latest.getD 0 ≤ s'.latest.getD 0 := by
  have hrun : ∃ s s' : Worker.System Handled (Option (Except Unit ℕ)),
      s.latest = some 1 ∧ s'.latest = some 2 ∧
      Relation.ReflTransGen ((indexWorker twoBlocks false).Step
        (IndexWorker.Steady twoBlocks false)) IndexWorker.new s ∧
      Relation.ReflTransGen ((indexWorker twoBlocks false).Step
        (IndexWorker.Steady twoBlocks false)) s s' := by
    refine ⟨_, _, ?_, ?_,
      .head ⟨.boot true, ⟨trivial, nofun, trivial, nofun⟩, rfl⟩ <|
      .head ⟨.poll (.ok (some 1)), ⟨show 1 < 2 ^ 64 - 1 by decide, trivial, trivial, nofun⟩, rfl⟩ <|
      .head ⟨.work 1 (indexable 3), ⟨trivial, trivial, trivial, nofun⟩, rfl⟩ <|
      .head ⟨.work 0 (indexable 2), ⟨trivial, trivial, trivial, nofun⟩, rfl⟩ <|
      .head ⟨.take, .take (inRange_take_of_ok rfl rfl (by decide)), rfl⟩ <|
      .head ⟨.take, .take (inRange_take_of_ok rfl rfl (by decide)), rfl⟩ <|
      .head ⟨.take, .take (inRange_take_of_nil rfl rfl), rfl⟩ <|
      .head ⟨.checkpoint true, ⟨trivial, trivial, trivial, nofun⟩, rfl⟩ .refl,
      .head ⟨.kill, ⟨trivial, trivial, trivial, nofun⟩, rfl⟩ <|
      .head ⟨.boot true, ⟨trivial, nofun, trivial, nofun⟩, rfl⟩ <|
      .head ⟨.poll (.ok (some 2)), ⟨show 2 < 2 ^ 64 - 1 by decide, trivial, trivial, nofun⟩, rfl⟩ <|
      .head ⟨.work 2 (indexable 1), ⟨trivial, trivial, trivial, nofun⟩, rfl⟩ <|
      .head ⟨.take, .take (inRange_take_of_ok rfl rfl (by decide)), rfl⟩ <|
      .head ⟨.take, .take (inRange_take_of_nil rfl rfl), rfl⟩ <|
      .head ⟨.checkpoint true, ⟨trivial, trivial, trivial, nofun⟩, rfl⟩ .refl⟩
    · rfl
    · rfl
  obtain ⟨s, s', hlatest, hlatest', hrun, hrun'⟩ := hrun
  exact ⟨s, s', hlatest, hlatest', (markers_never_decrease Alloy.sample).2 false twoBlocks
    IndexWorker.new s s' rfl nofun hrun hrun'⟩

/-- An indexer that cannot read its marker of `3` starts over, and writes `1` over it. -/
theorem unread_marker_decreases :
    ¬ ∀ s s' : Worker.System Handled (Option (Except Unit ℕ)),
      Relation.ReflTransGen ((indexWorker twoBlocks false).Step fun _ _ => True)
        IndexWorker.new s →
      Relation.ReflTransGen ((indexWorker twoBlocks false).Step fun _ _ => True) s s' →
      s.latest.getD 0 ≤ s'.latest.getD 0 := by
  intro h
  have hle := h _ _
    (.head ⟨.boot true, trivial, rfl⟩ <| .head ⟨.poll (.ok (some 3)), trivial, rfl⟩ <|
      .head ⟨.work 0 (indexable 0), trivial, rfl⟩ <| .head ⟨.work 1 (indexable 0), trivial, rfl⟩ <|
      .head ⟨.take, trivial, rfl⟩ <| .head ⟨.take, trivial, rfl⟩ <|
      .head ⟨.take, trivial, rfl⟩ <| .head ⟨.checkpoint true, trivial, rfl⟩ <|
      .head ⟨.poll (.ok (some 3)), trivial, rfl⟩ <|
      .head ⟨.work 2 (indexable 0), trivial, rfl⟩ <| .head ⟨.work 3 (indexable 0), trivial, rfl⟩ <|
      .head ⟨.take, trivial, rfl⟩ <| .head ⟨.take, trivial, rfl⟩ <|
      .head ⟨.take, trivial, rfl⟩ <| .head ⟨.checkpoint true, trivial, rfl⟩ .refl)
    (.head ⟨.kill, trivial, rfl⟩ <| .head ⟨.boot false, trivial, rfl⟩ <|
      .head ⟨.poll (.ok (some 3)), trivial, rfl⟩ <|
      .head ⟨.work 0 (indexable 0), trivial, rfl⟩ <| .head ⟨.work 1 (indexable 0), trivial, rfl⟩ <|
      .head ⟨.take, trivial, rfl⟩ <| .head ⟨.take, trivial, rfl⟩ <|
      .head ⟨.take, trivial, rfl⟩ <| .head ⟨.checkpoint true, trivial, rfl⟩ .refl)
  exact absurd hle (by decide)

end Archive

end MonadServices
