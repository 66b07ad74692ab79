import MonadServices.Archive.BlockWriter
import MonadServices.Lib.Inevitable

/-!
# How far the block writer streams

In each round the block writer is to write the blocks after its marker, up to the latest of its
source, but no more than a given number of them. The comparison with the latest block and the cap
do not fit the range, which includes its end: **a round with one new block writes nothing, and one
that reaches the cap writes a block more**. A round does what it should exactly when at least two
blocks are new and no more than the cap.

When the source stops at a block, the writer catches up with it unless the last round before it
ends one block short, which depends on the remainder of the distance by the cap and one
(`MonadServices.Archive.BlockWriter.stream_iff`).
-/

namespace MonadServices

namespace Archive

namespace BlockWriter

variable {alloy : Alloy} {args : Args alloy}

/-! ### Runs in which nothing fails -/

variable (args) in
/-- **A source from which every block can be read** and coded. -/
structure Source where
  block : ℕ → alloy.Block
  data : ℕ → Bytes
  number_block : ∀ b, alloy.number (block b).header = UInt64.ofNat b
  compressed_block : ∀ b, args.compressed (block b) = .ok (data b)

/-- What happens when nothing fails and the latest block of the source is `latest`. -/
inductive Succeeds (source : Source args) (latest : ℕ) : Event alloy → Prop where
  | getLatestBlock : Succeeds source latest (.getLatestBlock true .done)
  | poll : Succeeds source latest (.poll (.ok (some latest)))
  | work (b : ℕ) : Succeeds source latest (.work b ⟨.ok (source.block b), .done⟩)
  | take : Succeeds source latest .take
  | setLatestBlock : Succeeds source latest (.setLatestBlock .done)

/-- A step in which nothing fails. -/
def Proceeds (source : Source args) (latest : ℕ) (s s' : System) : Prop :=
  ∃ e, Succeeds source latest e ∧ step args s e = some s'

/-- Such a step within a round. -/
def InRound (source : Source args) (latest : ℕ) (s s' : System) : Prop :=
  s.phase ≠ .reading ∧ Proceeds source latest s s'

/-- **A round does what it should**: it attempts the blocks after the marker, up to the latest one
and as many as the cap allows, and if all succeed the last of them is the new marker. -/
def Exact (source : Source args) (marker latest : ℕ) : Prop :=
  marker < latest → ∀ s, s.phase = .reading → s.latest = some marker →
    ∃ s₁ s₂ stream, Proceeds source latest s s₁ ∧ Proceeds source latest s₁ s₂ ∧
      s₂.phase = .writing (marker + 1) (min latest (marker + args.maxBlocksPerIter)) 0 [] stream ∧
      stream.queue = List.range' (marker + 1)
        (min latest (marker + args.maxBlocksPerIter) - marker) ∧
      Inevitably (InRound source latest) (fun s' => s'.phase = .reading ∧
        s'.latest = some (min latest (marker + args.maxBlocksPerIter))) s₂

/-- **The writer catches up** with a source that stops at a block, when nothing fails. -/
def CatchesUp (source : Source args) (marker latest : ℕ) : Prop :=
  ∀ s, Sound args s → s.phase = .reading → s.latest = some marker →
    Inevitably (Proceeds source latest) (fun s' => ∀ b ≤ latest, Written args s'.files b) s

variable (args) in
/-- The latest block and the rounds until then have room in `u64`. -/
structure Fits (marker latest : ℕ) : Prop where
  latest_lt : latest < 2 ^ 64
  rounds : ∀ k, marker + 1 + k * (args.maxBlocksPerIter + 1) < latest →
    marker + 1 + k * (args.maxBlocksPerIter + 1) + args.maxBlocksPerIter < 2 ^ 64

/-! ### What each step does -/

variable {source : Source args} {marker latest start stop : ℕ} {s s' : System}
  {stream : Stream ℕ (Option Bool)}

theorem proceeds_reading (hphase : s.phase = .reading) (hmarker : s.latest = some marker) :
    Proceeds source latest s s' ↔ s' = { s with phase := startAfter args marker } := by
  constructor
  · rintro ⟨e, he, hstep⟩
    cases he <;> simp only [step, hphase, hmarker, reduceCtorEq, if_true] at hstep
    rw [← Option.some.inj hstep, hmarker]
  · rintro rfl
    refine ⟨_, .getLatestBlock, ?_⟩
    simp only [step, hphase, hmarker, if_true]

theorem proceeds_polling (hphase : s.phase = .polling start) :
    Proceeds source latest s s' ↔
      s' = { s with phase := poll args start (.ok (some latest)) } := by
  constructor
  · rintro ⟨e, he, hstep⟩
    cases he <;> simp only [step, hphase, reduceCtorEq] at hstep
    exact (Option.some.inj hstep).symm
  · rintro rfl
    refine ⟨_, .poll, ?_⟩
    simp only [step, hphase]

theorem proceeds_marking (hphase : s.phase = .marking stop) :
    Proceeds source latest s s' ↔ s' = { s with latest := some stop, phase := .reading } := by
  constructor
  · rintro ⟨e, he, hstep⟩
    cases he <;> simp only [step, hphase, reduceCtorEq] at hstep
    exact (Option.some.inj hstep).symm
  · rintro rfl
    refine ⟨_, .setLatestBlock, ?_⟩
    simp only [step, hphase]
    rfl

/-- A job that succeeds. -/
theorem processBlock_source (source : Source args) (b : ℕ) (files : Files) :
    processBlock args b ⟨.ok (source.block b), .done⟩ files =
      some (Function.update files b (some (source.data b)), some true) := by
  simp only [processBlock, source.number_block b, source.compressed_block b]
  rfl

/-- No job has ended badly. -/
def Clean (stream : Stream ℕ (Option Bool)) : Prop :=
  ∀ b, stream.task b = none ∨ stream.task b = some true

theorem Clean.update {b : ℕ} (h : Clean stream) :
    Clean { stream with task := Function.update stream.task b (some true) } := by
  intro j
  rcases eq_or_ne j b with rfl | hne
  · exact .inr (Function.update_self ..)
  · dsimp only
    rw [Function.update_of_ne hne]
    exact h j

/-- **What a step does in a range**, when nothing has failed: a job is done, a result is taken, or
the range ends. -/
theorem proceeds_writing (hphase : s.phase = .writing start stop 0 [] stream)
    (hclean : Clean stream) (h : Proceeds source latest s s') :
    (∃ b ∈ stream.queue, stream.task b = none ∧
      s' = ⟨Function.update s.files b (some (source.data b)), s.latest, .writing start stop 0 []
        { stream with task := Function.update stream.task b (some true) }⟩) ∨
    (∃ b rest, stream.queue = b :: rest ∧
      s' = { s with phase := .writing start stop 0 [] { stream with queue := rest } }) ∨
    stream.queue = [] ∧ s' = { s with phase := .marking stop } := by
  obtain ⟨e, he, hstep⟩ := h
  cases he with
  | work b =>
    simp only [step, hphase, Option.map_eq_some_iff] at hstep
    obtain ⟨⟨files, stream'⟩, hwork, rfl⟩ := hstep
    obtain ⟨hmem, hfresh, t, hjob, rfl⟩ := Stream.work_eq_some.mp hwork
    cases (processBlock_source source b s.files).symm.trans hjob
    exact .inl ⟨b, List.mem_of_mem_take hmem, hfresh, rfl⟩
  | take =>
    simp only [step, hphase, Option.map_eq_some_iff] at hstep
    obtain ⟨phase, htake, rfl⟩ := hstep
    unfold take at htake
    split at htake
    · rename_i hempty
      cases htake
      exact .inr (.inr ⟨hempty, rfl⟩)
    · obtain ⟨⟨b, ok, rest⟩, hnext, heq⟩ := Option.map_eq_some_iff.mp htake
      obtain ⟨hqueue, hresult, htask⟩ := Stream.next_eq_some.mp hnext
      have hok : ok = true := by
        rcases hclean b with hfresh | hdone
        · rw [hfresh] at hresult
          cases hresult
        · rw [hdone] at hresult
          exact (Option.some.inj hresult).symm
      subst hok
      cases heq
      refine .inr (.inl ⟨b, rest.queue, hqueue, ?_⟩)
      rw [← htask]
  | getLatestBlock | poll | setLatestBlock =>
    simp only [step, hphase, reduceCtorEq] at hstep

/-- A range is never stuck. -/
theorem exists_proceeds_writing (hphase : s.phase = .writing start stop 0 [] stream)
    (hclean : Clean stream) (hconc : 0 < args.concurrency) :
    ∃ s', Proceeds source latest s s' := by
  cases hqueue : stream.queue with
  | nil =>
    have htake : take args start stop 0 [] stream = some (.marking stop) := by
      rw [take, if_pos hqueue]
      rfl
    refine ⟨{ s with phase := .marking stop }, .take, .take, ?_⟩
    simp only [step, hphase, htake, Option.map_some]
  | cons b rest =>
    have hne : stream.queue ≠ [] := hqueue ▸ List.cons_ne_nil b rest
    rcases hclean b with hfresh | hdone
    · -- The job of the first block may run.
      have hmem : b ∈ stream.queue.take args.concurrency := by
        obtain ⟨n, hn⟩ := Nat.exists_eq_add_of_lt hconc
        rw [hqueue, hn, Nat.zero_add, List.take_succ_cons]
        exact List.mem_cons_self
      have hjob : (blockJob args).step b ⟨.ok (source.block b), .done⟩ s.files (stream.task b) =
          some (Function.update s.files b (some (source.data b)), some true) :=
        processBlock_source source b s.files
      have hwork := Stream.work_eq_some.mpr ⟨hmem, hfresh, some true, hjob, rfl⟩
      refine ⟨⟨Function.update s.files b (some (source.data b)), s.latest, .writing start stop 0 []
        { stream with task := Function.update stream.task b (some true) }⟩,
        .work b ⟨.ok (source.block b), .done⟩, .work b, ?_⟩
      simp only [step, hphase, hwork, Option.map_some]
    · have hnext : stream.next (blockJob args) = some (b, true, { stream with queue := rest }) :=
        Stream.next_eq_some.mpr ⟨hqueue, hdone, rfl⟩
      have htake : take args start stop 0 [] stream =
          some (.writing start stop 0 [] { stream with queue := rest }) := by
        rw [take, if_neg hne, hnext]
        rfl
      refine ⟨{ s with phase := .writing start stop 0 [] { stream with queue := rest } }, .take,
        .take, ?_⟩
      simp only [step, hphase, htake, Option.map_some]

/-- Without a job that may run, a range is stuck. -/
theorem not_proceeds_writing (hphase : s.phase = .writing start stop 0 [] stream)
    (hfresh : ∀ b, stream.task b = none) (hqueue : stream.queue ≠ [])
    (hconc : args.concurrency = 0) : ¬Proceeds source latest s s' := by
  rintro ⟨e, he, hstep⟩
  cases he with
  | work b =>
    simp only [step, hphase, Option.map_eq_some_iff] at hstep
    obtain ⟨⟨files, stream'⟩, hwork, -⟩ := hstep
    obtain ⟨hmem, -⟩ := Stream.work_eq_some.mp hwork
    rw [hconc, List.take_zero] at hmem
    exact List.not_mem_nil hmem
  | take =>
    simp only [step, hphase, Option.map_eq_some_iff] at hstep
    obtain ⟨phase, htake, -⟩ := hstep
    rw [take, if_neg hqueue] at htake
    obtain ⟨⟨b, ok, rest⟩, hnext, -⟩ := Option.map_eq_some_iff.mp htake
    obtain ⟨-, hresult, -⟩ := Stream.next_eq_some.mp hnext
    rw [hfresh b] at hresult
    cases hresult
  | getLatestBlock | poll | setLatestBlock =>
    simp only [step, hphase, reduceCtorEq] at hstep

/-! ### A round in which nothing fails -/

/-- Where a round is in which nothing has failed, once its range has been determined. -/
def Going (stop : ℕ) (s : System) : Prop :=
  (∃ start stream, s.phase = .writing start stop 0 [] stream ∧ Clean stream) ∨
    s.phase = .marking stop ∨ s.phase = .reading ∧ s.latest = some stop

/-- The steps that are left for a block: it is written, and its result is taken. -/
def blockLeft : Option Bool → ℕ
  | none => 2
  | some _ => 1

/-- The steps that are left in a round. -/
def left (s : System) : ℕ :=
  match s.phase with
  | .writing _ _ _ _ stream => (stream.queue.map fun b => blockLeft (stream.task b)).sum + 2
  | .marking _ => 1
  | _ => 0

/-- **A step brings the round closer to its end.** -/
theorem Going.proceeds (h : Going stop s) (hround : s.phase ≠ .reading)
    (hstep : Proceeds source latest s s') : Going stop s' ∧ left s' < left s := by
  rcases h with ⟨start, stream, hphase, hclean⟩ | hphase | ⟨hphase, -⟩
  · rcases proceeds_writing hphase hclean hstep with
      ⟨b, hmem, hfresh, rfl⟩ | ⟨b, rest, hqueue, rfl⟩ | ⟨hqueue, rfl⟩
    · refine ⟨.inl ⟨start, _, rfl, hclean.update⟩, ?_⟩
      simp only [left, hphase]
      have hless : blockLeft (Function.update stream.task b (some true) b) <
          blockLeft (stream.task b) := by
        rw [Function.update_self, hfresh]
        decide
      refine Nat.add_lt_add_right (List.sum_lt_sum _ _ (fun i _ => ?_) ⟨b, hmem, hless⟩) 2
      rcases eq_or_ne i b with rfl | hne
      · exact hless.le
      · rw [Function.update_of_ne hne]
    · refine ⟨.inl ⟨start, _, rfl, hclean⟩, ?_⟩
      simp only [left, hphase, hqueue, List.map_cons, List.sum_cons]
      have hpos : 0 < blockLeft (stream.task b) := by
        cases stream.task b with
        | none => decide
        | some ok => exact Nat.one_pos
      omega
    · refine ⟨.inr (.inl rfl), ?_⟩
      simp only [left, hphase]
      omega
  · obtain rfl := (proceeds_marking hphase).mp hstep
    refine ⟨.inr (.inr ⟨rfl, rfl⟩), ?_⟩
    simp only [left, hphase]
    decide
  · exact absurd hphase hround

/-- **A round ends with the end of its range as the new marker.** -/
theorem Going.inevitably (h : Going stop s) (hconc : 0 < args.concurrency)
    (source : Source args) (latest : ℕ) :
    Inevitably (InRound source latest) (fun s' => s'.phase = .reading ∧ s'.latest = some stop)
      s := by
  refine Inevitably.of_measure left (fun s h => ?_) h
  have hsmaller : s.phase ≠ .reading → ∀ s', InRound source latest s s' →
      Going stop s' ∧ left s' < left s := fun hround s' hstep => h.proceeds hround hstep.2
  rcases h with ⟨start, stream, hphase, hclean⟩ | hphase | hend
  · have hround : s.phase ≠ .reading := by
      simp only [hphase, ne_eq, reduceCtorEq, not_false_eq_true]
    obtain ⟨s', hstep⟩ : ∃ s', Proceeds source latest s s' :=
      exists_proceeds_writing hphase hclean hconc
    exact .inr ⟨⟨s', hround, hstep⟩, hsmaller hround⟩
  · have hround : s.phase ≠ .reading := by
      simp only [hphase, ne_eq, reduceCtorEq, not_false_eq_true]
    exact .inr ⟨⟨_, hround, (proceeds_marking hphase).mpr rfl⟩, hsmaller hround⟩
  · exact .inl hend

/-! ### Round after round -/

theorem startAfter_eq (hmarker : 0 < marker) (hfits : marker + 1 < 2 ^ 64) :
    startAfter args marker = .polling (marker + 1) := by
  rw [startAfter, if_pos hmarker.ne', addU64, if_pos hfits]

/-- With at most one new block a round ends at once. -/
theorem poll_eq_reading (h : latest ≤ start) :
    poll args start (.ok (some latest)) = .reading := by
  simp only [poll, h, if_true]

/-- Otherwise it writes up to the latest block, or one more than the cap. -/
theorem poll_eq_writeRange (h : start < latest) (hfits : start + args.maxBlocksPerIter < 2 ^ 64) :
    poll args start (.ok (some latest)) =
      writeRange args start (min latest (start + args.maxBlocksPerIter)) := by
  simp only [poll, Nat.not_le_of_lt h, if_false, addU64, hfits, if_true]

/-- The two steps that start a round. -/
theorem proceeds_poll (source : Source args) (hmarker : 0 < marker) (hnew : marker + 1 < latest)
    (hfits : marker + 1 + args.maxBlocksPerIter < 2 ^ 64) (hphase : s.phase = .reading)
    (hlatest : s.latest = some marker) :
    Proceeds source latest s { s with phase := .polling (marker + 1) } ∧
      Proceeds source latest { s with phase := .polling (marker + 1) } { s with
        phase :=
          writeRange args (marker + 1) (min latest (marker + 1 + args.maxBlocksPerIter)) } := by
  constructor
  · rw [proceeds_reading hphase hlatest, startAfter_eq hmarker (by omega)]
  · rw [proceeds_polling rfl, poll_eq_writeRange hnew hfits]

/-- **A round moves the marker** to the latest block, or by the cap and one. -/
theorem inevitably_round (source : Source args) (hconc : 0 < args.concurrency)
    (hmarker : 0 < marker) (hnew : marker + 1 < latest)
    (hfits : marker + 1 + args.maxBlocksPerIter < 2 ^ 64) (hphase : s.phase = .reading)
    (hlatest : s.latest = some marker) :
    Inevitably (Proceeds source latest) (fun s' => s'.phase = .reading ∧
      s'.latest = some (min latest (marker + 1 + args.maxBlocksPerIter))) s := by
  obtain ⟨hread, hpoll⟩ := proceeds_poll source hmarker hnew hfits hphase hlatest
  refine .next ⟨_, hread⟩ fun s₁ h₁ => ?_
  have heq₁ := ((proceeds_reading hphase hlatest).mp h₁).trans
    ((proceeds_reading hphase hlatest).mp hread).symm
  subst heq₁
  refine .next ⟨_, hpoll⟩ fun s₂ h₂ => ?_
  have heq₂ := ((proceeds_polling rfl).mp h₂).trans ((proceeds_polling rfl).mp hpoll).symm
  subst heq₂
  have hgoing : Going (min latest (marker + 1 + args.maxBlocksPerIter)) { s with
      phase := writeRange args (marker + 1) (min latest (marker + 1 + args.maxBlocksPerIter)) } :=
    .inl ⟨_, _, rfl, fun _ => .inl rfl⟩
  exact Inevitably.of_within (hgoing.inevitably hconc source latest)

theorem Fits.next (h : Fits args marker latest) :
    Fits args (marker + 1 + args.maxBlocksPerIter) latest := by
  refine ⟨h.latest_lt, fun k hk => ?_⟩
  have hsum : marker + 1 + (k + 1) * (args.maxBlocksPerIter + 1) =
      marker + 1 + args.maxBlocksPerIter + 1 + k * (args.maxBlocksPerIter + 1) := by
    rw [Nat.succ_mul]
    omega
  rw [← hsum] at hk ⊢
  exact h.rounds (k + 1) hk

theorem Fits.room (h : Fits args marker latest) (hnew : marker + 1 < latest) :
    marker + 1 + args.maxBlocksPerIter < 2 ^ 64 := by
  simpa using h.rounds 0 (by omega)

/-- There is nothing to catch up with. -/
theorem catchesUp_of_le (source : Source args) (hmarker : 0 < marker) (hdone : latest ≤ marker) :
    CatchesUp source marker latest :=
  fun _ hsound _ hlatest =>
    .now fun b hb => hsound.marked marker hlatest hmarker b (hb.trans hdone)

/-- **The writer catches up** unless it ends a round one block short. -/
theorem catchesUp (source : Source args) (hconc : 0 < args.concurrency) (hmarker : 0 < marker)
    (hfits : Fits args marker latest)
    (hrest : latest ≤ marker ∨ (latest - (marker + 1)) % (args.maxBlocksPerIter + 1) ≠ 0) :
    CatchesUp source marker latest := by
  induction hn : latest - marker using Nat.strong_induction_on generalizing marker with
  | _ n ih =>
    intro s hsound hphase hlatest
    rcases Nat.lt_or_ge marker latest with hlt | hdone
    · have hrest' := hrest.resolve_left (Nat.not_le_of_lt hlt)
      have hnew : marker + 1 < latest := by
        refine Nat.lt_of_le_of_ne hlt fun heq => hrest' ?_
        rw [heq, Nat.sub_self, Nat.zero_mod]
      have hround := inevitably_round source hconc hmarker hnew (hfits.room hnew) hphase hlatest
      have hkeeps : ∀ s s', Sound args s → Proceeds source latest s s' → Sound args s' :=
        fun s s' h ⟨e, _, hstep⟩ => h.step hstep
      refine (hround.and_invariant hsound hkeeps).trans fun s' hs' => ?_
      obtain ⟨⟨hphase', hlatest'⟩, hsound'⟩ := hs'
      rcases Nat.le_total latest (marker + 1 + args.maxBlocksPerIter) with hcap | hcap
      · rw [Nat.min_eq_left hcap] at hlatest'
        exact .now fun b hb => hsound'.marked latest hlatest' (by omega) b hb
      · rw [Nat.min_eq_right hcap] at hlatest'
        refine ih (latest - (marker + 1 + args.maxBlocksPerIter)) (by omega) (by omega) hfits.next
          ?_ rfl s' hsound' hphase' hlatest'
        rcases Nat.eq_or_lt_of_le hcap with heq | hlt'
        · exact .inl heq.ge
        · -- The remainder is that of the distance before the round.
          refine .inr fun hzero => hrest' ?_
          rw [Nat.mod_eq_sub_mod (by omega), ← hzero]
          congr 1
          omega
    · exact catchesUp_of_le source hmarker hdone s hsound hphase hlatest

/-! ### A writer that stays behind -/

variable (args) in
/-- A marker after which a round ends one block short, sooner or later. -/
structure Short (latest marker : ℕ) : Prop where
  pos : 0 < marker
  lt : marker < latest
  rest : (latest - (marker + 1)) % (args.maxBlocksPerIter + 1) = 0
  fits : Fits args marker latest

theorem Short.next (h : Short args latest marker) (hnew : marker + 1 < latest) :
    Short args latest (min latest (marker + 1 + args.maxBlocksPerIter)) := by
  have hfar : args.maxBlocksPerIter + 1 ≤ latest - (marker + 1) := by
    by_contra hnear
    have hrest := h.rest
    rw [Nat.mod_eq_of_lt (by omega)] at hrest
    omega
  rw [Nat.min_eq_right (by omega)]
  refine ⟨by omega, by omega, ?_, h.fits.next⟩
  have hrest := h.rest
  rw [Nat.mod_eq_sub_mod hfar] at hrest
  rw [← hrest]
  congr 1
  omega

variable (args) in
/-- **What stays so** when the rounds end one block short: the latest block is not written. -/
inductive Behind (latest : ℕ) : System → Prop where
  | reading {files : Files} {m : ℕ} (hfiles : files latest = none) (h : Short args latest m) :
    Behind latest ⟨files, some m, .reading⟩
  | polling {files : Files} {m : ℕ} (hfiles : files latest = none) (h : Short args latest m) :
    Behind latest ⟨files, some m, .polling (m + 1)⟩
  | writing {files : Files} {m : Option ℕ} {start stop : ℕ} {stream : Stream ℕ (Option Bool)}
    (hfiles : files latest = none) (hclean : Clean stream)
    (hqueue : ∀ b ∈ stream.queue, b < latest) (h : Short args latest stop) :
    Behind latest ⟨files, m, .writing start stop 0 [] stream⟩
  | marking {files : Files} {m : Option ℕ} {stop : ℕ} (hfiles : files latest = none)
    (h : Short args latest stop) : Behind latest ⟨files, m, .marking stop⟩

theorem Behind.files (h : Behind args latest s) : s.files latest = none := by
  cases h with
  | reading hfiles => exact hfiles
  | polling hfiles => exact hfiles
  | writing hfiles => exact hfiles
  | marking hfiles => exact hfiles

theorem Behind.proceeds (h : Behind args latest s) (hstep : Proceeds source latest s s') :
    Behind args latest s' := by
  cases h with
  | @reading files m hfiles h =>
    obtain rfl := (proceeds_reading rfl rfl).mp hstep
    rw [startAfter_eq h.pos (Nat.lt_of_le_of_lt h.lt h.fits.latest_lt)]
    exact .polling hfiles h
  | @polling files m hfiles h =>
    obtain rfl := (proceeds_polling rfl).mp hstep
    rcases Nat.eq_or_lt_of_le h.lt with heq | hnew
    · rw [poll_eq_reading heq.ge]
      exact .reading hfiles h
    · rw [poll_eq_writeRange hnew (h.fits.room hnew)]
      refine .writing hfiles (fun _ => .inl rfl) (fun b hb => ?_) (h.next hnew)
      have hlt := (h.next hnew).lt
      simp only [Stream.start, List.mem_range'_1] at hb
      omega
  | @writing files m start stop stream hfiles hclean hqueue h =>
    rcases proceeds_writing rfl hclean hstep with
      ⟨b, hmem, -, rfl⟩ | ⟨b, rest, hcons, rfl⟩ | ⟨-, rfl⟩
    · refine .writing ?_ hclean.update hqueue h
      rw [Function.update_of_ne (hqueue b hmem).ne']
      exact hfiles
    · rw [hcons, List.forall_mem_cons] at hqueue
      exact .writing hfiles hclean hqueue.2 h
    · exact .marking hfiles h
  | @marking files m stop hfiles h =>
    obtain rfl := (proceeds_marking rfl).mp hstep
    exact .reading hfiles h

/-- What stays so when no job may run: the latest block is not written. -/
inductive Stuck (args : Args alloy) (marker latest : ℕ) : System → Prop where
  | reading {files : Files} (hfiles : files latest = none) :
    Stuck args marker latest ⟨files, some marker, .reading⟩
  | polling {files : Files} (hfiles : files latest = none) :
    Stuck args marker latest ⟨files, some marker, .polling (marker + 1)⟩
  | writing {files : Files} {m : Option ℕ} {start stop : ℕ} {stream : Stream ℕ (Option Bool)}
    (hfiles : files latest = none) (hfresh : ∀ b, stream.task b = none)
    (hqueue : stream.queue ≠ []) :
    Stuck args marker latest ⟨files, m, .writing start stop 0 [] stream⟩

theorem Stuck.proceeds (h : Stuck args marker latest s) (hconc : args.concurrency = 0)
    (hmarker : 0 < marker) (hnew : marker + 1 < latest)
    (hroom : marker + 1 + args.maxBlocksPerIter < 2 ^ 64) (hstep : Proceeds source latest s s') :
    Stuck args marker latest s' := by
  cases h with
  | reading hfiles =>
    obtain rfl := (proceeds_reading rfl rfl).mp hstep
    rw [startAfter_eq hmarker (by omega)]
    exact .polling hfiles
  | polling hfiles =>
    obtain rfl := (proceeds_polling rfl).mp hstep
    rw [poll_eq_writeRange hnew hroom]
    refine .writing hfiles (fun _ => rfl) fun hnil => ?_
    rw [Stream.start, List.range'_eq_nil_iff] at hnil
    omega
  | writing hfiles hfresh hqueue =>
    exact absurd hstep (not_proceeds_writing rfl hfresh hqueue hconc)

theorem Stuck.files (h : Stuck args marker latest s) : s.files latest = none := by
  cases h with
  | reading hfiles => exact hfiles
  | polling hfiles => exact hfiles
  | writing hfiles => exact hfiles

/-- The writer when it has written everything up to its marker, and nothing else. -/
def upTo (source : Source args) (marker : ℕ) : System :=
  ⟨fun b => if b ≤ marker then some (source.data b) else none, some marker, .reading⟩

theorem sound_upTo (source : Source args) (marker : ℕ) : Sound args (upTo source marker) := by
  refine ⟨fun n hn _ b hb => ?_, trivial⟩
  obtain rfl := Option.some.inj hn
  exact ⟨source.block b, source.number_block b, source.data b, source.compressed_block b, if_pos hb⟩

/-- **The writer does not catch up** when no job may run, or when a round ends one block short. -/
theorem not_catchesUp (source : Source args) (hmarker : 0 < marker) (hlt : marker < latest)
    (hfits : Fits args marker latest) (h : args.concurrency = 0 ∨
      (latest - (marker + 1)) % (args.maxBlocksPerIter + 1) = 0) :
    ¬CatchesUp source marker latest := by
  intro hcatch
  have hinev := hcatch (upTo source marker) (sound_upTo source marker) rfl rfl
  have hfiles : (upTo source marker).files latest = none := if_neg (Nat.not_le_of_lt hlt)
  have hunwritten : ∀ s : System, s.files latest = none →
      ¬∀ b ≤ latest, Written args s.files b := by
    intro s hs hall
    obtain ⟨-, -, data, -, hdata⟩ := hall latest le_rfl
    rw [hs] at hdata
    cases hdata
  by_cases hrest : (latest - (marker + 1)) % (args.maxBlocksPerIter + 1) = 0
  · have hbehind : Behind args latest (upTo source marker) :=
      .reading hfiles ⟨hmarker, hlt, hrest, hfits⟩
    exact not_inevitably hbehind (fun _ _ h hstep => h.proceeds hstep)
      (fun s h => hunwritten s h.files) hinev
  · have hconc := h.resolve_right hrest
    have hnew : marker + 1 < latest := by
      refine Nat.lt_of_le_of_ne hlt fun heq => hrest ?_
      rw [heq, Nat.sub_self, Nat.zero_mod]
    have hstuck : Stuck args marker latest (upTo source marker) := .reading hfiles
    exact not_inevitably hstuck
      (fun _ _ h hstep => h.proceeds hconc hmarker hnew (hfits.room hnew) hstep)
      (fun s h => hunwritten s h.files) hinev

/-! ### The rounds that do what they should -/

/-- **A round that does what it should** has at least two new blocks, and no more than the cap. -/
theorem bounds_of_exact (hmarker : 0 < marker) (hmarker' : marker < 2 ^ 64)
    (hmax : args.maxBlocksPerIter < 2 ^ 64) (hlt : marker < latest)
    (h : Exact source marker latest) :
    marker + 1 < latest ∧ latest ≤ marker + args.maxBlocksPerIter ∧
      marker + 1 + args.maxBlocksPerIter < 2 ^ 64 ∧ 0 < args.concurrency := by
  obtain ⟨s₁, s₂, stream, h₁, h₂, hphase, hqueue, hinev⟩ :=
    h hlt ⟨fun _ => none, some marker, .reading⟩ rfl rfl
  obtain rfl := (proceeds_reading rfl rfl).mp h₁
  rw [startAfter, if_pos hmarker.ne'] at h₂
  cases hadd : addU64 args.overflowChecks marker 1 with
  | error panic =>
    rw [hadd] at h₂
    obtain ⟨e, he, hstep⟩ := h₂
    cases he <;> cases hstep
  | ok start =>
    rw [hadd] at h₂
    obtain rfl := (proceeds_polling rfl).mp h₂
    have hpoll := hphase
    simp only [poll] at hphase
    split at hphase
    · cases hphase
    · rename_i hnew
      split at hphase
      · rename_i bound hbound
        simp only [writeRange, Phase.writing.injEq] at hphase
        obtain ⟨rfl, hstop, -, -, rfl⟩ := hphase
        -- A bound that has wrapped is below the range.
        have hexact : latest ≤ marker + args.maxBlocksPerIter ∧
            marker + 1 + args.maxBlocksPerIter < 2 ^ 64 := by
          rcases addU64_eq_ok hbound with ⟨hroom, rfl⟩ | ⟨hover, hwrap⟩
          · omega
          · rw [Nat.mod_eq_sub_mod hover, Nat.mod_eq_of_lt (by omega)] at hwrap
            omega
        refine ⟨Nat.not_le.mp hnew, hexact.1, hexact.2, Nat.pos_of_ne_zero fun hconc => ?_⟩
        cases hinev with
        | now h => cases hpoll.symm.trans h.1
        | next hcan _ =>
          obtain ⟨s', -, hstep⟩ := hcan
          refine not_proceeds_writing hpoll (fun _ => rfl) (fun hnil => ?_) hconc hstep
          rw [Stream.start, List.range'_eq_nil_iff] at hnil
          omega
      · cases hphase

/-- Such a round does what it should. -/
theorem exact_of_bounds (source : Source args) (hmarker : 0 < marker) (hnew : marker + 1 < latest)
    (hcap : latest ≤ marker + args.maxBlocksPerIter)
    (hroom : marker + 1 + args.maxBlocksPerIter < 2 ^ 64) (hconc : 0 < args.concurrency) :
    Exact source marker latest := by
  intro _ s hphase hlatest
  obtain ⟨h₁, h₂⟩ := proceeds_poll source hmarker hnew hroom hphase hlatest
  rw [Nat.min_eq_left (by omega)] at h₂ ⊢
  refine ⟨_, _, .start (blockJob args) (List.range' (marker + 1) (latest - marker)), h₁, h₂, ?_,
    rfl, ?_⟩
  · dsimp only [writeRange]
    congr 3
    omega
  · have hgoing : Going latest { s with phase := writeRange args (marker + 1) latest } :=
      .inl ⟨_, _, rfl, fun _ => .inl rfl⟩
    exact hgoing.inevitably hconc source latest

/-- **How far the block writer streams.** A round does what it should, and the writer catches up,
exactly when nothing is new, or at least two blocks are new and no more than the cap. It catches up
with a source that stops at a block exactly when no round ends one block short of it. -/
theorem stream_iff (source : Source args) (hmarker : 0 < marker) (hmarker' : marker < 2 ^ 64)
    (hmax : args.maxBlocksPerIter < 2 ^ 64) :
    (Exact source marker latest ∧ CatchesUp source marker latest ↔
      latest ≤ marker ∨ marker + 1 < latest ∧ latest ≤ marker + args.maxBlocksPerIter ∧
        marker + 1 + args.maxBlocksPerIter < 2 ^ 64 ∧ 0 < args.concurrency) ∧
    (Fits args marker latest → (CatchesUp source marker latest ↔
      latest ≤ marker ∨ 0 < args.concurrency ∧
        (latest - (marker + 1)) % (args.maxBlocksPerIter + 1) ≠ 0)) := by
  refine ⟨⟨fun ⟨hexact, _⟩ => ?_, fun h => ?_⟩, fun hfits => ⟨fun hcatch => ?_, fun h => ?_⟩⟩
  · rcases Nat.lt_or_ge marker latest with hlt | hdone
    · exact .inr (bounds_of_exact hmarker hmarker' hmax hlt hexact)
    · exact .inl hdone
  · rcases h with hdone | ⟨hnew, hcap, hroom, hconc⟩
    · exact ⟨fun hlt => absurd hlt (Nat.not_lt_of_le hdone), catchesUp_of_le source hmarker hdone⟩
    · -- One round is enough.
      have hfits : Fits args marker latest := by
        refine ⟨by omega, fun k hk => ?_⟩
        cases k with
        | zero => simpa using hroom
        | succ k =>
          rw [Nat.succ_mul] at hk
          omega
      refine ⟨exact_of_bounds source hmarker hnew hcap hroom hconc,
        catchesUp source hconc hmarker hfits (.inr ?_)⟩
      rw [Nat.mod_eq_of_lt (by omega)]
      omega
  · by_contra hnot
    rw [not_or, not_and_or, Nat.not_le, not_not, Nat.not_lt, Nat.le_zero] at hnot
    exact not_catchesUp source hmarker hnot.1 hfits hnot.2 hcatch
  · rcases h with hdone | ⟨hconc, hrest⟩
    · exact catchesUp_of_le source hmarker hdone
    · exact catchesUp source hconc hmarker hfits (.inr hrest)

/-- A block writer for blocks that are their own numbers. -/
def sampleArgs : Args Alloy.sample := ⟨fun _ => .ok [], false, 1, 0, 2⟩

/-- A source with all of these blocks. -/
def sampleSource : Source sampleArgs where
  block b := ⟨.ofNat b, [], [], none⟩
  data _ := []
  number_block _ := rfl
  compressed_block _ := rfl

theorem stream_iff_sample :
    (Exact sampleSource 1 3 ∧ CatchesUp sampleSource 1 3) ∧ ¬CatchesUp sampleSource 1 5 := by
  refine ⟨(stream_iff sampleSource Nat.one_pos (by decide) (by decide)).1.mpr
    (.inr (by decide)), fun hcatch => ?_⟩
  have hfits : Fits sampleArgs 1 5 := by
    refine ⟨by decide, fun k hk => ?_⟩
    have hmax : sampleArgs.maxBlocksPerIter = 2 := rfl
    rw [hmax] at hk ⊢
    omega
  exact absurd (((stream_iff sampleSource Nat.one_pos (by decide) (by decide)).2 hfits).mp hcatch)
    (by decide)

/-- **A single new block is not written.** -/
theorem not_exact_single : ¬∀ marker latest : ℕ, 0 < marker →
    Exact sampleSource marker latest ∧ CatchesUp sampleSource marker latest := by
  intro h
  have hbounds := bounds_of_exact (by decide) (by decide) (by decide) (by decide)
    (h 1 2 (by decide)).1
  exact absurd hbounds.1 (by decide)

end BlockWriter

end Archive

end MonadServices
