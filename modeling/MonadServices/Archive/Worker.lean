import Mathlib.Data.List.Range
import Mathlib.Logic.Relation
import MonadServices.Lib.Buffered

/-!
# Workers that follow a chain

The archiver and the indexer follow a chain in the same way. A worker reads where it has left
off from a **marker** in its store, and then goes round a loop: it asks its source for the
latest block, runs a job for each block of the next range, several at a time, and writes the
last block it is done with to the marker. When a job fails, that is the block before it; the
jobs of later blocks may have run as well, and are run again.

The environment may fail each read and each write, may tear a write of the marker, and may kill
the worker between any two steps; then it starts again from what the marker holds, or from block
`0` when the marker cannot be read. This file says what a worker is
(`MonadServices.Archive.Worker.step`), and proves two things of every run. **The marker is sound**:
all the blocks up to it are done (`MonadServices.Archive.Worker.Sound.run`). **The marker does not
go back**, as long as a worker does not start without having read it and no write of it is torn
(`MonadServices.Archive.Worker.Ordered.run`).
-/

namespace MonadServices

namespace Archive

/-- How a worker panics. -/
inductive Panic where
  /-- A sum or a difference leaves `u64`. -/
  | overflow
  /-- An absent value is unwrapped. -/
  | unwrapNone
  deriving DecidableEq

/-- `a + b` on `u64`: an overflow panics or wraps, as the build has it. -/
def addU64 (overflowChecks : Bool) (a b : ℕ) : Except Panic ℕ :=
  if a + b < 2 ^ 64 then .ok (a + b)
  else if overflowChecks then .error .overflow
  else .ok ((a + b) % 2 ^ 64)

/-- A sum that does not fit wraps to less than its terms. -/
theorem addU64_eq_ok {overflowChecks : Bool} {a b c : ℕ} (h : addU64 overflowChecks a b = .ok c) :
    (a + b < 2 ^ 64 ∧ c = a + b) ∨ (2 ^ 64 ≤ a + b ∧ c = (a + b) % 2 ^ 64) := by
  unfold addU64 at h
  split at h
  · rename_i hlt
    exact .inl ⟨hlt, (Except.ok.inj h).symm⟩
  · rename_i hge
    split at h
    · cases h
    · exact .inr ⟨Nat.not_lt.mp hge, (Except.ok.inj h).symm⟩

/-- `a - b` on `u64`. -/
def subtractU64 (overflowChecks : Bool) (a b : ℕ) : Except Panic ℕ :=
  if b ≤ a then .ok (a - b)
  else if overflowChecks then .error .overflow
  else .ok ((2 ^ 64 + a - b) % 2 ^ 64)

/-- **A worker**: its options, its job for one block, which ends with a number of transactions
or an error, and the two places in which the workers differ. -/
structure Worker (σ τ ν : Type) where
  job : Job σ ℕ τ (Except Unit ℕ) ν
  overflowChecks : Bool
  maxBlocksPerIteration : ℕ
  maxConcurrentBlocks : ℕ
  stopBlock : Option ℕ
  /-- What the worker takes for the latest block of a source that has none. -/
  noLatest : Except Panic ℕ
  noLatest_eq : ∀ n, noLatest = .ok n → n = 0
  /-- The last block that is done when the given one is the first to fail. -/
  before : ℕ → Except Panic ℕ
  before_succ : ∀ b, before (b + 1) = .ok b

namespace Worker

/-- Where a worker is in its loop. -/
inductive Phase (τ : Type) where
  /-- It does not run, because it has not been started, has returned, was killed or has
  panicked. -/
  | down (panic : Option Panic)
  | polling (startBlock : ℕ)
  /-- The jobs up to `endBlock` are under way. -/
  | running (endBlock total : ℕ) (stream : Stream ℕ τ)
  | checkpointing (latest : ℕ)

/-- A worker with its store. -/
structure System (σ τ : Type) where
  store : σ
  /-- The marker. -/
  latest : Option ℕ
  phase : Phase τ

/-- What may happen. -/
inductive Event (ν : Type) where
  /-- The worker is started, and its read of the marker succeeds or not. -/
  | boot (readable : Bool)
  /-- The source answers what its latest block is, if it has one, or fails. -/
  | poll (source : Except Unit (Option ℕ))
  /-- An operation of the job of a block. -/
  | work (block : ℕ) (input : ν)
  /-- The next result of the jobs is taken. -/
  | take
  /-- The marker is written; a write that fails may have been applied or not. -/
  | checkpoint (applied : Bool)
  /-- The write of the marker fails after the old one is gone, and before the last `lost`
  characters of the new one are there. -/
  | tear (lost : ℕ)
  /-- The worker is killed. -/
  | kill

variable {σ τ ν : Type} (w : Worker σ τ ν)

/-- The start block after the last block that is done; `0` also says that none is. -/
def startAfter (latest : ℕ) : Phase τ :=
  if latest = 0 then .polling 0
  else match addU64 w.overflowChecks latest 1 with
    | .ok startBlock => .polling startBlock
    | .error panic => .down (some panic)

/-- The loop up to where the jobs are started. -/
def poll (startBlock : ℕ) (source : Except Unit (Option ℕ)) : Phase τ :=
  match source with
  | .error _ => .polling startBlock
  | .ok number =>
    match number.elim w.noLatest .ok with
    | .error panic => .down (some panic)
    | .ok latestSource =>
      if ∃ stopBlock ∈ w.stopBlock, stopBlock < startBlock then .down none
      else match addU64 w.overflowChecks startBlock w.maxBlocksPerIteration >>= fun sum =>
          subtractU64 w.overflowChecks sum 1 with
        | .error panic => .down (some panic)
        | .ok bound =>
          let endBlock := min latestSource bound
          if endBlock < startBlock then .polling startBlock
          else .running endBlock 0
            (.start w.job (List.range' startBlock (endBlock + 1 - startBlock)))

/-- What follows when the last block that is done is known. -/
def settle (latest : ℕ) : Phase τ :=
  if latest ≠ 0 then .checkpointing latest else w.startAfter latest

/-- What follows when the next result is taken. -/
def take (endBlock total : ℕ) (stream : Stream ℕ τ) : Option (Phase τ) :=
  if stream.queue = [] then some (w.settle endBlock)
  else (stream.next w.job).map fun
    | (_, .ok n, rest) =>
      match addU64 w.overflowChecks total n with
      | .ok total' => .running endBlock total' rest
      | .error panic => .down (some panic)
    | (block, .error _, _) =>
      match w.before block with
      | .ok latest => w.settle latest
      | .error panic => .down (some panic)

/-- The marker after a write that is torn. It is a text of at least 12 digits, which begins with
zeros if the number has fewer, and what is left of it is read as a smaller number; a text without
digits cannot be read. -/
def tornMarker (latest lost : ℕ) : Option ℕ :=
  if lost < max 12 (Nat.toDigits 10 latest).length then some (latest / 10 ^ lost) else none

/-- **One step of a worker**; `none` when the event cannot happen now. -/
def step (s : System σ τ) (e : Event ν) : Option (System σ τ) :=
  match e, s.phase with
  | .boot readable, .down _ =>
    some { s with phase := w.startAfter (if readable then s.latest.getD 0 else 0) }
  | .poll source, .polling startBlock => some { s with phase := w.poll startBlock source }
  | .work block input, .running endBlock total stream =>
    (stream.work w.job w.maxConcurrentBlocks block input s.store).map fun (store, stream') =>
      { s with store := store, phase := .running endBlock total stream' }
  | .take, .running endBlock total stream =>
    (w.take endBlock total stream).map fun phase => { s with phase := phase }
  | .checkpoint applied, .checkpointing latest =>
    some { s with
      latest := if applied then some latest else s.latest
      phase := w.startAfter latest }
  | .tear lost, .checkpointing latest =>
    some { s with latest := tornMarker latest lost, phase := w.startAfter latest }
  | .kill, .polling _ => some { s with phase := .down none }
  | .kill, .running _ _ _ => some { s with phase := .down none }
  | .kill, .checkpointing _ => some { s with phase := .down none }
  | _, _ => none

/-- A step by an event of which `allowed` holds in the state before it. -/
def Step (allowed : System σ τ → Event ν → Prop) (s s' : System σ τ) : Prop :=
  ∃ e, allowed s e ∧ w.step s e = some s'

/-! ### What a step can do -/

variable {w} {s s' : System σ τ} {e : Event ν}

/-- **All that a step can do.** -/
theorem step_cases (h : w.step s e = some s') :
    (∃ panic readable, e = .boot readable ∧ s.phase = .down panic ∧
      s' = { s with phase := w.startAfter (if readable then s.latest.getD 0 else 0) }) ∨
    (∃ startBlock source, e = .poll source ∧ s.phase = .polling startBlock ∧
      s' = { s with phase := w.poll startBlock source }) ∨
    (∃ block input endBlock total stream store stream', e = .work block input ∧
      s.phase = .running endBlock total stream ∧
      stream.work w.job w.maxConcurrentBlocks block input s.store = some (store, stream') ∧
      s' = { s with store := store, phase := .running endBlock total stream' }) ∨
    (∃ endBlock total stream phase, e = .take ∧ s.phase = .running endBlock total stream ∧
      w.take endBlock total stream = some phase ∧ s' = { s with phase := phase }) ∨
    (∃ applied latest, e = .checkpoint applied ∧ s.phase = .checkpointing latest ∧
      s' = { s with
        latest := if applied then some latest else s.latest
        phase := w.startAfter latest }) ∨
    (∃ lost latest, e = .tear lost ∧ s.phase = .checkpointing latest ∧
      s' = { s with latest := tornMarker latest lost, phase := w.startAfter latest }) ∨
    (e = .kill ∧ s' = { s with phase := .down none }) := by
  unfold step at h
  split at h
  · rename_i readable panic hphase
    exact .inl ⟨panic, readable, rfl, hphase, (Option.some.inj h).symm⟩
  · rename_i source startBlock hphase
    exact .inr (.inl ⟨startBlock, source, rfl, hphase, (Option.some.inj h).symm⟩)
  · rename_i block input endBlock total stream hphase
    obtain ⟨⟨store, stream'⟩, hwork, rfl⟩ := Option.map_eq_some_iff.mp h
    exact .inr (.inr (.inl ⟨block, input, endBlock, total, stream, store, stream', rfl, hphase,
      hwork, rfl⟩))
  · rename_i endBlock total stream hphase
    obtain ⟨phase, htake, rfl⟩ := Option.map_eq_some_iff.mp h
    exact .inr (.inr (.inr (.inl ⟨endBlock, total, stream, phase, rfl, hphase, htake, rfl⟩)))
  · rename_i applied latest hphase
    exact .inr (.inr (.inr (.inr (.inl ⟨applied, latest, rfl, hphase,
      (Option.some.inj h).symm⟩))))
  · rename_i lost latest hphase
    exact .inr (.inr (.inr (.inr (.inr (.inl ⟨lost, latest, rfl, hphase,
      (Option.some.inj h).symm⟩)))))
  · exact .inr (.inr (.inr (.inr (.inr (.inr ⟨rfl, (Option.some.inj h).symm⟩)))))
  · exact .inr (.inr (.inr (.inr (.inr (.inr ⟨rfl, (Option.some.inj h).symm⟩)))))
  · exact .inr (.inr (.inr (.inr (.inr (.inr ⟨rfl, (Option.some.inj h).symm⟩)))))
  · cases h

/-- A marker that is torn is read as a smaller one. -/
theorem le_of_tornMarker {latest lost n : ℕ} (h : tornMarker latest lost = some n) :
    n ≤ latest := by
  unfold tornMarker at h
  split_ifs at h
  rw [← Option.some.inj h]
  exact Nat.div_le_self ..

/-- All that the loop can do before the jobs are started. -/
theorem poll_cases (startBlock : ℕ) (source : Except Unit (Option ℕ)) :
    w.poll startBlock source = .polling startBlock ∨
    (∃ panic, w.poll startBlock source = .down panic) ∨
    ∃ number endBlock, source = .ok number ∧ startBlock ≤ endBlock ∧ endBlock ≤ number.getD 0 ∧
      w.poll startBlock source = .running endBlock 0
        (.start w.job (List.range' startBlock (endBlock + 1 - startBlock))) := by
  unfold poll
  split
  · exact .inl rfl
  · rename_i number
    split
    · exact .inr (.inl ⟨_, rfl⟩)
    · rename_i latestSource hlatest
      have hnumber : latestSource = number.getD 0 := by
        cases number with
        | none => exact w.noLatest_eq latestSource hlatest
        | some n => exact (Except.ok.inj hlatest).symm
      split
      · exact .inr (.inl ⟨_, rfl⟩)
      · split
        · exact .inr (.inl ⟨_, rfl⟩)
        · rename_i bound _
          simp only
          split
          · exact .inl rfl
          · rename_i hle
            exact .inr (.inr ⟨number, _, rfl, Nat.not_lt.mp hle, hnumber ▸ Nat.min_le_left .., rfl⟩)

/-- All that can follow when the next result is taken. -/
theorem take_cases {endBlock total : ℕ} {stream : Stream ℕ τ} {phase : Phase τ}
    (h : w.take endBlock total stream = some phase) :
    (stream.queue = [] ∧ phase = w.settle endBlock) ∨
    (∃ block n rest, stream.next w.job = some (block, .ok n, rest) ∧
      ((∃ total', addU64 w.overflowChecks total n = .ok total' ∧
        phase = .running endBlock total' rest) ∨
      ∃ panic, addU64 w.overflowChecks total n = .error panic ∧ phase = .down (some panic))) ∨
    (∃ block rest, stream.next w.job = some (block, .error (), rest) ∧
      ((∃ latest, w.before block = .ok latest ∧ phase = w.settle latest) ∨
      ∃ panic, w.before block = .error panic ∧ phase = .down (some panic))) := by
  unfold take at h
  split at h
  · rename_i hqueue
    exact .inl ⟨hqueue, (Option.some.inj h).symm⟩
  · obtain ⟨⟨block, r, rest⟩, hnext, heq⟩ := Option.map_eq_some_iff.mp h
    cases r with
    | ok n =>
      refine .inr (.inl ⟨block, n, rest, hnext, ?_⟩)
      cases hadd : addU64 w.overflowChecks total n with
      | ok total' => exact .inl ⟨total', rfl, by simpa [hadd] using heq.symm⟩
      | error panic => exact .inr ⟨panic, rfl, by simpa [hadd] using heq.symm⟩
    | error u =>
      refine .inr (.inr ⟨block, rest, hnext, ?_⟩)
      cases hbefore : w.before block with
      | ok latest => exact .inl ⟨latest, rfl, by simpa [hbefore] using heq.symm⟩
      | error panic => exact .inr ⟨panic, rfl, by simpa [hbefore] using heq.symm⟩

/-- What follows when the last block that is done is known has no jobs. -/
theorem startAfter_ne_running (latest : ℕ) {endBlock total : ℕ} {stream : Stream ℕ τ} :
    w.startAfter latest ≠ .running endBlock total stream := by
  unfold startAfter
  split
  · nofun
  · split <;> nofun

theorem settle_ne_running (latest : ℕ) {endBlock total : ℕ} {stream : Stream ℕ τ} :
    w.settle latest ≠ .running endBlock total stream := by
  unfold settle
  split
  · nofun
  · exact startAfter_ne_running latest

variable {startBlock endBlock endBlock' total total' latest : ℕ} {stream stream' : Stream ℕ τ}

/-- The jobs that the loop starts are fresh, and they are for blocks of the source. -/
theorem running_of_poll {source : Except Unit (Option ℕ)}
    (h : w.poll startBlock source = .running endBlock total stream) :
    (∃ blocks, stream = .start w.job blocks) ∧
      ∃ number, source = .ok number ∧ endBlock ≤ number.getD 0 := by
  rcases poll_cases (w := w) startBlock source with heq | ⟨panic, heq⟩ |
    ⟨number, stop, hsource, -, hstop, heq⟩
  · rw [heq] at h
    cases h
  · rw [heq] at h
    cases h
  · rw [heq] at h
    cases h
    exact ⟨⟨_, rfl⟩, number, hsource, hstop⟩

/-- A worker goes on after a result if that is of a job that has ended well. -/
theorem running_of_take
    (h : w.take endBlock total stream = some (.running endBlock' total' stream')) :
    endBlock' = endBlock ∧ ∃ block n, stream.next w.job = some (block, .ok n, stream') := by
  rcases take_cases h with ⟨-, heq⟩ | ⟨block, n, rest, hnext, hres⟩ | ⟨block, rest, -, hres⟩
  · exact absurd heq.symm (settle_ne_running _)
  · rcases hres with ⟨total'', -, heq⟩ | ⟨panic, -, heq⟩
    · cases heq
      exact ⟨rfl, block, n, hnext⟩
    · cases heq
  · rcases hres with ⟨latest, -, heq⟩ | ⟨panic, -, heq⟩
    · exact absurd heq.symm (settle_ne_running _)
    · cases heq

/-- A marker that is written as a whole, or not at all. -/
theorem eq_or_le_of_checkpoint {applied : Bool} {n : ℕ}
    (h : (if applied then some latest else s.latest) = some n) :
    s.latest = some n ∨ n ≤ latest := by
  cases applied with
  | false => exact .inl h
  | true => exact .inr (Option.some.inj h).ge

/-! ### The frontier of a worker

In each phase there is a block that the worker has come to. What is known of the worker is
a property `F` of that block, the **frontier**. -/

/-- The property holds of the frontier; a worker that does not run has none. -/
def At (F : ℕ → Prop) : Phase τ → Prop
  | .down _ => True
  | .polling startBlock => F startBlock
  | .running endBlock _ stream => ∃ y, y ≤ endBlock + 1 ∧
      stream.queue = List.range' y (endBlock + 1 - y) ∧ F y
  | .checkpointing latest => F (latest + 1)

variable {F : ℕ → Prop}

/-- The frontier after the last block that is done. The number of that block may be the largest
one there is. -/
theorem At.startAfter {latest : ℕ} (h : F (latest + 1)) (hzero : F 1 → F 0)
    (hwrap : latest + 1 < 2 ^ 64 ∨ ∀ y ≤ latest, F y) : At F (w.startAfter latest) := by
  unfold Worker.startAfter
  split
  · rename_i hlatest
    rw [hlatest] at h
    exact hzero h
  · split
    · rename_i startBlock hadd
      rcases addU64_eq_ok hadd with ⟨-, rfl⟩ | ⟨hover, rfl⟩
      · exact h
      · have hmod : (latest + 1) % 2 ^ 64 < 2 ^ 64 := Nat.mod_lt _ (by decide)
        exact (hwrap.resolve_left hover.not_gt) _ (by omega)
    · trivial

theorem At.settle {latest : ℕ} (h : F (latest + 1)) (hzero : F 1 → F 0) :
    At F (w.settle latest) := by
  unfold Worker.settle
  split
  · exact h
  · rename_i hlatest
    rw [not_ne_iff] at hlatest
    subst hlatest
    exact At.startAfter h hzero (Or.inl (by decide))

theorem At.poll {startBlock : ℕ} (h : F startBlock) (source : Except Unit (Option ℕ)) :
    At F (w.poll startBlock source) := by
  rcases poll_cases (w := w) startBlock source with heq | ⟨panic, heq⟩ |
    ⟨number, endBlock, -, hle, -, heq⟩
  · rw [heq]
    exact h
  · rw [heq]
    trivial
  · rw [heq]
    exact ⟨startBlock, by omega, rfl, h⟩

/-- The result that is taken is that of the frontier. -/
theorem At.next {endBlock total block : ℕ} {stream rest : Stream ℕ τ} {r : Except Unit ℕ}
    (h : At F (.running endBlock total stream))
    (hnext : stream.next w.job = some (block, r, rest)) :
    block ≤ endBlock ∧ rest.queue = List.range' (block + 1) (endBlock + 1 - (block + 1)) ∧
      F block := by
  obtain ⟨y, hy, hqueue, hF⟩ := h
  obtain ⟨hcons, -, -⟩ := Stream.next_eq_some.mp hnext
  rw [hqueue] at hcons
  cases hlen : endBlock + 1 - y with
  | zero =>
    rw [hlen] at hcons
    cases hcons
  | succ len =>
    rw [hlen, List.range'_succ, List.cons.injEq] at hcons
    obtain ⟨rfl, hrest⟩ := hcons
    refine ⟨by omega, ?_, hF⟩
    rw [← hrest]
    congr 1
    omega

/-- **The frontier moves with each result**: past a block that is done, and back to the last
block that is done when one fails. -/
theorem At.take {endBlock total : ℕ} {stream : Stream ℕ τ} {phase : Phase τ}
    (h : At F (.running endBlock total stream)) (htake : w.take endBlock total stream = some phase)
    (hzero : F 1 → F 0)
    (hdone : ∀ block n rest, stream.next w.job = some (block, .ok n, rest) → F block →
      F (block + 1))
    (hfail : ∀ block rest, stream.next w.job = some (block, .error (), rest) → block = 0 →
      ∀ latest, w.before 0 = .ok latest → latest = 0) : At F phase := by
  rcases take_cases htake with ⟨hqueue, rfl⟩ | ⟨block, n, rest, hnext, hphase⟩ |
    ⟨block, rest, hnext, hphase⟩
  · -- All the jobs have ended well, so that the frontier is past the last block.
    obtain ⟨y, hy, hrange, hF⟩ := h
    rw [hqueue, eq_comm, List.range'_eq_nil_iff] at hrange
    have hend : y = endBlock + 1 := by omega
    exact At.settle (hend ▸ hF) hzero
  · obtain ⟨hle, hqueue, hF⟩ := h.next hnext
    rcases hphase with ⟨total', -, rfl⟩ | ⟨panic, -, rfl⟩
    · exact ⟨block + 1, by omega, hqueue, hdone block n rest hnext hF⟩
    · trivial
  · obtain ⟨-, -, hF⟩ := h.next hnext
    rcases hphase with ⟨latest, hbefore, rfl⟩ | ⟨panic, -, rfl⟩
    · cases block with
      | zero =>
        obtain rfl := hfail 0 rest hnext rfl latest hbefore
        exact hF
      | succ b =>
        rw [w.before_succ, Except.ok.injEq] at hbefore
        exact At.settle (hbefore ▸ hF) hzero
    · trivial

/-! ### The marker is sound -/

variable (w) in
/-- The result that is to be taken next is the failure of block `0`. -/
def FirstFails (s : System σ τ) : Prop :=
  ∃ endBlock total stream rest, s.phase = .running endBlock total stream ∧
    stream.next w.job = some (0, .error (), rest)

variable (w) in
/-- A failure of block `0`, if one is taken next, leaves no block done. -/
def StartsOver (s : System σ τ) : Prop :=
  FirstFails w s → ∀ latest, w.before 0 = .ok latest → latest = 0

variable {Kept : ℕ → τ → σ → Prop}

variable (w) in
/-- A block is done when its job has ended well and has left its traces. -/
def Done (Kept : ℕ → τ → σ → Prop) (store : σ) (block : ℕ) : Prop :=
  ∃ t n, w.job.result t = some (.ok n) ∧ Kept block t store

variable (w) in
/-- The jobs never undo what a job has left, not even one of the same block. -/
def Lasting (Kept : ℕ → τ → σ → Prop) : Prop :=
  ∀ {i input store t store' t'}, w.job.step i input store t = some (store', t') →
    ∀ {j u}, Kept j u store → Kept j u store'

variable (w) in
/-- **The marker is sound**: all the blocks up to it are done, and so are those before the
frontier. -/
structure Sound (Kept : ℕ → τ → σ → Prop) (s : System σ τ) : Prop where
  marked : ∀ n, s.latest = some n → ∀ b ≤ n, w.Done Kept s.store b
  before : At (fun y => ∀ b < y, w.Done Kept s.store b) s.phase
  kept : ∀ endBlock total stream, s.phase = .running endBlock total stream →
    stream.Kept Kept s.store

/-- What holds before a block holds before an earlier one. -/
theorem forall_lt_of_le {p : ℕ → Prop} {y y' : ℕ} (hle : y' ≤ y) (h : ∀ b < y, p b) :
    ∀ b < y', p b :=
  fun b hb => h b (hb.trans_le hle)

/-- The worker starts after the marker, or at block `0` if it was not read. -/
theorem Sound.boot (h : w.Sound Kept s) (readable : Bool) :
    w.Sound Kept
      { s with phase := w.startAfter (if readable then s.latest.getD 0 else 0) } := by
  have hall : ∀ b < (if readable then s.latest.getD 0 else 0) + 1,
      (if readable then s.latest.getD 0 else 0) ≠ 0 → w.Done Kept s.store b := by
    intro b hb hne
    cases readable with
    | false => exact absurd rfl hne
    | true =>
      cases hlatest : s.latest with
      | none =>
        rw [hlatest] at hne
        exact absurd rfl hne
      | some n =>
        simp only [hlatest, if_true, Option.getD_some] at hb
        exact h.marked n hlatest b (by omega)
  refine ⟨h.marked, ?_, fun _ _ _ hrun => absurd hrun (startAfter_ne_running _)⟩
  by_cases hne : (if readable then s.latest.getD 0 else 0) = 0
  · rw [hne]
    exact fun b hb => absurd hb (Nat.not_lt_zero b)
  · have hall' := fun b hb => hall b hb hne
    exact At.startAfter hall' (forall_lt_of_le (Nat.zero_le 1))
      (Or.inr fun y hy => forall_lt_of_le (by omega) hall')

/-- The jobs that are started have left nothing yet. -/
theorem Sound.poll (h : w.Sound Kept s) (hjob : w.job.Meets Kept)
    (hphase : s.phase = .polling startBlock) (source : Except Unit (Option ℕ)) :
    w.Sound Kept { s with phase := w.poll startBlock source } := by
  have hbefore := h.before
  rw [hphase] at hbefore
  refine ⟨h.marked, At.poll hbefore source, fun endBlock total stream hrun => ?_⟩
  obtain ⟨⟨blocks, rfl⟩, -⟩ := running_of_poll hrun
  exact Stream.Kept.start hjob _

/-- A job goes on, and undoes nothing. -/
theorem Sound.work {block : ℕ} {input : ν} {store : σ} (h : w.Sound Kept s)
    (hjob : w.job.Meets Kept) (hlast : w.Lasting Kept)
    (hphase : s.phase = .running endBlock total stream)
    (hwork : stream.work w.job w.maxConcurrentBlocks block input s.store =
      some (store, stream')) :
    w.Sound Kept { s with store := store, phase := .running endBlock total stream' } := by
  have hbefore := h.before
  rw [hphase] at hbefore
  obtain ⟨hmem, -, t, hjobstep, rfl⟩ := Stream.work_eq_some.mp hwork
  have hdone : ∀ b, w.Done Kept s.store b → w.Done Kept store b := fun b ⟨u, n, hu, hk⟩ =>
    ⟨u, n, hu, hlast hjobstep hk⟩
  refine ⟨fun n hn b hb => hdone b (h.marked n hn b hb), ?_, fun _ _ _ hrun => ?_⟩
  · obtain ⟨y, hy, hqueue, hall⟩ := hbefore
    exact ⟨y, hy, hqueue, fun b hb => hdone b (hall b hb)⟩
  · cases hrun
    exact (h.kept _ _ _ hphase).work hjob hwork

/-- A result is taken: the job that has ended well has left its traces. -/
theorem Sound.take {phase : Phase τ} (h : w.Sound Kept s) (hover : w.StartsOver s)
    (hphase : s.phase = .running endBlock total stream)
    (htake : w.take endBlock total stream = some phase) :
    w.Sound Kept { s with phase := phase } := by
  have hbefore := h.before
  have hstream := h.kept _ _ _ hphase
  rw [hphase] at hbefore
  refine ⟨h.marked, At.take hbefore htake (forall_lt_of_le (Nat.zero_le 1)) ?_ ?_,
    fun endBlock' total' stream' hrun => ?_⟩
  · intro block n rest hnext hall b hb
    rcases Nat.lt_succ_iff_lt_or_eq.mp hb with hlt | rfl
    · exact hall b hlt
    · obtain ⟨-, t, ht, hk⟩ := hstream.next hnext
      exact ⟨t, n, ht, hk⟩
  · rintro block rest hnext rfl
    exact hover ⟨endBlock, total, stream, rest, hphase, hnext⟩
  · obtain ⟨-, block, n, hnext⟩ := running_of_take (htake.trans (congrArg some hrun))
    exact (hstream.next hnext).1

/-- The marker is written, in whatever way: it is the old one, or it does not go beyond the blocks
that are done. -/
theorem Sound.write {marker : Option ℕ} (h : w.Sound Kept s)
    (hphase : s.phase = .checkpointing latest)
    (hmarker : ∀ n, marker = some n → s.latest = some n ∨ n ≤ latest) :
    w.Sound Kept { s with latest := marker, phase := w.startAfter latest } := by
  have hbefore := h.before
  rw [hphase] at hbefore
  refine ⟨fun n hn b hb => ?_, ?_, fun _ _ _ hrun => absurd hrun (startAfter_ne_running _)⟩
  · obtain hold | hle := hmarker n hn
    · exact h.marked n hold b hb
    · exact hbefore b (by omega)
  · exact At.startAfter hbefore (forall_lt_of_le (Nat.zero_le 1))
      (Or.inr fun y hy => forall_lt_of_le (by omega) hbefore)

/-- **Every step keeps the marker sound**, unless it takes the failure of block `0` for a block
that is done. -/
theorem Sound.step (h : w.Sound Kept s) (hjob : w.job.Meets Kept) (hlast : w.Lasting Kept)
    (hover : e = .take → w.StartsOver s) (hstep : w.step s e = some s') : w.Sound Kept s' := by
  rcases step_cases hstep with ⟨panic, readable, -, hphase, rfl⟩ |
    ⟨startBlock, source, -, hphase, rfl⟩ |
    ⟨block, input, endBlock, total, stream, store, stream', -, hphase, hwork, rfl⟩ |
    ⟨endBlock, total, stream, phase, rfl, hphase, htake, rfl⟩ |
    ⟨applied, latest, -, hphase, rfl⟩ | ⟨lost, latest, -, hphase, rfl⟩ | ⟨-, rfl⟩
  · exact h.boot readable
  · exact h.poll hjob hphase source
  · exact h.work hjob hlast hphase hwork
  · exact h.take (hover rfl) hphase htake
  · exact h.write hphase fun n => eq_or_le_of_checkpoint
  · exact h.write hphase fun n hn => .inr (le_of_tornMarker hn)
  · exact ⟨h.marked, trivial, nofun⟩

/-- **In every run the marker is sound.** -/
theorem Sound.run {allowed : System σ τ → Event ν → Prop} {s₀ : System σ τ}
    (h : w.Sound Kept s₀) (hjob : w.job.Meets Kept) (hlast : w.Lasting Kept)
    (hover : ∀ s, allowed s .take → w.StartsOver s)
    (hrun : Relation.ReflTransGen (w.Step allowed) s₀ s) : w.Sound Kept s := by
  induction hrun with
  | refl => exact h
  | tail _ hstep ih =>
    obtain ⟨e, hallowed, hstep⟩ := hstep
    exact ih.step hjob hlast (fun he => hover _ (he ▸ hallowed)) hstep

/-! ### The marker stays below the source -/

/-- The source has no block from `bound` on. -/
def Event.Below (bound : ℕ) : Event ν → Prop
  | .poll (.ok (some n)) => n < bound
  | _ => True

/-- The blocks of a worker whose source has no block from `bound` on. -/
structure Bounded (bound : ℕ) (s : System σ τ) : Prop where
  marked : ∀ n, s.latest = some n → n < bound
  before : At (· ≤ bound) s.phase
  running : ∀ endBlock total stream, s.phase = .running endBlock total stream → endBlock < bound

variable {bound : ℕ}

/-- The marker is written, in whatever way. -/
theorem Bounded.write {marker : Option ℕ} (h : Bounded bound s) (hbound : bound < 2 ^ 64)
    (hphase : s.phase = .checkpointing latest)
    (hmarker : ∀ n, marker = some n → s.latest = some n ∨ n ≤ latest) :
    Bounded bound { s with latest := marker, phase := w.startAfter latest } := by
  have hle : latest + 1 ≤ bound := by
    have hbefore := h.before
    rw [hphase] at hbefore
    exact hbefore
  refine ⟨fun n hn => ?_, ?_, fun _ _ _ hrun => absurd hrun (startAfter_ne_running _)⟩
  · obtain hold | hn := hmarker n hn
    · exact h.marked n hold
    · omega
  · exact At.startAfter hle (fun _ => Nat.zero_le _) (Or.inl (by omega))

/-- **A worker stays below its source.** -/
theorem Bounded.step (h : Bounded bound s) (hbound : bound < 2 ^ 64) (hpos : 0 < bound)
    (hbelow : e.Below bound) (hover : e = .take → w.StartsOver s) (hstep : w.step s e = some s') :
    Bounded bound s' := by
  have hbefore := h.before
  rcases step_cases hstep with ⟨panic, readable, -, hphase, rfl⟩ |
    ⟨startBlock, source, rfl, hphase, rfl⟩ |
    ⟨block, input, endBlock, total, stream, store, stream', -, hphase, hwork, rfl⟩ |
    ⟨endBlock, total, stream, phase, rfl, hphase, htake, rfl⟩ |
    ⟨applied, latest, -, hphase, rfl⟩ | ⟨lost, latest, -, hphase, rfl⟩ | ⟨-, rfl⟩
  · refine ⟨h.marked, ?_, fun _ _ _ hrun => absurd hrun (startAfter_ne_running _)⟩
    have hle : (if readable then s.latest.getD 0 else 0) + 1 ≤ bound := by
      cases readable with
      | false => exact hpos
      | true =>
        cases hlatest : s.latest with
        | none => exact hpos
        | some n => exact h.marked n hlatest
    exact At.startAfter hle (fun _ => Nat.zero_le _) (Or.inl (by omega))
  · rw [hphase] at hbefore
    refine ⟨h.marked, At.poll (F := (· ≤ bound)) hbefore source, fun _ _ _ hrun => ?_⟩
    obtain ⟨-, number, rfl, hstop⟩ := running_of_poll hrun
    cases number with
    | none => exact hstop.trans_lt hpos
    | some n => exact hstop.trans_lt hbelow
  · rw [hphase] at hbefore
    obtain ⟨-, -, t, -, rfl⟩ := Stream.work_eq_some.mp hwork
    refine ⟨h.marked, hbefore, fun _ _ _ hrun => ?_⟩
    cases hrun
    exact h.running _ _ _ hphase
  · rw [hphase] at hbefore
    refine ⟨h.marked, At.take hbefore htake (fun _ => Nat.zero_le _) ?_ ?_, fun _ _ _ hrun => ?_⟩
    · intro block n rest hnext _
      obtain ⟨hle, -, -⟩ := hbefore.next hnext
      have hend := h.running _ _ _ hphase
      show block + 1 ≤ bound
      omega
    · rintro block rest hnext rfl
      exact hover rfl ⟨endBlock, total, stream, rest, hphase, hnext⟩
    · obtain ⟨rfl, -⟩ := running_of_take (htake.trans (congrArg some hrun))
      exact h.running _ _ _ hphase
  · exact h.write hbound hphase fun n => eq_or_le_of_checkpoint
  · exact h.write hbound hphase fun n hn => .inr (le_of_tornMarker hn)
  · exact ⟨h.marked, trivial, nofun⟩

/-! ### The marker does not go back -/

/-- The marker is absent or before the frontier. -/
def Ordered (s : System σ τ) : Prop :=
  At (fun y => s.latest.getD 0 = 0 ∨ s.latest.getD 0 < y) s.phase

/-- A worker that starts without having read the marker finds none. -/
def Event.Informed (s : System σ τ) : Event ν → Prop
  | .boot readable => readable = false → s.latest.getD 0 = 0
  | _ => True

/-- The marker is written as a whole, or it stays as it is. -/
def Event.Whole : Event ν → Prop
  | .tear _ => False
  | _ => True

/-- **A step never takes the marker back**, and leaves it before the frontier. -/
theorem Ordered.step (h : Ordered s) (hb : Bounded bound s) (hbound : bound < 2 ^ 64)
    (hinf : e.Informed s) (hwhole : e.Whole) (hover : e = .take → w.StartsOver s)
    (hstep : w.step s e = some s') :
    Ordered s' ∧ s.latest.getD 0 ≤ s'.latest.getD 0 := by
  have hzero : ∀ m : ℕ, (m = 0 ∨ m < 1) → (m = 0 ∨ m < 0) := fun m hm => by omega
  rcases step_cases hstep with ⟨panic, readable, rfl, hphase, rfl⟩ |
    ⟨startBlock, source, -, hphase, rfl⟩ |
    ⟨block, input, endBlock, total, stream, store, stream', -, hphase, hwork, rfl⟩ |
    ⟨endBlock, total, stream, phase, rfl, hphase, htake, rfl⟩ |
    ⟨applied, latest, -, hphase, rfl⟩ | ⟨lost, latest, rfl, hphase, rfl⟩ | ⟨-, rfl⟩
  · refine ⟨?_, le_rfl⟩
    cases readable with
    | false =>
      -- The worker starts over, and there is no marker it could take back.
      exact Or.inl (hinf rfl)
    | true =>
      refine At.startAfter (Or.inr (Nat.lt_succ_self _)) (hzero _) (Or.inl ?_)
      cases hlatest : s.latest with
      | none => decide
      | some n =>
        have hn := hb.marked n hlatest
        simp only [if_true, Option.getD_some]
        omega
  · rw [Ordered, hphase] at h
    exact ⟨At.poll h source, le_rfl⟩
  · rw [Ordered, hphase] at h
    obtain ⟨-, -, t, -, rfl⟩ := Stream.work_eq_some.mp hwork
    exact ⟨h, le_rfl⟩
  · rw [Ordered, hphase] at h
    refine ⟨At.take h htake (hzero _) ?_ ?_, le_rfl⟩
    · rintro block n rest - (heq | hlt)
      · exact Or.inl heq
      · exact Or.inr (hlt.trans (Nat.lt_succ_self block))
    · rintro block rest hnext rfl
      exact hover rfl ⟨endBlock, total, stream, rest, hphase, hnext⟩
  · have hle : latest + 1 ≤ bound := by
      have hbefore := hb.before
      rw [hphase] at hbefore
      exact hbefore
    rw [Ordered, hphase] at h
    cases applied with
    | false => exact ⟨At.startAfter h (hzero _) (Or.inl (by omega)), le_rfl⟩
    | true =>
      refine ⟨At.startAfter (Or.inr (Nat.lt_succ_self _)) (hzero _) (Or.inl (by omega)), ?_⟩
      show s.latest.getD 0 ≤ latest
      rcases h with heq | hlt
      · omega
      · omega
  · exact hwhole.elim
  · exact ⟨trivial, le_rfl⟩

theorem bounded_of_down {panic : Option Panic} (h : s.phase = .down panic)
    (hmarked : ∀ n, s.latest = some n → n < bound) : Bounded bound s := by
  refine ⟨hmarked, ?_, fun _ _ _ hrun => ?_⟩
  · rw [h]
    trivial
  · rw [h] at hrun
    cases hrun

theorem ordered_of_down {panic : Option Panic} (h : s.phase = .down panic) : Ordered s := by
  rw [Ordered, h]
  trivial

/-- **In every run the marker never goes back.** -/
theorem Ordered.run {allowed : System σ τ → Event ν → Prop} {s₀ : System σ τ} (h : Ordered s₀)
    (hb : Bounded bound s₀) (hbound : bound < 2 ^ 64) (hpos : 0 < bound)
    (hallowed : ∀ s e, allowed s e → e.Below bound ∧ e.Informed s ∧ e.Whole)
    (hover : ∀ s, allowed s .take → w.StartsOver s)
    (hrun : Relation.ReflTransGen (w.Step allowed) s₀ s) :
    Ordered s ∧ Bounded bound s ∧ s₀.latest.getD 0 ≤ s.latest.getD 0 := by
  induction hrun with
  | refl => exact ⟨h, hb, le_rfl⟩
  | tail _ hstep ih =>
    obtain ⟨e, he, hstep⟩ := hstep
    obtain ⟨hbelow, hinf, hwhole⟩ := hallowed _ e he
    have hover' := fun htake : e = .take => hover _ (htake ▸ he)
    obtain ⟨hord, hbnd, hle⟩ := ih
    obtain ⟨hord', hle'⟩ := hord.step hbnd hbound hinf hwhole hover' hstep
    exact ⟨hord', hbnd.step hbound hpos hbelow hover' hstep, hle.trans hle'⟩

end Worker

end Archive

end MonadServices
