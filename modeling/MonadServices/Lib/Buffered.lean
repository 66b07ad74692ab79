import Mathlib.Algebra.Order.BigOperators.Group.List
import Mathlib.Logic.Function.Basic
import Mathlib.Tactic

/-!
# Streams of jobs that run at the same time and end in order

A **stream** runs a job for each item of a queue. At most `concurrency` jobs are under way,
those of the first items of the queue; their operations interleave in any order, and each of
them may change a state they share. The results are taken **in the order of the queue**: the
job of the first item has to end before the second result is looked at, and a stream that
is dropped leaves whatever its jobs have done so far.

What a job is about is a family of assertions `Kept i t s`: the job of the item `i`, which has
come as far as `t`, has left its traces in the shared state `s`. When every operation of a job
keeps its own assertion and those of the other items (`MonadServices.Job.Meets`), so
does every step of the stream (`MonadServices.Stream.Kept.work`,
`MonadServices.Stream.Kept.next`).

A job that is followed through all that may happen to the state it shares has come as far as
`MonadServices.Job.Reaches` says. When every job ends (`MonadServices.Job.Ends`), each step of
the stream leaves less to do, and **a stream that may run a job goes on** until its queue is empty
(`MonadServices.Stream.progress`).
-/

namespace MonadServices

/-- **A job**: where it starts, one operation of it, which depends on what the environment
decides, and its result once it has ended. -/
structure Job (σ ι τ ρ ν : Type) where
  fresh : τ
  step : ι → ν → σ → τ → Option (σ × τ)
  result : τ → Option ρ

/-- A stream of jobs: the items whose result has not been taken, and how far each job is. -/
structure Stream (ι τ : Type) where
  queue : List ι
  task : ι → τ

variable {σ ι τ ρ ν : Type}

namespace Stream

/-- The stream of the jobs for the items of a queue. -/
def start (job : Job σ ι τ ρ ν) (queue : List ι) : Stream ι τ := ⟨queue, fun _ => job.fresh⟩

/-- **One operation of one of the jobs under way**; `none` when there is no such operation. -/
def work [DecidableEq ι] (job : Job σ ι τ ρ ν) (concurrency : ℕ) (i : ι) (input : ν) (s : σ)
    (stream : Stream ι τ) : Option (σ × Stream ι τ) :=
  if i ∈ stream.queue.take concurrency ∧ job.result (stream.task i) = none then
    (job.step i input s (stream.task i)).map fun (s', t) =>
      (s', { stream with task := Function.update stream.task i t })
  else none

/-- **Takes the next result**; `none` while the job has not ended. -/
def next (job : Job σ ι τ ρ ν) (stream : Stream ι τ) : Option (ι × ρ × Stream ι τ) :=
  match stream.queue with
  | [] => none
  | i :: queue => (job.result (stream.task i)).map fun r => (i, r, { stream with queue := queue })

end Stream

/-! ### Assertions about jobs -/

/-- **The assertions are kept**: a job that has not started asserts nothing, and an operation
keeps the assertion of its own job and those of the other items. -/
structure Job.Meets (job : Job σ ι τ ρ ν) (Kept : ι → τ → σ → Prop) : Prop where
  fresh : ∀ i s, Kept i job.fresh s
  own : ∀ {i input s t s' t'}, job.step i input s t = some (s', t') → Kept i t s → Kept i t' s'
  frame : ∀ {i input s t s' t'}, job.step i input s t = some (s', t') →
    ∀ {j u}, j ≠ i → Kept j u s → Kept j u s'

/-- The assertion of every job in the queue. -/
def Stream.Kept (Kept : ι → τ → σ → Prop) (stream : Stream ι τ) (s : σ) : Prop :=
  ∀ i ∈ stream.queue, Kept i (stream.task i) s

variable {job : Job σ ι τ ρ ν} {Kept : ι → τ → σ → Prop} {stream stream' : Stream ι τ}
  {s s' : σ}

theorem Stream.Kept.start (h : job.Meets Kept) (queue : List ι) :
    (Stream.start job queue).Kept Kept s :=
  fun i _ => h.fresh i s

/-- What one operation does. -/
theorem Stream.work_eq_some [DecidableEq ι] {concurrency : ℕ} {i : ι} {input : ν} :
    stream.work job concurrency i input s = some (s', stream') ↔
      i ∈ stream.queue.take concurrency ∧ job.result (stream.task i) = none ∧
      ∃ t, job.step i input s (stream.task i) = some (s', t) ∧
        stream' = { stream with task := Function.update stream.task i t } := by
  unfold Stream.work
  rw [Option.ite_none_right_eq_some, Option.map_eq_some_iff, and_assoc]
  refine and_congr_right fun _ => and_congr_right fun _ => ?_
  constructor
  · rintro ⟨⟨s₁, t⟩, hstep, heq⟩
    cases heq
    exact ⟨t, hstep, rfl⟩
  · rintro ⟨t, hstep, rfl⟩
    exact ⟨(s', t), hstep, rfl⟩

/-- **An operation keeps the assertions** of all the jobs in the queue. -/
theorem Stream.Kept.work [DecidableEq ι] {concurrency : ℕ} {i : ι} {input : ν}
    (h : stream.Kept Kept s) (hjob : job.Meets Kept)
    (hwork : stream.work job concurrency i input s = some (s', stream')) :
    stream'.Kept Kept s' := by
  obtain ⟨hmem, -, t, hstep, rfl⟩ := Stream.work_eq_some.mp hwork
  intro j hj
  rcases eq_or_ne j i with rfl | hne
  · simp only [Function.update_self]
    exact hjob.own hstep (h j (List.mem_of_mem_take hmem))
  · simp only [Function.update_of_ne hne]
    exact hjob.frame hstep hne (h j hj)

/-- What taking a result does. -/
theorem Stream.next_eq_some {i : ι} {r : ρ} :
    stream.next job = some (i, r, stream') ↔
      stream.queue = i :: stream'.queue ∧ job.result (stream.task i) = some r ∧
        stream'.task = stream.task := by
  unfold Stream.next
  cases hqueue : stream.queue with
  | nil => simp
  | cons j queue =>
    simp only [Option.map_eq_some_iff, Prod.mk.injEq, List.cons.injEq]
    constructor
    · rintro ⟨r', hr', rfl, rfl, rfl⟩
      exact ⟨⟨rfl, rfl⟩, hr', rfl⟩
    · rintro ⟨⟨rfl, rfl⟩, hr, htask⟩
      refine ⟨r, hr, rfl, rfl, ?_⟩
      rw [← htask]

/-- **Taking a result keeps the assertions**, and gives that of the job that has ended. -/
theorem Stream.Kept.next {i : ι} {r : ρ} (h : stream.Kept Kept s)
    (hnext : stream.next job = some (i, r, stream')) :
    stream'.Kept Kept s ∧ ∃ t, job.result t = some r ∧ Kept i t s := by
  obtain ⟨hqueue, hr, htask⟩ := Stream.next_eq_some.mp hnext
  rw [Stream.Kept, hqueue, List.forall_mem_cons] at h
  refine ⟨fun j hj => ?_, stream.task i, hr, h.1⟩
  rw [htask]
  exact h.2 j hj

/-! ### What jobs may return -/

/-- **How far a job may come**, whatever happens to the state it shares. -/
inductive Job.Reaches (job : Job σ ι τ ρ ν) (i : ι) : τ → Prop where
  | fresh : Job.Reaches job i job.fresh
  | step {input : ν} {s s' : σ} {t t' : τ} (h : Job.Reaches job i t)
      (hstep : job.step i input s t = some (s', t')) : Job.Reaches job i t'

/-- **What a job may return.** -/
def Job.Returns (job : Job σ ι τ ρ ν) (i : ι) (r : ρ) : Prop :=
  ∃ t, job.Reaches i t ∧ job.result t = some r

theorem Job.meets_reaches (job : Job σ ι τ ρ ν) : job.Meets fun i t _ => job.Reaches i t where
  fresh := fun _ _ => .fresh
  own := fun hstep h => h.step hstep
  frame := fun _ _ _ _ h => h

/-! ### Jobs that end -/

/-- **Jobs that end**: a job without a result can go on, and each of its operations makes a number
smaller. -/
structure Job.Ends (job : Job σ ι τ ρ ν) (measure : ι → τ → ℕ) : Prop where
  progress : ∀ i s t, job.result t = none → ∃ input s' t', job.step i input s t = some (s', t')
  decreases : ∀ {i input s t s' t'}, job.step i input s t = some (s', t') →
    measure i t' < measure i t

/-- What the jobs of a stream still have to do. -/
def Stream.weight (measure : ι → τ → ℕ) (stream : Stream ι τ) : ℕ :=
  (stream.queue.map fun i => measure i (stream.task i) + 1).sum

variable {measure : ι → τ → ℕ}

theorem Stream.weight_work [DecidableEq ι] {concurrency : ℕ} {i : ι} {input : ν}
    (hjob : job.Ends measure)
    (hwork : stream.work job concurrency i input s = some (s', stream')) :
    stream'.weight measure < stream.weight measure := by
  obtain ⟨hmem, -, t, hstep, rfl⟩ := Stream.work_eq_some.mp hwork
  have hlt := hjob.decreases hstep
  refine List.sum_lt_sum _ _ (fun j _ => ?_) ⟨i, List.mem_of_mem_take hmem, ?_⟩
  · rcases eq_or_ne j i with rfl | hne
    · simp only [Function.update_self]
      omega
    · simp only [Function.update_of_ne hne]
      exact le_rfl
  · simp only [Function.update_self]
    omega

theorem Stream.weight_next {i : ι} {r : ρ} (hnext : stream.next job = some (i, r, stream')) :
    stream'.weight measure < stream.weight measure := by
  obtain ⟨hqueue, -, htask⟩ := Stream.next_eq_some.mp hnext
  rw [Stream.weight, Stream.weight, hqueue, htask, List.map_cons, List.sum_cons]
  omega

/-- **A stream goes on** until its queue is empty, unless no job may be under way. -/
theorem Stream.progress [DecidableEq ι] {concurrency : ℕ} (hjob : job.Ends measure)
    (hconcurrency : concurrency ≠ 0) (hqueue : stream.queue ≠ []) (s : σ) :
    (∃ i input next, stream.work job concurrency i input s = some next) ∨
      ∃ next, stream.next job = some next := by
  obtain ⟨i, queue, hcons⟩ := List.exists_cons_of_ne_nil hqueue
  cases hresult : job.result (stream.task i) with
  | some r =>
    exact .inr ⟨(i, r, ⟨queue, stream.task⟩), Stream.next_eq_some.mpr ⟨hcons, hresult, rfl⟩⟩
  | none =>
    obtain ⟨input, s', t, hstep⟩ := hjob.progress i s _ hresult
    have hmem : i ∈ stream.queue.take concurrency := by
      obtain ⟨n, rfl⟩ := Nat.exists_eq_succ_of_ne_zero hconcurrency
      rw [hcons, List.take_succ_cons]
      exact List.mem_cons_self
    exact .inl ⟨i, input, _, Stream.work_eq_some.mpr ⟨hmem, hresult, t, hstep, rfl⟩⟩

end MonadServices
