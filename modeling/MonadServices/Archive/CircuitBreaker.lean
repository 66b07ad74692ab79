import Mathlib.Logic.Function.Basic
import Mathlib.Logic.Relation
import Mathlib.Tactic

/-!
# The failover circuit breaker

Readers of the archive share a breaker that sends them to a fallback when the primary has
failed too often. Its state sits behind a read-write lock, and **each acquisition of the
lock is one step here**: the steps of any number of callers interleave in any order, and
the clock moves between them.

The one operation that takes the lock twice is `should_use_fallback`: it sees under the
read lock that the breaker has been open for long enough
(`MonadServices.Archive.CircuitBreaker.Lock.check`), drops the lock, and makes the breaker
half-open under the write lock (`MonadServices.Archive.CircuitBreaker.Lock.promote`) without
looking at the clock again. A breaker that was probed and has reopened in between is then
half-open at once. This is the one way in which the breaker can be left early: **as long as
no caller promotes an opening it has not seen, an open breaker keeps its callers away from
the primary until the recovery timeout has passed**
(`MonadServices.Archive.CircuitBreaker.safe_of_undisturbed`).
-/

namespace MonadServices

namespace Archive

namespace CircuitBreaker

/-! ### The breaker -/

/-- The state of the circuit. -/
inductive State where
  | closed
  | opened
  | halfOpen
  deriving DecidableEq

/-- What the lock protects. Times are those of a monotone clock. -/
structure CircuitBreakerState where
  state : State
  failureCount : UInt32
  failureThreshold : UInt32
  recoveryTimeout : ℕ
  openedAt : Option ℕ
  deriving DecidableEq

/-- The lock. A caller that panics while it holds it leaves it poisoned. -/
structure Lock where
  breaker : CircuitBreakerState
  poisoned : Bool
  deriving DecidableEq

/-- A new breaker is closed. -/
def Lock.new (failureThreshold : UInt32) (recoveryTimeout : ℕ) : Lock where
  breaker :=
    { state := .closed
      failureCount := 0
      failureThreshold := failureThreshold
      recoveryTimeout := recoveryTimeout
      openedAt := none }
  poisoned := false

/-- What `should_use_fallback` has made of the state when it drops the read lock. -/
inductive Check where
  | answer (useFallback : Bool)
  /-- It takes the write lock next; `openedAt` is the opening it has seen. -/
  | promote (openedAt : ℕ)
  deriving DecidableEq

/-- `should_use_fallback` under the read lock. -/
def Lock.check (l : Lock) (now : ℕ) : Check :=
  -- A poisoned lock cannot be read, and then the primary is tried.
  if l.poisoned then .answer false
  else match l.breaker.state with
    | .closed => .answer false
    | .opened =>
      match l.breaker.openedAt with
      | some openedAt =>
        if l.breaker.recoveryTimeout ≤ now - openedAt then .promote openedAt else .answer true
      | none => .answer true
    | .halfOpen => .answer false

/-- `should_use_fallback` under the write lock: the clock is not looked at again. -/
def Lock.promote (l : Lock) : Lock :=
  if l.poisoned then l
  else if l.breaker.state = .opened then
    { l with breaker := { l.breaker with state := .halfOpen } }
  else l

/-- `record_success`. -/
def Lock.recordSuccess (l : Lock) : Lock :=
  if l.poisoned then l
  else match l.breaker.state with
    | .halfOpen =>
      { l with breaker :=
        { l.breaker with state := .closed, failureCount := 0, openedAt := none } }
    | .closed => { l with breaker := { l.breaker with failureCount := 0 } }
    | .opened => { l with breaker := { l.breaker with failureCount := 0 } }

/-- `record_failure`. The count wraps, or its overflow is a panic under the lock, as the
build has it. -/
def Lock.recordFailure (l : Lock) (overflowChecks : Bool) (now : ℕ) : Lock :=
  if l.poisoned then l
  else if overflowChecks ∧ l.breaker.failureCount.toNat = 2 ^ 32 - 1 then
    { l with poisoned := true }
  else
    let counted := { l.breaker with failureCount := l.breaker.failureCount + 1 }
    match counted.state with
    | .closed =>
      if counted.failureThreshold ≤ counted.failureCount then
        { l with breaker := { counted with state := .opened, openedAt := some now } }
      else { l with breaker := counted }
    | .halfOpen => { l with breaker := { counted with state := .opened, openedAt := some now } }
    | .opened => { l with breaker := counted }

/-! ### The callers -/

/-- Where a caller of `execute` is. -/
inductive Caller where
  | idle
  /-- In `should_use_fallback`, between the two locks. -/
  | promoting (openedAt : ℕ)
  /-- The call to the primary is under way. -/
  | primary
  /-- The call to the fallback is under way. -/
  | fallback
  deriving DecidableEq

/-- The breaker, its callers and the clock. -/
structure System (ι : Type) where
  lock : Lock
  callers : ι → Caller
  now : ℕ

/-- What may happen. -/
inductive Event (ι : Type) where
  /-- A caller enters `execute` and takes the read lock. -/
  | enter (i : ι)
  /-- A caller takes the write lock to make the breaker half-open. -/
  | promote (i : ι)
  /-- The primary answers a caller, who records it. -/
  | reply (i : ι) (ok : Bool)
  /-- The fallback answers a caller, or a call is dropped while it waits. -/
  | leave (i : ι)
  /-- Time passes. -/
  | tick (elapsed : ℕ)

/-- The start: no caller is in `execute`. -/
def System.new (ι : Type) (failureThreshold : UInt32) (recoveryTimeout now : ℕ) : System ι where
  lock := .new failureThreshold recoveryTimeout
  callers := fun _ => .idle
  now := now

variable {ι : Type} [DecidableEq ι]

/-- **One step of `execute`** on an executor that has a fallback; `none` when the event cannot
happen now. -/
def step (overflowChecks : Bool) (s : System ι) : Event ι → Option (System ι)
  | .enter i =>
    if s.callers i = .idle then
      some { s with callers := Function.update s.callers i <|
        match s.lock.check s.now with
        | .answer true => .fallback
        | .answer false => .primary
        | .promote openedAt => .promoting openedAt }
    else none
  | .promote i =>
    match s.callers i with
    | .promoting _ =>
      some { s with lock := s.lock.promote, callers := Function.update s.callers i .primary }
    | _ => none
  | .reply i ok =>
    if s.callers i = .primary then
      if ok then
        some { s with
          lock := s.lock.recordSuccess
          callers := Function.update s.callers i .idle }
      else
        some { s with
          lock := s.lock.recordFailure overflowChecks s.now
          callers := Function.update s.callers i .fallback }
    else none
  | .leave i =>
    if s.callers i = .primary ∨ s.callers i = .fallback then
      some { s with callers := Function.update s.callers i .idle }
    else none
  | .tick elapsed => some { s with now := s.now + elapsed }

/-! ### What the breaker promises -/

/-- A step of the system, by an event of which `allowed` holds in the state before it. -/
def Step (overflowChecks : Bool) (allowed : System ι → Event ι → Prop) (s s' : System ι) : Prop :=
  ∃ e, allowed s e ∧ step overflowChecks s e = some s'

/-- What holds of the breaker in every state: while it is closed it has not seen too many
failures and records no opening, and otherwise it records one, so that it can recover. -/
structure WellFormed (b : CircuitBreakerState) : Prop where
  closed : b.state = .closed → b.failureCount < b.failureThreshold ∧ b.openedAt = none
  tripped : b.state ≠ .closed → b.openedAt.isSome

/-- The recovery timeout has passed since the opening the breaker records. -/
def Recovered (s : System ι) : Prop :=
  ∃ openedAt, s.lock.breaker.openedAt = some openedAt ∧
    s.lock.breaker.recoveryTimeout ≤ s.now - openedAt

/-- What holds of every step: an open breaker becomes half-open, and lets a caller through to
the primary, only when it has recovered. -/
structure Patient (s s' : System ι) : Prop where
  leaves : s.lock.breaker.state = .opened → s'.lock.breaker.state = .halfOpen → Recovered s
  admits : ∀ i, s.lock.breaker.state = .opened → s.callers i ≠ .primary →
    s'.callers i = .primary → Recovered s

/-- The condition on the steps: a caller that takes the write lock to promote an open breaker
finds there the opening it has seen under the read lock, and no failure is counted past the
largest count where that is a panic. -/
def Undisturbed (overflowChecks : Bool) (s : System ι) : Event ι → Prop
  | .promote i => ∀ openedAt, s.callers i = .promoting openedAt →
      s.lock.breaker.state = .opened → s.lock.breaker.openedAt = some openedAt
  | .reply _ false => overflowChecks = true → s.lock.breaker.failureCount.toNat ≠ 2 ^ 32 - 1
  | _ => True

/-! ### One acquisition of the lock -/

variable {l : Lock} {s s' : System ι} {overflowChecks : Bool} {now : ℕ}

/-- The write lock changes an open breaker only. -/
theorem Lock.promote_eq (hp : l.poisoned = false) :
    l.promote = if l.breaker.state = .opened then
      { l with breaker := { l.breaker with state := .halfOpen } } else l := by
  simp [Lock.promote, hp]

theorem WellFormed.promote (h : WellFormed l.breaker) (hp : l.poisoned = false) :
    WellFormed l.promote.breaker := by
  rw [Lock.promote_eq hp]
  split
  · rename_i hopen
    refine ⟨fun hc => (by cases hc), fun _ => ?_⟩
    exact h.tripped (by rw [hopen]; decide)
  · exact h

theorem WellFormed.recordSuccess (h : WellFormed l.breaker) (hp : l.poisoned = false)
    (hpos : 0 < l.breaker.failureThreshold) : WellFormed l.recordSuccess.breaker := by
  simp only [Lock.recordSuccess, hp, Bool.false_eq_true, if_false]
  cases hstate : l.breaker.state with
  | halfOpen => exact ⟨fun _ => ⟨hpos, rfl⟩, fun hne => absurd rfl hne⟩
  | closed => exact ⟨fun _ => ⟨hpos, (h.closed hstate).2⟩, fun hne => absurd rfl hne⟩
  | opened =>
    refine ⟨fun hc => (by cases hc), fun _ => ?_⟩
    exact h.tripped (by rw [hstate]; decide)

/-- A count that does not reach the threshold stays below it, even when it wraps. -/
theorem WellFormed.recordFailure (h : WellFormed l.breaker) (hp : l.poisoned = false) :
    WellFormed (l.recordFailure overflowChecks now).breaker := by
  simp only [Lock.recordFailure, hp, Bool.false_eq_true, if_false]
  split
  · exact h
  · cases hstate : l.breaker.state with
    | closed =>
      simp only
      split
      · exact ⟨fun hc => (by cases hc), fun _ => rfl⟩
      · rename_i hlt
        exact ⟨fun _ => ⟨UInt32.not_le.mp hlt, (h.closed hstate).2⟩, fun hne => absurd rfl hne⟩
    | halfOpen => exact ⟨fun hc => (by cases hc), fun _ => rfl⟩
    | opened =>
      refine ⟨fun hc => (by cases hc), fun _ => ?_⟩
      exact h.tripped (by rw [hstate]; decide)

/-- Recording a failure poisons the lock only by the overflow of the count. -/
theorem Lock.recordFailure_poisoned (hp : l.poisoned = false)
    (hcount : overflowChecks = true → l.breaker.failureCount.toNat ≠ 2 ^ 32 - 1) :
    (l.recordFailure overflowChecks now).poisoned = false := by
  simp only [Lock.recordFailure, hp, Bool.false_eq_true, if_false]
  rw [if_neg fun hov => hcount hov.1 hov.2]
  cases l.breaker.state with
  | closed =>
    simp only
    split <;> rfl
  | halfOpen => rfl
  | opened => rfl

/-- What no acquisition of the lock changes. -/
structure SameSettings (l l' : Lock) : Prop where
  failureThreshold : l'.breaker.failureThreshold = l.breaker.failureThreshold
  recoveryTimeout : l'.breaker.recoveryTimeout = l.breaker.recoveryTimeout

theorem Lock.promote_settings : SameSettings l l.promote := by
  unfold Lock.promote
  split
  · exact ⟨rfl, rfl⟩
  · split <;> exact ⟨rfl, rfl⟩

theorem Lock.recordSuccess_settings : SameSettings l l.recordSuccess := by
  unfold Lock.recordSuccess
  split
  · exact ⟨rfl, rfl⟩
  · split <;> exact ⟨rfl, rfl⟩

theorem Lock.recordFailure_settings : SameSettings l (l.recordFailure overflowChecks now) := by
  unfold Lock.recordFailure
  split
  · exact ⟨rfl, rfl⟩
  · split
    · exact ⟨rfl, rfl⟩
    · simp only
      split
      · split <;> exact ⟨rfl, rfl⟩
      · exact ⟨rfl, rfl⟩
      · exact ⟨rfl, rfl⟩

/-- An answer that arrives while the breaker is open leaves it open. -/
theorem Lock.recordSuccess_opened (h : l.breaker.state = .opened) :
    l.recordSuccess.breaker.state = .opened := by
  unfold Lock.recordSuccess
  split
  · exact h
  · rw [h]
    exact h

theorem Lock.recordFailure_opened (h : l.breaker.state = .opened) :
    (l.recordFailure overflowChecks now).breaker.state = .opened := by
  unfold Lock.recordFailure
  split
  · exact h
  · split
    · exact h
    · simp only [h]

/-- An open breaker answers that the fallback is to be used, or has recovered. -/
theorem Lock.check_opened (now : ℕ) (hp : l.poisoned = false) (h : l.breaker.state = .opened) :
    l.check now = .answer true ∨ ∃ openedAt, l.breaker.openedAt = some openedAt ∧
      l.breaker.recoveryTimeout ≤ now - openedAt ∧ l.check now = .promote openedAt := by
  simp only [Lock.check, hp, Bool.false_eq_true, if_false, h]
  cases hat : l.breaker.openedAt with
  | none => exact Or.inl rfl
  | some openedAt =>
    by_cases hle : l.breaker.recoveryTimeout ≤ now - openedAt
    · exact Or.inr ⟨openedAt, rfl, hle, if_pos hle⟩
    · exact Or.inl (if_neg hle)

/-- A caller goes for the write lock only when the breaker has recovered. -/
theorem Lock.check_promote {openedAt : ℕ} (h : l.check now = .promote openedAt) :
    l.breaker.recoveryTimeout ≤ now - openedAt := by
  unfold Lock.check at h
  split at h
  · cases h
  · split at h
    · cases h
    · split at h
      · split at h
        · cases h
          assumption
        · cases h
      · cases h
    · cases h

/-! ### One step of the system -/

/-- **The invariant** of the system, with what the callers between the two locks have seen. -/
structure Inv (s : System ι) : Prop where
  unpoisoned : s.lock.poisoned = false
  wellFormed : WellFormed s.lock.breaker
  positive : 0 < s.lock.breaker.failureThreshold
  waited : ∀ i openedAt, s.callers i = .promoting openedAt →
    s.lock.breaker.recoveryTimeout ≤ s.now - openedAt

omit [DecidableEq ι] in
theorem inv_new {failureThreshold : UInt32} {recoveryTimeout : ℕ} (hpos : 0 < failureThreshold) :
    Inv (System.new ι failureThreshold recoveryTimeout now) where
  unpoisoned := rfl
  wellFormed := ⟨fun _ => ⟨hpos, rfl⟩, fun hne => absurd rfl hne⟩
  positive := hpos
  waited := fun _ _ h => by cases h

/-- Only the caller that moves can be new between the two locks. -/
theorem Inv.update {l' : Lock} {c : Caller} {i : ι} (h : Inv s) (hset : SameSettings s.lock l')
    (hp : l'.poisoned = false) (hw : WellFormed l'.breaker)
    (hc : ∀ openedAt, c = .promoting openedAt → l'.breaker.recoveryTimeout ≤ s.now - openedAt) :
    Inv { s with lock := l', callers := Function.update s.callers i c } where
  unpoisoned := hp
  wellFormed := hw
  positive := by
    show 0 < l'.breaker.failureThreshold
    rw [hset.failureThreshold]
    exact h.positive
  waited := by
    intro j openedAt hj
    rcases eq_or_ne j i with rfl | hne
    · simp only [Function.update_self] at hj
      exact hc openedAt hj
    · simp only [Function.update_of_ne hne] at hj
      show l'.breaker.recoveryTimeout ≤ s.now - openedAt
      rw [hset.recoveryTimeout]
      exact h.waited j openedAt hj

/-- **The invariant is kept by every undisturbed step.** -/
theorem Inv.step {e : Event ι} (h : Inv s) (hu : Undisturbed overflowChecks s e)
    (hstep : CircuitBreaker.step overflowChecks s e = some s') : Inv s' := by
  cases e with
  | enter i =>
    simp only [CircuitBreaker.step, Option.ite_none_right_eq_some, Option.some.injEq] at hstep
    obtain ⟨-, rfl⟩ := hstep
    refine h.update ⟨rfl, rfl⟩ h.unpoisoned h.wellFormed fun openedAt hc => ?_
    split at hc
    · cases hc
    · cases hc
    · rename_i hcheck
      cases hc
      exact Lock.check_promote hcheck
  | promote i =>
    simp only [CircuitBreaker.step] at hstep
    split at hstep
    · cases hstep
      refine h.update Lock.promote_settings ?_ (h.wellFormed.promote h.unpoisoned)
        fun _ hc => (by cases hc)
      rw [Lock.promote_eq h.unpoisoned]
      split <;> exact h.unpoisoned
    · cases hstep
  | reply i ok =>
    simp only [CircuitBreaker.step, Option.ite_none_right_eq_some] at hstep
    obtain ⟨-, hstep⟩ := hstep
    cases ok with
    | true =>
      simp only [if_true, Option.some.injEq] at hstep
      subst hstep
      refine h.update Lock.recordSuccess_settings ?_
        (h.wellFormed.recordSuccess h.unpoisoned h.positive) fun _ hc => (by cases hc)
      simp only [Lock.recordSuccess, h.unpoisoned, Bool.false_eq_true, if_false]
      split <;> rfl
    | false =>
      simp only [Bool.false_eq_true, if_false, Option.some.injEq] at hstep
      subst hstep
      exact h.update Lock.recordFailure_settings (Lock.recordFailure_poisoned h.unpoisoned hu)
        (h.wellFormed.recordFailure h.unpoisoned) fun _ hc => (by cases hc)
  | leave i =>
    simp only [CircuitBreaker.step, Option.ite_none_right_eq_some, Option.some.injEq] at hstep
    obtain ⟨-, rfl⟩ := hstep
    exact h.update ⟨rfl, rfl⟩ h.unpoisoned h.wellFormed fun _ hc => (by cases hc)
  | tick elapsed =>
    cases hstep
    -- The clock moves forward, so that who has waited long enough still has.
    exact ⟨h.unpoisoned, h.wellFormed, h.positive, fun i openedAt hi =>
      (h.waited i openedAt hi).trans (Nat.sub_le_sub_right (Nat.le_add_right ..) _)⟩

/-- A step that leaves an open breaker open, and sends the caller that moves elsewhere than to
the primary, is patient. -/
theorem Patient.of_opened {l' : Lock} {c : Caller} {i : ι}
    (hl : s.lock.breaker.state = .opened → l'.breaker.state = .opened)
    (hc : s.lock.breaker.state = .opened → c ≠ .primary) :
    Patient s { s with lock := l', callers := Function.update s.callers i c } where
  leaves := by
    intro hopen hhalf
    rw [hl hopen] at hhalf
    cases hhalf
  admits := by
    intro j hopen hbefore hafter
    rcases eq_or_ne j i with rfl | hne
    · simp only [Function.update_self] at hafter
      exact absurd hafter (hc hopen)
    · simp only [Function.update_of_ne hne] at hafter
      exact absurd hafter hbefore

/-- **Every undisturbed step is patient.** The only one that makes an open breaker half-open
is that of a caller who has seen, under the read lock, that the opening the breaker records
is old enough. -/
theorem Inv.patient {e : Event ι} (h : Inv s) (hu : Undisturbed overflowChecks s e)
    (hstep : CircuitBreaker.step overflowChecks s e = some s') : Patient s s' := by
  cases e with
  | enter i =>
    simp only [CircuitBreaker.step, Option.ite_none_right_eq_some, Option.some.injEq] at hstep
    obtain ⟨-, rfl⟩ := hstep
    refine .of_opened (fun hopen => hopen) fun hopen => ?_
    rcases Lock.check_opened s.now h.unpoisoned hopen with hcheck | ⟨t, -, -, hcheck⟩
    · rw [hcheck]
      exact fun hc => (by cases hc)
    · rw [hcheck]
      exact fun hc => (by cases hc)
  | promote i =>
    simp only [CircuitBreaker.step] at hstep
    split at hstep
    · rename_i openedAt hi
      cases hstep
      have hrec : s.lock.breaker.state = .opened → Recovered s := fun hopen =>
        ⟨openedAt, hu openedAt hi hopen, h.waited i openedAt hi⟩
      exact ⟨fun hopen _ => hrec hopen, fun _ hopen _ _ => hrec hopen⟩
    · cases hstep
  | reply i ok =>
    simp only [CircuitBreaker.step, Option.ite_none_right_eq_some] at hstep
    obtain ⟨-, hstep⟩ := hstep
    cases ok with
    | true =>
      simp only [if_true, Option.some.injEq] at hstep
      subst hstep
      exact .of_opened Lock.recordSuccess_opened fun _ hc => (by cases hc)
    | false =>
      simp only [Bool.false_eq_true, if_false, Option.some.injEq] at hstep
      subst hstep
      exact .of_opened Lock.recordFailure_opened fun _ hc => (by cases hc)
  | leave i =>
    simp only [CircuitBreaker.step, Option.ite_none_right_eq_some, Option.some.injEq] at hstep
    obtain ⟨-, rfl⟩ := hstep
    exact .of_opened (fun hopen => hopen) fun _ hc => (by cases hc)
  | tick elapsed =>
    cases hstep
    refine ⟨fun hopen hhalf => ?_, fun i _ hbefore hafter => absurd hafter hbefore⟩
    rw [hopen] at hhalf
    cases hhalf

/-! ### Every run -/

/-- What the breaker promises of a state: it is well formed, and every step that `allowed` lets
happen in it is patient. -/
def Safe (overflowChecks : Bool) (allowed : System ι → Event ι → Prop) (s : System ι) : Prop :=
  WellFormed s.lock.breaker ∧ ∀ s', Step overflowChecks allowed s s' → Patient s s'

theorem Inv.run {s₀ : System ι} (h : Inv s₀)
    (hrun : Relation.ReflTransGen (Step overflowChecks (Undisturbed overflowChecks)) s₀ s) :
    Inv s := by
  induction hrun with
  | refl => exact h
  | tail _ hstep ih =>
    obtain ⟨e, hu, hstep⟩ := hstep
    exact ih.step hu hstep

/-- **An open breaker is left only when it has recovered**: in every run of any number of
callers whose steps are all undisturbed, every state is well formed and every step patient. -/
theorem safe_of_undisturbed {failureThreshold : UInt32} (hpos : 1 ≤ failureThreshold)
    {recoveryTimeout : ℕ}
    (hrun : Relation.ReflTransGen (Step overflowChecks (Undisturbed overflowChecks))
      (System.new ι failureThreshold recoveryTimeout now) s) :
    Safe overflowChecks (Undisturbed overflowChecks) s := by
  have hpos' : 0 < failureThreshold := UInt32.lt_of_lt_of_le (by decide) hpos
  have hinv := (inv_new hpos').run hrun
  refine ⟨hinv.wellFormed, ?_⟩
  rintro s' ⟨e, hu, hstep⟩
  exact hinv.patient hu hstep

/-- A breaker that opens at the first failure, is probed after its timeout and has recovered. -/
theorem safe_of_undisturbed_probe :
    ∃ s : System Bool, s.lock.breaker.state = .halfOpen ∧ s.lock.breaker.openedAt = some 0 ∧
      s.callers true = .primary ∧ Safe true (Undisturbed true) s := by
  have hrun : ∃ s : System Bool, s.lock.breaker.state = .halfOpen ∧
      s.lock.breaker.openedAt = some 0 ∧ s.callers true = .primary ∧
      Relation.ReflTransGen (Step true (Undisturbed true)) (System.new Bool 1 10 0) s := by
    refine ⟨_, ?_, ?_, ?_, .head ⟨.enter true, trivial, rfl⟩ <|
      .head ⟨.reply true false, fun _ => by decide, rfl⟩ <|
      .head ⟨.leave true, trivial, rfl⟩ <| .head ⟨.tick 10, trivial, rfl⟩ <|
      .head ⟨.enter true, trivial, rfl⟩ <| .head ⟨.promote true, ?_, rfl⟩ .refl⟩
    · rfl
    · rfl
    · rfl
    · rintro openedAt h -
      cases h
      rfl
  obtain ⟨s, hstate, hat, hcaller, hrun⟩ := hrun
  exact ⟨s, hstate, hat, hcaller, safe_of_undisturbed (by decide) hrun⟩

/-- Two callers see that the breaker has been open for ten units. The first one makes it
half-open, and its probe fails, so that it is open anew; the second one makes it half-open in
the same instant. -/
theorem stale_promotion_not_safe :
    ¬ ∀ s : System Bool, Relation.ReflTransGen (Step false fun _ _ => True)
      (System.new Bool 1 10 0) s → Safe false (fun _ _ => True) s := by
  intro h
  have hsafe := h _ (.head ⟨.enter true, trivial, rfl⟩ <|
    .head ⟨.reply true false, trivial, rfl⟩ <| .head ⟨.leave true, trivial, rfl⟩ <|
    .head ⟨.tick 10, trivial, rfl⟩ <| .head ⟨.enter true, trivial, rfl⟩ <|
    .head ⟨.enter false, trivial, rfl⟩ <| .head ⟨.promote true, trivial, rfl⟩ <|
    .head ⟨.reply true false, trivial, rfl⟩ .refl)
  have hpatient := hsafe.2 _ ⟨.promote false, trivial, rfl⟩
  obtain ⟨openedAt, hat, hle⟩ := hpatient.leaves rfl rfl
  cases hat
  exact absurd hle (by decide)

end CircuitBreaker

end Archive

end MonadServices
