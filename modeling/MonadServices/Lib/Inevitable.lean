import Mathlib.Logic.Relation
import Mathlib.Tactic

/-!
# What a system cannot but reach

A system that goes on as long as it can reaches a goal **inevitably**, when the goal holds now, or
when some step is possible and every step leads to a state from which it is reached inevitably
(`MonadServices.Inevitably`). A run that is stuck short of the goal, and one that goes on for ever
without it, are both excluded.

The goal is shown to be inevitable by a number that every step makes smaller
(`MonadServices.Inevitably.of_measure`), and not to be by an invariant without it
(`MonadServices.not_inevitably`).
-/

namespace MonadServices

variable {σ : Type} {r : σ → σ → Prop} {P Q : σ → Prop} {s : σ}

/-- **The goal is reached whatever happens.** -/
inductive Inevitably (r : σ → σ → Prop) (P : σ → Prop) : σ → Prop where
  | now {s : σ} (h : P s) : Inevitably r P s
  | next {s : σ} (hcan : ∃ s', r s s') (h : ∀ s', r s s' → Inevitably r P s') : Inevitably r P s

namespace Inevitably

/-- What is reached from the goal. -/
theorem trans (h : Inevitably r P s) (hgoal : ∀ s, P s → Inevitably r Q s) :
    Inevitably r Q s := by
  induction h with
  | now h => exact hgoal _ h
  | next hcan _ ih => exact .next hcan ih

theorem mono (h : Inevitably r P s) (hgoal : ∀ s, P s → Q s) : Inevitably r Q s :=
  h.trans fun s hs => .now (hgoal s hs)

/-- An invariant holds at the goal. -/
theorem and_invariant (h : Inevitably r P s) (hs : Q s)
    (hstep : ∀ s s', Q s → r s s' → Q s') : Inevitably r (fun s => P s ∧ Q s) s := by
  induction h with
  | now h => exact .now ⟨h, hs⟩
  | next hcan _ ih => exact .next hcan fun s' hr => ih s' hr (hstep _ s' hs hr)

/-- A goal that is reached before some states are left is reached. -/
theorem of_within (h : Inevitably (fun s s' => Q s ∧ r s s') P s) : Inevitably r P s := by
  induction h with
  | now h => exact .now h
  | next hcan _ ih =>
    obtain ⟨s', hQ, hr⟩ := hcan
    exact .next ⟨s', hr⟩ fun s'' hr' => ih s'' ⟨hQ, hr'⟩

/-- **A goal is inevitable** when every step before it is possible and makes a number smaller. -/
theorem of_measure (μ : σ → ℕ)
    (hprogress : ∀ s, Q s → P s ∨ (∃ s', r s s') ∧ ∀ s', r s s' → Q s' ∧ μ s' < μ s)
    (hs : Q s) : Inevitably r P s := by
  induction hμ : μ s using Nat.strong_induction_on generalizing s with
  | _ n ih =>
    rcases hprogress s hs with hgoal | ⟨hcan, hsmaller⟩
    · exact .now hgoal
    · refine .next hcan fun s' hr => ?_
      obtain ⟨hs', hlt⟩ := hsmaller s' hr
      exact ih _ (hμ ▸ hlt) hs' rfl

theorem exists_run (h : Inevitably r P s) : ∃ s', Relation.ReflTransGen r s s' ∧ P s' := by
  induction h with
  | now h => exact ⟨_, .refl, h⟩
  | next hcan _ ih =>
    obtain ⟨s', hr⟩ := hcan
    obtain ⟨s'', hrun, hP⟩ := ih s' hr
    exact ⟨s'', .head hr hrun, hP⟩

end Inevitably

/-- **A goal is not inevitable** when an invariant excludes it. -/
theorem not_inevitably (hs : Q s) (hstep : ∀ s s', Q s → r s s' → Q s')
    (hnot : ∀ s, Q s → ¬P s) : ¬Inevitably r P s := by
  intro h
  obtain ⟨s', hrun, hP⟩ := h.exists_run
  have hs' : ∀ s'', Relation.ReflTransGen r s s'' → Q s'' := by
    intro s'' hrun
    induction hrun with
    | refl => exact hs
    | tail _ hr ih => exact hstep _ _ ih hr
  exact hnot s' (hs' s' hrun) hP

end MonadServices
