import Mathlib.Logic.Relation
import Mathlib.Tactic

/-!
# Loops

The body of a loop goes on from a state, ends with a result, or fails. A loop is run with fuel, and
has no result when it is out of fuel.

**An invariant and a number that decreases** say how a loop ends, and that it does
(`MonadServices.Loop.run_spec`): with more fuel than the number, there is a result, and it is what
the body ends with in a state that satisfies the invariant. The states between the rounds are those
of `MonadServices.Loop.Reaches`.
-/

namespace MonadServices

namespace Loop

variable {ε σ ρ : Type} {body : σ → Except ε (σ ⊕ ρ)}

def run (body : σ → Except ε (σ ⊕ ρ)) : ℕ → σ → Option (Except ε ρ)
  | 0, _ => none
  | fuel + 1, s =>
    match body s with
    | .error e => some (.error e)
    | .ok (.inr r) => some (.ok r)
    | .ok (.inl s') => run body fuel s'

/-- The states between the rounds. -/
def Reaches (body : σ → Except ε (σ ⊕ ρ)) : σ → σ → Prop :=
  Relation.ReflTransGen fun s s' => body s = .ok (.inl s')

/-- **What is asked of a round**: the loop ends as is asked for, or the invariant holds again and
the number is smaller. -/
def Round (Inv : σ → Prop) (Post : Except ε ρ → Prop) (μ : σ → ℕ) (s : σ) :
    Except ε (σ ⊕ ρ) → Prop
  | .error e => Post (.error e)
  | .ok (.inr r) => Post (.ok r)
  | .ok (.inl s') => Inv s' ∧ μ s' < μ s

variable {Inv : σ → Prop} {Post : Except ε ρ → Prop} {μ : σ → ℕ} {s s' : σ} {fuel : ℕ}

/-- **A loop ends as is asked for.** -/
theorem run_spec (hround : ∀ s, Inv s → Round Inv Post μ s (body s)) (hs : Inv s)
    (hfuel : μ s < fuel) : ∃ r, run body fuel s = some r ∧ Post r := by
  induction fuel generalizing s with
  | zero => exact absurd hfuel (Nat.not_lt_zero _)
  | succ fuel ih =>
    have h := hround s hs
    rw [run]
    cases hbody : body s with
    | error e =>
      rw [hbody] at h
      exact ⟨_, rfl, h⟩
    | ok next =>
      rw [hbody] at h
      cases next with
      | inr r => exact ⟨_, rfl, h⟩
      | inl s' => exact ih h.1 (Nat.lt_of_lt_of_le h.2 (Nat.lt_succ_iff.mp hfuel))

/-- The invariant holds between the rounds. -/
theorem inv_of_reaches (hround : ∀ s, Inv s → Round Inv Post μ s (body s)) (hs : Inv s)
    (h : Reaches body s s') : Inv s' := by
  induction h with
  | refl => exact hs
  | tail _ hbody ih =>
    have hnext := hround _ ih
    rw [hbody] at hnext
    exact hnext.1

/-- **Halving takes a number of rounds that is a logarithm.** -/
theorem clog_lt_clog_of_le_half {m n : ℕ} (hn : 1 < n) (hm : 2 * m ≤ n + 1) :
    Nat.clog 2 m < Nat.clog 2 n := by
  have hle : m ≤ (n + 2 - 1) / 2 := by omega
  rw [Nat.clog_of_two_le Nat.one_lt_two hn]
  exact Nat.lt_succ_of_le (Nat.clog_mono_right 2 hle)

end Loop

end MonadServices
