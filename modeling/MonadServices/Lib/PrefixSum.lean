import Mathlib.Algebra.BigOperators.Group.List.Basic
import Mathlib.Tactic

/-!
# Sums of the first elements

A list of numbers is summed up from the front until the sum reaches a threshold. **The number of
elements that this takes is the only one up to which all sums are below the threshold and at which
it is reached, or the list ends** (`MonadServices.reach_eq`); it grows with the threshold, so that a
pass over the list can serve several thresholds in ascending order.
-/

namespace MonadServices

/-- The sum of the first `k` elements. -/
def sumTo (l : List ℕ) (k : ℕ) : ℕ := (l.take k).sum

/-- The number of elements after which the sum has reached `t`, or else that of all. -/
def reach : List ℕ → ℕ → ℕ
  | [], _ => 0
  | _ :: _, 0 => 0
  | a :: l, t + 1 => reach l (t + 1 - a) + 1

variable {l : List ℕ} {t k : ℕ}

@[simp] theorem sumTo_zero (l : List ℕ) : sumTo l 0 = 0 := rfl

theorem sumTo_cons_succ (a : ℕ) (l : List ℕ) (k : ℕ) :
    sumTo (a :: l) (k + 1) = a + sumTo l k := by
  rw [sumTo, List.take_succ_cons, List.sum_cons, sumTo]

theorem sumTo_succ (h : k < l.length) : sumTo l (k + 1) = sumTo l k + l[k] :=
  List.sum_take_succ l k h

theorem sumTo_mono {j : ℕ} (h : j ≤ k) : sumTo l j ≤ sumTo l k := by
  have hsub : (l.take j).Sublist (l.take k) := List.take_sublist_take_left h
  exact hsub.sum_le_sum fun _ _ => Nat.zero_le _

theorem reach_le_length (l : List ℕ) (t : ℕ) : reach l t ≤ l.length := by
  induction l generalizing t with
  | nil => exact le_rfl
  | cons a l ih =>
    cases t with
    | zero => exact Nat.zero_le _
    | succ t => exact Nat.succ_le_succ (ih _)

/-- Before, the threshold is not reached. -/
theorem sumTo_lt_of_lt_reach (h : k < reach l t) : sumTo l k < t := by
  induction l generalizing t k with
  | nil => exact absurd h (Nat.not_lt_zero k)
  | cons a l ih =>
    cases t with
    | zero => exact absurd h (Nat.not_lt_zero k)
    | succ t =>
      cases k with
      | zero => exact Nat.succ_pos t
      | succ k =>
        have hk := ih (Nat.lt_of_succ_lt_succ h)
        rw [sumTo_cons_succ]
        omega

/-- There it is, unless the list has ended. -/
theorem le_sumTo_reach (l : List ℕ) (t : ℕ) : t ≤ sumTo l (reach l t) ∨ reach l t = l.length := by
  induction l generalizing t with
  | nil => exact .inr rfl
  | cons a l ih =>
    cases t with
    | zero => exact .inl (Nat.zero_le _)
    | succ t =>
      change t + 1 ≤ sumTo _ (_ + 1) ∨ _ + 1 = l.length + 1
      rw [sumTo_cons_succ]
      obtain h | h := ih (t + 1 - a)
      · exact .inl (by omega)
      · exact .inr (congrArg (· + 1) h)

/-- **There is no other place like this.** -/
theorem reach_eq (hbefore : ∀ j < k, sumTo l j < t) (hat : t ≤ sumTo l k ∨ k = l.length)
    (hk : k ≤ l.length) : reach l t = k := by
  obtain hlt | heq | hgt := lt_trichotomy (reach l t) k
  · obtain h | h := le_sumTo_reach l t
    · exact absurd (hbefore _ hlt) (Nat.not_lt.mpr h)
    · exact absurd (h ▸ hlt) (Nat.not_lt.mpr hk)
  · exact heq
  · obtain h | h := hat
    · exact absurd (sumTo_lt_of_lt_reach hgt) (Nat.not_lt.mpr h)
    · exact absurd (h ▸ hgt) (Nat.not_lt.mpr (reach_le_length l t))

/-- Higher thresholds are reached later. -/
theorem reach_mono {t' : ℕ} (h : t ≤ t') : reach l t ≤ reach l t' := by
  by_contra hlt
  rw [Nat.not_le] at hlt
  obtain hle | hend := le_sumTo_reach l t'
  · exact absurd (sumTo_lt_of_lt_reach hlt) (Nat.not_lt.mpr (h.trans hle))
  · exact absurd (hend ▸ hlt) (Nat.not_lt.mpr (reach_le_length l t))

theorem reach_zero (l : List ℕ) : reach l 0 = 0 := by cases l <;> rfl

end MonadServices
