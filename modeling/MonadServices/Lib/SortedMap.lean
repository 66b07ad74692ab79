import Mathlib.Order.Defs.LinearOrder
import Mathlib.Data.List.Sort
import Mathlib.Tactic

/-!
# Maps kept in the order of their keys

An ordered map is a list of entries with strictly increasing keys.
`MonadServices.SortedMap.insert` puts a value under a key and says which value it has
replaced. A map to which all keys of a list are added holds them in order, whatever the order
in which they come.
-/

namespace MonadServices

namespace SortedMap

variable {K V : Type} [LinearOrder K]

/-- The keys increase strictly. -/
def Sorted (m : List (K × V)) : Prop := m.Pairwise fun a b => a.1 < b.1

/-- Puts a value under a key. Also returns the value that was there. -/
def insert : List (K × V) → K → V → List (K × V) × Option V
  | [], k, v => ([(k, v)], none)
  | (k', v') :: rest, k, v =>
    if k < k' then ((k, v) :: (k', v') :: rest, none)
    else if k = k' then ((k, v) :: rest, some v')
    else ((k', v') :: (insert rest k v).1, (insert rest k v).2)

/-- A key that is not there is added. -/
theorem insert_of_not_mem {m : List (K × V)} {k : K} (v : V) (h : ∀ e ∈ m, e.1 ≠ k) :
    (insert m k v).2 = none ∧ (insert m k v).1.Perm ((k, v) :: m) := by
  induction m with
  | nil => exact ⟨rfl, .refl _⟩
  | cons e rest ih =>
    obtain ⟨k', v'⟩ := e
    have hne : k ≠ k' := (h (k', v') (by simp)).symm
    obtain ⟨hold, hperm⟩ := ih fun e he => h e (List.mem_cons_of_mem _ he)
    by_cases hlt : k < k'
    · simp [insert, hlt]
    · refine ⟨by simp [insert, hlt, hne, hold], ?_⟩
      simp only [insert, if_neg hlt, if_neg hne]
      exact (hperm.cons (k', v')).trans (.swap (k, v) (k', v') rest)

/-- A value that replaces no other is added. -/
theorem perm_insert_of_none {m : List (K × V)} {k : K} {v : V} (h : (insert m k v).2 = none) :
    (insert m k v).1.Perm ((k, v) :: m) := by
  induction m with
  | nil => exact .refl _
  | cons e rest ih =>
    obtain ⟨k', v'⟩ := e
    by_cases hlt : k < k'
    · simp [insert, hlt]
    · by_cases heq : k = k'
      · simp [insert, heq] at h
      · simp only [insert, if_neg hlt, if_neg heq] at h ⊢
        exact ((ih h).cons (k', v')).trans (.swap (k, v) (k', v') rest)

/-- An added key leaves the map in order. -/
theorem Sorted.insert {m : List (K × V)} (h : Sorted m) {k : K} (v : V)
    (hk : ∀ e ∈ m, e.1 ≠ k) : Sorted (SortedMap.insert m k v).1 := by
  induction m with
  | nil => simp [SortedMap.insert, Sorted]
  | cons e rest ih =>
    obtain ⟨k', v'⟩ := e
    obtain ⟨hhead, htail⟩ := List.pairwise_cons.mp h
    have hne : k ≠ k' := (hk (k', v') (by simp)).symm
    have hrest : ∀ e ∈ rest, e.1 ≠ k := fun e he => hk e (List.mem_cons_of_mem _ he)
    by_cases hlt : k < k'
    · simp only [SortedMap.insert, if_pos hlt]
      refine List.pairwise_cons.mpr ⟨?_, h⟩
      intro e he
      rcases List.mem_cons.mp he with rfl | he
      · exact hlt
      · exact hlt.trans (hhead e he)
    · simp only [SortedMap.insert, if_neg hlt, if_neg hne]
      refine List.pairwise_cons.mpr ⟨?_, ih htail hrest⟩
      intro e he
      rcases List.mem_cons.mp ((insert_of_not_mem v hrest).2.mem_iff.mp he) with rfl | he
      · exact lt_of_le_of_ne (not_lt.mp hlt) hne.symm
      · exact hhead e he

end SortedMap

end MonadServices
