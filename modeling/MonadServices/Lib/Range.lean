import Mathlib.Data.List.Range
import Mathlib.Tactic.Common

/-!
# Ranges of 64-bit numbers

The numbers from one to another, ends included, in ascending order.
-/

namespace MonadServices

/-- `a..=b`. -/
def rangeInclusive (a b : UInt64) : List UInt64 :=
  (List.range' a.toNat (b.toNat + 1 - a.toNat)).map UInt64.ofNat

theorem mem_rangeInclusive {a b n : UInt64} : n ∈ rangeInclusive a b ↔ a ≤ n ∧ n ≤ b := by
  have hn := n.toNat_lt
  have hb := b.toNat_lt
  simp only [rangeInclusive, List.mem_map, List.mem_range'_1, UInt64.le_iff_toNat_le]
  constructor
  · rintro ⟨k, hk, rfl⟩
    rw [UInt64.toNat_ofNat_of_lt' (show k < 2 ^ 64 by omega)]
    omega
  · intro h
    exact ⟨n.toNat, by omega, UInt64.ofNat_toNat⟩

theorem length_rangeInclusive (a b : UInt64) :
    (rangeInclusive a b).length = b.toNat + 1 - a.toNat := by
  rw [rangeInclusive, List.length_map, List.length_range']

theorem toNat_getElem_rangeInclusive {a b : UInt64} {i : ℕ} (h : i < (rangeInclusive a b).length) :
    (rangeInclusive a b)[i].toNat = a.toNat + i := by
  have hb := b.toNat_lt
  have hi := h
  rw [length_rangeInclusive] at hi
  simp only [rangeInclusive, List.getElem_map, List.getElem_range', Nat.one_mul]
  exact UInt64.toNat_ofNat_of_lt' (show a.toNat + i < 2 ^ 64 by omega)

/-- The numbers of a range increase. -/
theorem pairwise_rangeInclusive {a b : UInt64} : (rangeInclusive a b).Pairwise (· < ·) := by
  have hb := b.toNat_lt
  rw [rangeInclusive, List.pairwise_map]
  refine List.Pairwise.imp_of_mem ?_ List.pairwise_lt_range'
  intro x y hx hy hxy
  rw [List.mem_range'_1] at hx hy
  rw [UInt64.lt_iff_toNat_lt, UInt64.toNat_ofNat_of_lt' (show x < 2 ^ 64 by omega),
    UInt64.toNat_ofNat_of_lt' (show y < 2 ^ 64 by omega)]
  exact hxy

theorem nodup_rangeInclusive {a b : UInt64} : (rangeInclusive a b).Nodup := by
  refine List.Pairwise.imp ?_ pairwise_rangeInclusive
  rintro x _ h rfl
  exact UInt64.lt_irrefl x h

end MonadServices
