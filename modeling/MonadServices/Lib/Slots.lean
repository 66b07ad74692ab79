import Mathlib.Data.List.Nodup
import Mathlib.Data.List.Perm.Subperm

/-!
# Counting processes

The processes of a system stand in a list, each at the place that is its number, and the entry is
how far it is. A step of one process changes one entry. How many processes are at a given point,
and how many of the numbers in some queue belong to processes that are, then changes by at most
one (`MonadServices.countP_set_add`, `MonadServices.countP_any_set_le`), and a queue that has no
number twice is no longer than the number of the processes it can hold
(`MonadServices.length_le_countP`).
-/

namespace MonadServices

variable {α : Type}

/-- What one process changes in the number of those of which `p` holds. -/
theorem countP_set_add {l : List α} {i : ℕ} {a : α} (p : α → Bool) (b : α) (h : l[i]? = some a) :
    (l.set i b).countP p + (p a).toNat = l.countP p + (p b).toNat := by
  obtain ⟨hlt, rfl⟩ := List.getElem?_eq_some_iff.mp h
  have hle := List.boole_getElem_le_countP (p := p) hlt
  have htoNat : ∀ c : Bool, (if c = true then 1 else 0) = c.toNat := fun c => by cases c <;> rfl
  rw [List.countP_set hlt, htoNat, htoNat]
  rw [htoNat] at hle
  omega

/-- A process whose number is not in the queue changes nothing there. -/
theorem countP_any_set_of_notMem {queue : List ℕ} {l : List α} {i : ℕ} (p : α → Bool) (b : α)
    (h : i ∉ queue) :
    (queue.countP fun j => (l.set i b)[j]?.any p) = queue.countP fun j => l[j]?.any p := by
  refine List.countP_congr fun j hj => ?_
  rw [List.getElem?_set_ne (ne_of_mem_of_not_mem hj h).symm]

/-- What one process changes in the number of those in a queue of which `p` holds. -/
theorem countP_any_set_le {queue : List ℕ} {l : List α} {i : ℕ} (p : α → Bool) (b : α)
    (h : queue.Nodup) :
    (queue.countP fun j => (l.set i b)[j]?.any p) ≤
      (queue.countP fun j => l[j]?.any p) + (p b).toNat := by
  induction queue with
  | nil => exact Nat.zero_le _
  | cons j queue ih =>
    obtain ⟨hj, hnodup⟩ := List.nodup_cons.mp h
    rw [List.countP_cons, List.countP_cons]
    rcases eq_or_ne i j with rfl | hne
    · rw [countP_any_set_of_notMem p b hj]
      rcases Nat.lt_or_ge i l.length with hlt | hge
      · rw [List.getElem?_set_self hlt, Option.any_some]
        cases p b <;> simp
      · rw [List.set_eq_of_length_le hge]
        omega
    · rw [List.getElem?_set_ne hne]
      have := ih hnodup
      omega

/-- **A queue is no longer than the number of the processes it can hold.** -/
theorem length_le_countP {queue : List ℕ} {l : List α} {p : α → Bool} (hnodup : queue.Nodup)
    (h : ∀ i ∈ queue, ∃ a, l[i]? = some a ∧ p a = true) : queue.length ≤ l.countP p := by
  have hsub : queue ⊆ (l.zipIdx.filter fun q => p q.1).map Prod.snd := by
    intro i hi
    obtain ⟨a, ha, hp⟩ := h i hi
    have hmem : (a, i) ∈ l.zipIdx := List.mk_mem_zipIdx_iff_getElem?.mpr ha
    exact List.mem_map.mpr ⟨(a, i), List.mem_filter.mpr ⟨hmem, hp⟩, rfl⟩
  calc queue.length ≤ ((l.zipIdx.filter fun q => p q.1).map Prod.snd).length :=
        (hnodup.subperm hsub).length_le
    _ = (l.zipIdx.map Prod.fst).countP p := by
        rw [List.length_map, ← List.countP_eq_length_filter, List.countP_map]
        rfl
    _ = l.countP p := by rw [List.zipIdx_map_fst]

end MonadServices
