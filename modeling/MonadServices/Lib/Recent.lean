import Mathlib.Data.List.Nodup

/-!
# The most recent distinct elements

In a list with the latest element first, the first occurrences are the distinct elements in the
order in which they were last seen. As long as a prefix has no repetition it is the list of the
most recent distinct elements; a prefix with a repetition has fewer of them than it is long, so
all of them are recent.
-/

namespace MonadServices

variable {α : Type} [DecidableEq α]

/-- The first occurrences in a list. -/
def firsts : List α → List α
  | [] => []
  | a :: l => a :: (firsts l).filter (· ≠ a)

@[simp] theorem mem_firsts {l : List α} {x : α} : x ∈ firsts l ↔ x ∈ l := by
  induction l with
  | nil => rfl
  | cons a l ih =>
    rw [firsts, List.mem_cons, List.mem_cons, List.mem_filter, ih, decide_eq_true_iff]
    by_cases hx : x = a
    · simp [hx]
    · simp [hx]

theorem nodup_firsts (l : List α) : (firsts l).Nodup := by
  induction l with
  | nil => exact .nil
  | cons a l ih =>
    rw [firsts, List.nodup_cons]
    exact ⟨by simp, ih.filter _⟩

theorem firsts_sublist (l : List α) : (firsts l).Sublist l := by
  induction l with
  | nil => exact .slnil
  | cons a l ih => exact (List.filter_sublist.trans ih).cons_cons a

theorem firsts_append (l l' : List α) :
    firsts (l ++ l') = firsts l ++ (firsts l').filter (· ∉ l) := by
  induction l with
  | nil => simp [firsts]
  | cons a l ih =>
    rw [List.cons_append, firsts, ih, firsts, List.filter_append, List.filter_filter,
      List.cons_append]
    congr 2
    exact List.filter_congr fun x _ => by simp

theorem firsts_of_nodup {l : List α} (h : l.Nodup) : firsts l = l := by
  induction l with
  | nil => rfl
  | cons a l ih =>
    obtain ⟨hnot, hl⟩ := List.nodup_cons.mp h
    rw [firsts, ih hl, List.filter_eq_self.mpr]
    intro x hx
    exact decide_eq_true fun heq => hnot (heq ▸ hx)

/-- A list with a repetition has fewer first occurrences than elements. -/
theorem length_firsts_lt {l : List α} (h : ¬l.Nodup) : (firsts l).length < l.length := by
  refine Nat.lt_of_le_of_ne (firsts_sublist l).length_le fun heq => h ?_
  rw [← (firsts_sublist l).eq_of_length heq]
  exact nodup_firsts l

/-- **A prefix without repetition is the list of the most recent distinct elements.** -/
theorem take_firsts_of_nodup {l : List α} {k : ℕ} (h : (l.take k).Nodup) :
    (firsts l).take k = l.take k := by
  have hsplit : firsts l = l.take k ++ (firsts (l.drop k)).filter (· ∉ l.take k) := by
    have happend := firsts_append (l.take k) (l.drop k)
    rwa [List.take_append_drop, firsts_of_nodup h] at happend
  rcases Nat.lt_or_ge l.length k with hlt | hge
  · rw [hsplit, List.drop_eq_nil_of_le (Nat.le_of_lt hlt), firsts, List.filter_nil, List.append_nil,
      List.take_take, Nat.min_self]
  · rw [hsplit]
    exact List.take_left' (List.length_take_of_le hge)

/-- **The elements of a prefix with a repetition are all recent.** -/
theorem mem_take_firsts {l : List α} {k : ℕ} (h : ¬(l.take (k + 1)).Nodup) {x : α}
    (hx : x ∈ l.take (k + 1)) : x ∈ (firsts l).take k := by
  have hle : (firsts (l.take (k + 1))).length ≤ k := by
    have hlt := length_firsts_lt h
    have hlen := List.length_take_le (k + 1) l
    omega
  rw [← List.take_append_drop (k + 1) l, firsts_append, List.take_append,
    List.take_of_length_le hle]
  exact List.mem_append_left _ (mem_firsts.mpr hx)

end MonadServices
