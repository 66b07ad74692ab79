import Mathlib.Data.List.AList
import Mathlib.Tactic

/-!
# Maps of lists

A map that has a list under each of its keys holds all the elements of these lists. Adding an
element puts it at the end of the list of its key. Elements are removed by going through the
lists, in some order, up to the first one that gets shorter: **this removes all of them if they
are in one list**, and in particular if there is only one
(`MonadServices.Multimap.get_retainFirst`).
-/

namespace MonadServices

/-- A map of lists. -/
abbrev Multimap (K α : Type) [DecidableEq K] := AList fun _ : K => List α

namespace Multimap

variable {K α : Type} [DecidableEq K]

/-- The list under a key, the empty one if there is none. -/
def get (m : Multimap K α) (k : K) : List α := (m.lookup k).getD []

/-- The elements of all lists. -/
def elements (m : Multimap K α) : List α := m.entries.flatMap Sigma.snd

/-- Adds an element to the list of a key. -/
def push (m : Multimap K α) (k : K) (a : α) : Multimap K α := m.insert k (m.get k ++ [a])

/-- The first list that gets shorter when only the elements with `p` are kept: its key, and what is
left of it. -/
def firstShorter (p : α → Bool) : List (Σ _ : K, List α) → Option (Σ _ : K, List α)
  | [] => none
  | ⟨k, l⟩ :: rest =>
    let retained := l.filter p
    if retained.length < l.length then some ⟨k, retained⟩ else firstShorter p rest

/-- Keeps only the elements with `p` in the first list that has others, and tells if there is
one. -/
def retainFirst (order : List (Σ _ : K, List α)) (p : α → Bool) (m : Multimap K α) :
    Bool × Multimap K α :=
  match firstShorter p order with
  | some e => (true, m.insert e.1 e.2)
  | none => (false, m)

variable {m : Multimap K α} {k : K} {a : α} {l : List α} {p : α → Bool}

/-! ### The elements -/

@[simp] theorem get_insert_self (m : Multimap K α) (k : K) (l : List α) :
    get (m.insert k l) k = l := by
  rw [get, AList.lookup_insert, Option.getD_some]

theorem get_insert_of_ne {k' : K} (h : k' ≠ k) : get (m.insert k l) k' = m.get k' := by
  rw [get, AList.lookup_insert_ne h, get]

theorem get_of_mem_entries (h : ⟨k, l⟩ ∈ m.entries) : m.get k = l := by
  rw [get, Option.mem_def.mp (AList.mem_lookup_iff.mpr h), Option.getD_some]

/-- The elements are those of one list, and the others. -/
theorem perm_elements (m : Multimap K α) (k : K) :
    m.elements.Perm (m.get k ++ elements (m.erase k)) := by
  by_cases hk : k ∈ m.entries.keys
  · obtain ⟨l, pre, post, -, hentries, hkerase⟩ := List.exists_of_kerase hk
    have hget : m.get k = l := get_of_mem_entries (by simp [hentries])
    change (m.entries.flatMap _).Perm (_ ++ (m.entries.kerase k).flatMap _)
    rw [hget, hkerase, hentries, List.flatMap_append, List.flatMap_cons, List.flatMap_append]
    exact List.perm_append_comm_assoc _ _ _
  · have hget : m.get k = [] := by
      rw [get, AList.lookup_eq_none.mpr hk, Option.getD_none]
    change (m.entries.flatMap _).Perm (_ ++ (m.entries.kerase k).flatMap _)
    rw [hget, List.kerase_of_notMem_keys hk, List.nil_append]

theorem elements_insert (m : Multimap K α) (k : K) (l : List α) :
    elements (m.insert k l) = l ++ elements (m.erase k) := rfl

/-- Every element is in a list. -/
theorem mem_elements : a ∈ m.elements ↔ ∃ k, a ∈ m.get k := by
  simp only [elements, List.mem_flatMap]
  constructor
  · rintro ⟨⟨k, l⟩, hmem, ha⟩
    exact ⟨k, (get_of_mem_entries hmem).symm ▸ ha⟩
  · rintro ⟨k, ha⟩
    rw [get] at ha
    cases hlookup : m.lookup k with
    | none =>
      rw [hlookup] at ha
      cases ha
    | some l =>
      rw [hlookup] at ha
      exact ⟨⟨k, l⟩, AList.mem_lookup_iff.mp hlookup, ha⟩

theorem perm_elements_push (m : Multimap K α) (k : K) (a : α) :
    (m.push k a).elements.Perm (a :: m.elements) := by
  have hold : (m.get k ++ elements (m.erase k)).Perm m.elements := (perm_elements m k).symm
  rw [push, elements_insert, List.append_assoc]
  exact List.perm_middle.trans (hold.cons a)

/-- One element more. -/
theorem length_elements_push (m : Multimap K α) (k : K) (a : α) :
    (m.push k a).elements.length = m.elements.length + 1 :=
  (perm_elements_push m k a).length_eq

/-- The lengths of the lists, in any order. -/
theorem sum_length {order : List (Σ _ : K, List α)} (h : order.Perm m.entries) :
    (order.map fun e => e.2.length).sum = m.elements.length := by
  rw [(h.map _).sum_eq, elements, List.length_flatMap]

/-! ### Removing elements -/

theorem filter_eq_self_of_length (h : ¬(l.filter p).length < l.length) : l.filter p = l :=
  List.filter_sublist.eq_of_length_le (Nat.le_of_not_lt h)

omit [DecidableEq K] in
/-- What `firstShorter` has found, and that there is nothing to be found. -/
theorem firstShorter_cases (p : α → Bool) (order : List (Σ _ : K, List α)) :
    (∃ k l, ⟨k, l⟩ ∈ order ∧ (∃ a ∈ l, p a = false) ∧
      firstShorter p order = some ⟨k, l.filter p⟩) ∨
    (firstShorter p order = none ∧ ∀ e ∈ order, ∀ a ∈ e.2, p a = true) := by
  induction order with
  | nil => exact .inr ⟨rfl, fun _ h => (by cases h)⟩
  | cons e rest ih =>
    obtain ⟨k, l⟩ := e
    simp only [firstShorter]
    by_cases hshorter : (l.filter p).length < l.length
    · refine .inl ⟨k, l, List.mem_cons_self, ?_, if_pos hshorter⟩
      simpa using List.length_filter_lt_length_iff_exists.mp hshorter
    · rw [if_neg hshorter]
      obtain ⟨k', l', hmem, hfound⟩ | ⟨hnone, hall⟩ := ih
      · exact .inl ⟨k', l', List.mem_cons_of_mem _ hmem, hfound⟩
      · refine .inr ⟨hnone, List.forall_mem_cons.mpr ⟨?_, hall⟩⟩
        exact List.filter_eq_self.mp (filter_eq_self_of_length hshorter)

variable {order : List (Σ _ : K, List α)}

/-- It is told if there is something to remove. -/
theorem retainFirst_fst (h : order.Perm m.entries) :
    (m.retainFirst order p).1 = true ↔ ∃ a ∈ m.elements, p a = false := by
  obtain ⟨k, l, hmem, ⟨a, ha, hpa⟩, hfound⟩ | ⟨hnone, hall⟩ := firstShorter_cases p order
  · simp only [retainFirst, hfound, true_iff]
    exact ⟨a, List.mem_flatMap.mpr ⟨_, h.mem_iff.mp hmem, ha⟩, hpa⟩
  · simp only [retainFirst, hnone, Bool.false_eq_true, false_iff, not_exists, not_and]
    intro a ha
    obtain ⟨e, he, ha⟩ := List.mem_flatMap.mp ha
    rw [hall e (h.mem_iff.mpr he) a ha]
    exact Bool.noConfusion

/-- **If only one list has elements without `p`, every list keeps those with `p`.** -/
theorem get_retainFirst (h : order.Perm m.entries)
    (hone : ∀ k k' a a', a ∈ m.get k → p a = false → a' ∈ m.get k' → p a' = false → k = k')
    (k : K) : (m.retainFirst order p).2.get k = (m.get k).filter p := by
  obtain ⟨k₀, l, hmem, ⟨a, ha, hpa⟩, hfound⟩ | ⟨hnone, hall⟩ := firstShorter_cases p order
  · simp only [retainFirst, hfound]
    obtain rfl : m.get k₀ = l := get_of_mem_entries (h.mem_iff.mp hmem)
    by_cases hk : k = k₀
    · rw [hk, get_insert_self]
    · rw [get_insert_of_ne hk]
      refine (List.filter_eq_self.mpr fun b hb => ?_).symm
      by_contra hpb
      exact hk (hone k k₀ b a hb (Bool.not_eq_true _ ▸ hpb) ha hpa)
  · simp only [retainFirst, hnone]
    refine (List.filter_eq_self.mpr fun b hb => ?_).symm
    obtain ⟨e, he, hb⟩ := List.mem_flatMap.mp (mem_elements.mpr ⟨k, hb⟩)
    exact hall e (h.mem_iff.mpr he) b hb

/-- The elements that are left. -/
theorem perm_elements_retainFirst (h : order.Perm m.entries)
    (hone : ∀ k k' a a', a ∈ m.get k → p a = false → a' ∈ m.get k' → p a' = false → k = k') :
    (m.retainFirst order p).2.elements.Perm (m.elements.filter p) := by
  obtain ⟨k, l, hmem, ⟨a, ha, hpa⟩, hfound⟩ | ⟨hnone, hall⟩ := firstShorter_cases p order
  · obtain rfl : m.get k = l := get_of_mem_entries (h.mem_iff.mp hmem)
    -- The elements of the other lists are all kept.
    have hothers : (elements (m.erase k)).filter p = elements (m.erase k) := by
      refine List.filter_eq_self.mpr fun b hb => ?_
      obtain ⟨k', hb⟩ := mem_elements.mp hb
      have hk : k' ≠ k := by
        rintro rfl
        rw [get, AList.lookup_erase] at hb
        cases hb
      rw [get, AList.lookup_erase_ne hk] at hb
      by_contra hpb
      exact hk (hone k' k b a hb (Bool.not_eq_true _ ▸ hpb) ha hpa)
    simp only [retainFirst, hfound]
    rw [elements_insert]
    have hsplit := (perm_elements m k).filter p
    rw [List.filter_append, hothers] at hsplit
    exact hsplit.symm
  · simp only [retainFirst, hnone]
    rw [List.filter_eq_self.mpr]
    intro a ha
    obtain ⟨e, he, ha⟩ := List.mem_flatMap.mp ha
    exact hall e (h.mem_iff.mpr he) a ha

/-- Nothing is added. -/
theorem mem_of_mem_retainFirst (h : order.Perm m.entries)
    (ha : a ∈ (m.retainFirst order p).2.elements) : a ∈ m.elements := by
  obtain ⟨k, l, hmem, -, hfound⟩ | ⟨hnone, -⟩ := firstShorter_cases p order
  · obtain rfl : m.get k = l := get_of_mem_entries (h.mem_iff.mp hmem)
    simp only [retainFirst, hfound, elements_insert] at ha
    refine (perm_elements m k).mem_iff.mpr (List.mem_append.mpr ?_)
    exact (List.mem_append.mp ha).imp (fun ha => (List.mem_filter.mp ha).1) id
  · simp only [retainFirst, hnone] at ha
    exact ha

/-- Elements with a name of their own are not in two lists. -/
theorem eq_of_nodup {β : Type} {f : α → β} (h : (m.elements.map f).Nodup) {k' : K} {a' : α}
    (ha : a ∈ m.get k) (ha' : a' ∈ m.get k') (heq : f a = f a') : k = k' := by
  by_contra hne
  have hperm := (perm_elements m k).map f
  rw [List.map_append] at hperm
  have hrest : a' ∈ elements (m.erase k) := by
    refine mem_elements.mpr ⟨k', ?_⟩
    rw [get, AList.lookup_erase_ne (Ne.symm hne)]
    exact ha'
  exact List.disjoint_of_nodup_append (hperm.nodup_iff.mp h) (List.mem_map_of_mem ha)
    (heq ▸ List.mem_map_of_mem hrest)

end Multimap

end MonadServices
