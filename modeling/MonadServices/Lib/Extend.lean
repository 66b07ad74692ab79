import Mathlib.Data.List.AList
import Mathlib.Data.List.Induction
import Mathlib.Tactic

/-!
# Extending a map

A map is extended by the entries of a list, one after another: an entry replaces what the map had
under its key. The last entry of a key is therefore the one that is found, whether the list is
added as a whole or in pieces.
-/

namespace MonadServices

section Extend

variable {K : Type} [DecidableEq K] {V : K → Type}

/-- Puts the entries of a list into a map. -/
def extend (m : AList V) (l : List (Sigma V)) : AList V :=
  l.foldl (fun m e => m.insert e.1 e.2) m

theorem extend_flatMap {α : Type} (f : α → List (Sigma V)) (l : List α) (m : AList V) :
    extend m (l.flatMap f) = l.foldl (fun m a => extend m (f a)) m := by
  rw [extend, List.foldl_flatMap]
  rfl

/-- **The last entry of a key is found.** -/
theorem lookup_extend (m : AList V) (l : List (Sigma V)) (k : K) :
    (extend m l).lookup k = (l.reverse.dlookup k).or (m.lookup k) := by
  induction l generalizing m with
  | nil => rfl
  | cons e l ih =>
    change (extend (m.insert e.1 e.2) l).lookup k = _
    rw [ih, List.reverse_cons, List.dlookup_append, Option.or_assoc]
    congr 1
    by_cases hk : k = e.1
    · subst hk
      rw [AList.lookup_insert, List.dlookup_cons_eq, Option.some_or]
    · rw [AList.lookup_insert_ne hk, List.dlookup_cons_ne [] e hk, List.dlookup_nil,
        Option.none_or]

/-- What a list without repetitions has is found, and else what was there. -/
theorem lookup_extend_of_nodupKeys (m : AList V) {l : List (Sigma V)} (h : l.NodupKeys) (k : K) :
    (extend m l).lookup k = (l.dlookup k).or (m.lookup k) := by
  have hreverse : l.reverse.NodupKeys := (List.perm_nodupKeys l.reverse_perm).mpr h
  rw [lookup_extend, List.perm_dlookup k hreverse l.reverse_perm]

/-- The last of several maps that has a key decides what is found. -/
theorem lookup_foldl_extend (ms : List (AList V)) (m : AList V) (k : K) :
    (ms.foldl (fun m m' => extend m m'.entries) m).lookup k =
      (ms.map (·.lookup k)).foldl (fun found v => v.or found) (m.lookup k) := by
  induction ms generalizing m with
  | nil => rfl
  | cons m' ms ih =>
    rw [List.foldl_cons, ih, lookup_extend_of_nodupKeys m m'.nodupKeys]
    rfl

end Extend

/-! ### The last list that is there -/

section Last

variable {α : Type}

/-- The last of several lists that is there, or the empty one. -/
def lastList (ls : List (Option (List α))) : List α :=
  (ls.foldl (fun found l => l.or found) none).getD []

theorem lastList_append (ls : List (Option (List α))) (l : Option (List α)) :
    lastList (ls ++ [l]) = l.getD (lastList ls) := by
  rw [lastList, List.foldl_append, List.foldl_cons, List.foldl_nil]
  cases l <;> rfl

/-- A list that is not empty is not followed by another. -/
def NotReplaced (ls : List (Option (List α))) : Prop :=
  ls.Pairwise fun l later => l.getD [] ≠ [] → later = none

theorem notReplaced_append_none {ls : List (Option (List α))} :
    NotReplaced (ls ++ [none]) ↔ NotReplaced ls := by
  simp [NotReplaced, List.pairwise_append]

theorem notReplaced_append_some {ls : List (Option (List α))} {l : List α} :
    NotReplaced (ls ++ [some l]) ↔ ∀ l' ∈ ls, l'.getD [] = [] := by
  simp only [NotReplaced, List.pairwise_append, List.pairwise_singleton, List.mem_singleton,
    true_and, forall_eq, reduceCtorEq, imp_false, not_not]
  refine and_iff_right_of_imp fun h => List.pairwise_of_forall_mem_list fun l' hl' _ _ hne => ?_
  exact absurd (h l' hl') hne

/-- If none is replaced, the last one has everything. -/
theorem weight_lastList {w : List α → ℕ} (hw : w [] = 0) {ls : List (Option (List α))}
    (h : NotReplaced ls) : w (lastList ls) = (ls.map fun l => w (l.getD [])).sum := by
  induction ls using List.reverseRecOn with
  | nil => exact hw
  | append_singleton ls l ih =>
    rw [lastList_append, List.map_append, List.sum_append, List.map_singleton, List.sum_singleton]
    cases l with
    | none => rw [Option.getD_none, Option.getD_none, hw, ih (notReplaced_append_none.mp h),
        Nat.add_zero]
    | some l =>
      have hzero : (ls.map fun l => w (l.getD [])).sum = 0 := by
        refine List.sum_eq_zero_iff_forall_eq_nat.mpr fun n hn => ?_
        obtain ⟨l', hl', rfl⟩ := List.mem_map.mp hn
        rw [notReplaced_append_some.mp h l' hl', hw]
      rw [hzero, Nat.zero_add, Option.getD_some, Option.getD_some]

/-- **If the last one has as many elements as all together, none is replaced.** -/
theorem length_lastList_iff {ls : List (Option (List α))} :
    (lastList ls).length = (ls.map fun l => (l.getD []).length).sum ↔ NotReplaced ls := by
  refine ⟨fun h => ?_, weight_lastList rfl⟩
  induction ls using List.reverseRecOn with
  | nil => exact List.Pairwise.nil
  | append_singleton ls l ih =>
    rw [lastList_append, List.map_append, List.sum_append, List.map_singleton,
      List.sum_singleton] at h
    cases l with
    | none => exact notReplaced_append_none.mpr (ih h)
    | some l =>
      rw [Option.getD_some, Option.getD_some] at h
      refine notReplaced_append_some.mpr fun l' hl' => List.length_eq_zero_iff.mp ?_
      have hzero : (ls.map fun l => (l.getD []).length).sum = 0 := by omega
      exact List.sum_eq_zero_iff_forall_eq_nat.mp hzero _ (List.mem_map_of_mem hl')

end Last

section Zip

variable {K W : Type} {R : K → W → Prop} {ks : List K} {ws : List W}

/-- Keys next to values that are related to them. -/
theorem keys_zipWith (h : List.Forall₂ R ks ws) :
    (List.zipWith (Sigma.mk (β := fun _ => W)) ks ws).keys = ks := by
  induction h with
  | nil => rfl
  | cons _ _ ih => exact congrArg (List.cons _) ih

theorem rel_of_mem_zipWith (h : List.Forall₂ R ks ws) {e : Σ _ : K, W}
    (he : e ∈ List.zipWith Sigma.mk ks ws) : R e.1 e.2 := by
  induction h with
  | nil => cases he
  | cons hkw _ ih =>
    rcases List.mem_cons.mp he with rfl | he
    · exact hkw
    · exact ih he

variable [DecidableEq K]

/-- **The value that is found for a key is related to it.** -/
theorem lookup_extend_zipWith (h : List.Forall₂ R ks ws) (hnodup : ks.Nodup) (k : K) :
    (k ∈ ks → ∃ w, (extend ∅ (List.zipWith (Sigma.mk (β := fun _ => W)) ks ws)).lookup k = some w ∧
      R k w) ∧
    (k ∉ ks → (extend ∅ (List.zipWith (Sigma.mk (β := fun _ => W)) ks ws)).lookup k = none) := by
  have hkeys : (List.zipWith (Sigma.mk (β := fun _ => W)) ks ws).NodupKeys := by
    rw [List.NodupKeys, keys_zipWith h]
    exact hnodup
  rw [lookup_extend_of_nodupKeys ∅ hkeys, AList.lookup_empty, Option.or_none]
  constructor
  · intro hk
    obtain ⟨w, hw⟩ := Option.isSome_iff_exists.mp
      (List.dlookup_isSome.mpr ((keys_zipWith h).symm ▸ hk))
    exact ⟨w, hw, rel_of_mem_zipWith h (List.of_mem_dlookup hw)⟩
  · intro hk
    exact List.dlookup_eq_none.mpr ((keys_zipWith h).symm ▸ hk)

end Zip

end MonadServices
