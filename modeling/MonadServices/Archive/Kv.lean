import Mathlib.Data.List.Perm.Basic
import Mathlib.Tactic

/-!
# Key-value stores

What the archive asks of a store: a map from keys to values, with a policy that says whether
a value that is there may be overwritten. Several values are put in any order, since they
are put at the same time.
-/

namespace MonadServices

namespace Archive

/-- Whether a put may overwrite. -/
inductive WritePolicy where
  | allowOverwrite
  | noClobber
  deriving DecidableEq

/-- Whether a put wrote. -/
inductive PutResult where
  | written
  | skipped
  deriving DecidableEq

section Kv

variable {K V : Type} [DecidableEq K]

/-- **Puts a value** under a key. -/
def put (store : K → Option V) (key : K) (data : V) (policy : WritePolicy) :
    (K → Option V) × PutResult :=
  if policy = .noClobber ∧ (store key).isSome then (store, .skipped)
  else (Function.update store key (some data), .written)

/-- Puts several values, in the order in which the puts happen to run. -/
def bulkPut (store : K → Option V) (kvs : List (K × V)) (policy : WritePolicy) :
    K → Option V :=
  kvs.foldl (fun store kv => (put store kv.1 kv.2 policy).1) store

variable {store : K → Option V} {key : K} {data : V} {policy : WritePolicy}
  {kvs order : List (K × V)}

/-- A put may be left out only because the key is there. -/
theorem put_self (h : policy = .noClobber → store key = none) :
    (put store key data policy).1 key = some data := by
  unfold put
  split
  · rename_i hskip
    rw [h hskip.1] at hskip
    cases hskip.2
  · exact Function.update_self ..

theorem put_of_ne {key' : K} (h : key' ≠ key) :
    (put store key data policy).1 key' = store key' := by
  unfold put
  split
  · rfl
  · exact Function.update_of_ne h ..

/-- After a put there is a value, the new one or an older one. -/
theorem isSome_put_self : ((put store key data policy).1 key).isSome := by
  unfold put
  split
  · rename_i hskip
    exact hskip.2
  · show (Function.update store key (some data) key).isSome
    rw [Function.update_self]
    rfl

/-- A put removes nothing. -/
theorem isSome_put {key' : K} (h : (store key').isSome) :
    ((put store key data policy).1 key').isSome := by
  rcases eq_or_ne key' key with rfl | hne
  · exact isSome_put_self
  · rw [put_of_ne hne]
    exact h

theorem bulkPut_of_not_mem (h : key ∉ kvs.map Prod.fst) :
    bulkPut store kvs policy key = store key := by
  induction kvs generalizing store with
  | nil => rfl
  | cons kv kvs ih =>
    rw [List.map_cons, List.mem_cons, not_or] at h
    rw [bulkPut, List.foldl_cons]
    exact (ih h.2).trans (put_of_ne h.1)

/-- **Values put under distinct keys are there afterwards**, whatever the order, where there was
nothing before. -/
theorem bulkPut_of_mem (hperm : order.Perm kvs) (hnodup : (kvs.map Prod.fst).Nodup)
    (hnew : store key = none) (h : (key, data) ∈ kvs) :
    bulkPut store order policy key = some data := by
  replace hnodup := (hperm.map Prod.fst).nodup_iff.mpr hnodup
  replace h := hperm.mem_iff.mpr h
  clear hperm
  induction order generalizing store with
  | nil => cases h
  | cons kv order ih =>
    rw [List.map_cons, List.nodup_cons] at hnodup
    rw [bulkPut, List.foldl_cons]
    rcases List.mem_cons.mp h with rfl | h
    · exact (bulkPut_of_not_mem hnodup.1).trans (put_self fun _ => hnew)
    · refine ih ?_ hnodup.2 h
      -- The put of the first key leaves the other ones alone.
      have hne : key ≠ kv.1 := fun heq => hnodup.1 (heq ▸ List.mem_map_of_mem h)
      rw [put_of_ne hne]
      exact hnew

/-- A value that is there stays, where nothing is overwritten. -/
theorem bulkPut_of_eq_some (h : store key = some data) :
    bulkPut store kvs .noClobber key = some data := by
  induction kvs generalizing store with
  | nil => exact h
  | cons kv kvs ih =>
    rw [bulkPut, List.foldl_cons]
    refine ih ?_
    rcases eq_or_ne key kv.1 with rfl | hne
    · rw [put, if_pos ⟨rfl, h ▸ rfl⟩]
      exact h
    · rw [put_of_ne hne]
      exact h

end Kv

end Archive

end MonadServices
