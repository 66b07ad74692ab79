import Mathlib.Data.List.Basic

/-!
# Orders of iteration

A hash map or a hash set promises nothing about the order in which it is iterated, and the order
may change with its content. What is known is that every element is met once.
-/

namespace MonadServices

/-- An order of iteration: what a hash map does with what is inserted into it. -/
structure IterOrder (α : Type) where
  order : List α → List α
  perm : ∀ l, (order l).Perm l

/-- Nothing is reordered. -/
def inOrder (α : Type) : IterOrder α := ⟨id, fun _ => List.Perm.refl _⟩

variable {α : Type}

/-- The elements of a list may be met in any order. -/
theorem IterOrder.exists_order {l₀ l₁ : List α} (h : l₁.Perm l₀) :
    ∃ o : IterOrder α, o.order l₀ = l₁ := by
  classical
  refine ⟨⟨fun l => if l = l₀ then l₁ else l, fun l => ?_⟩, if_pos rfl⟩
  split
  · rename_i heq
    exact heq ▸ h
  · exact List.Perm.refl l

/-- The elements of `l`, and no others, are met. -/
@[simp] theorem IterOrder.mem_order (o : IterOrder α) (l : List α) (x : α) :
    x ∈ o.order l ↔ x ∈ l :=
  (o.perm l).mem_iff

/-- No element is met twice. -/
theorem IterOrder.nodup_order (o : IterOrder α) {l : List α} (h : l.Nodup) :
    (o.order l).Nodup :=
  (o.perm l).nodup_iff.mpr h

end MonadServices
