import MonadServices.Lib.DepthList
import Mathlib.Data.List.TakeWhile

/-!
# Trees that are built from a listing by depth

The values of a tree, each listed before those below it, and their depths are enough to build the
tree again. The builder keeps the root and a stack of the nodes that may still get children: a new
value first completes the nodes that are not above it, each of which becomes the last child of the
one under it on the stack, and is then put on top (`MonadServices.Tree.build`).

Nothing is assumed of the depths. A value is put as deep as the stack is high
(`MonadServices.DepthList.level`), which is one level below the last earlier value that has a
smaller depth, or below the root if there is none
(`MonadServices.DepthList.parent_level`). **The tree lists the values as they came, and their paths
are the addresses of their levels** (`MonadServices.Tree.build_spec`).
-/

namespace MonadServices

namespace DepthList

/-! ### Levels -/

section Level

variable {d : ℕ → ℕ} {i j k m n : ℕ}

/-- The depths of the positions that may still get children after position `i`, the last first. The
first position is not among them. -/
def depthStack (d : ℕ → ℕ) : ℕ → List ℕ
  | 0 => []
  | i + 1 => d (i + 1) :: (depthStack d i).dropWhile (d (i + 1) ≤ ·)

/-- The level on which a position is put. -/
def level (d : ℕ → ℕ) (i : ℕ) : ℕ := (depthStack d i).length

/-- **The last position before `i` that has a smaller depth**, or the first of all if no other
has. -/
def LastAbove (d : ℕ → ℕ) (j i : ℕ) : Prop :=
  j < i ∧ (j = 0 ∨ d j < d i) ∧ ∀ k < i, j < k → d i ≤ d k

theorem exists_lastAbove (d : ℕ → ℕ) (hi : 0 < i) : ∃ j, LastAbove d j i := by
  have hmax := Nat.findGreatest_spec (P := fun j => j < i ∧ (j = 0 ∨ d j < d i)) (n := i)
    (Nat.zero_le i) ⟨hi, .inl rfl⟩
  refine ⟨_, hmax.1, hmax.2, fun k hk hlt => ?_⟩
  by_contra hcon
  exact Nat.findGreatest_is_greatest hlt hk.le ⟨hk, .inr (by omega)⟩

theorem LastAbove.unique (hj : LastAbove d j i) (hk : LastAbove d k i) : j = k := by
  obtain ⟨hlt, hd, hge⟩ := hj
  obtain ⟨hlt', hd', hge'⟩ := hk
  rcases lt_trichotomy j k with h | h | h
  · have := hge k hlt' h
    omega
  · exact h
  · have := hge' j hlt h
    omega

/-- A position stays on the stack as long as the depths are larger. -/
theorem dropWhile_append_depthStack (pre : List ℕ) {x : ℕ} (h : j = 0 ∨ d j < x) :
    (pre ++ depthStack d j).dropWhile (x ≤ ·) = pre.dropWhile (x ≤ ·) ++ depthStack d j := by
  have hstay : (depthStack d j).dropWhile (x ≤ ·) = depthStack d j := by
    cases j with
    | zero => rfl
    | succ j =>
      have hlt : ¬x ≤ d (j + 1) := by omega
      rw [depthStack, List.dropWhile_cons_of_neg (by simpa using hlt)]
  rw [List.dropWhile_append, hstay]
  split
  · rename_i hempty
    rw [List.isEmpty_iff.mp hempty, List.nil_append]
  · rfl

/-- **What is under a position does not change** as long as it is on the stack. -/
theorem exists_depthStack_append (hlt : j < m) (h : j = 0 ∨ ∀ k ≤ m, j < k → d j < d k) :
    ∃ x pre, depthStack d m = x :: pre ++ depthStack d j ∧
      ∀ y ∈ x :: pre, ∃ k ≤ m, j < k ∧ y = d k := by
  induction m with
  | zero => omega
  | succ m ih =>
    have hnext : j = 0 ∨ d j < d (m + 1) := h.imp_right fun h => h _ le_rfl hlt
    rcases (Nat.lt_succ_iff.mp hlt).lt_or_eq with hjm | rfl
    · obtain ⟨x, pre, hstack, hpre⟩ := ih hjm (h.imp_right fun h k hk => h k (by omega))
      refine ⟨d (m + 1), (x :: pre).dropWhile (d (m + 1) ≤ ·), ?_, ?_⟩
      · rw [depthStack, hstack, dropWhile_append_depthStack _ hnext, List.cons_append]
      · intro y hy
        rcases List.mem_cons.mp hy with rfl | hy
        · exact ⟨m + 1, le_rfl, hlt, rfl⟩
        · obtain ⟨k, hk, hjk, rfl⟩ := hpre y ((List.dropWhile_suffix _).mem hy)
          exact ⟨k, by omega, hjk, rfl⟩
    · refine ⟨d (j + 1), [], ?_, ?_⟩
      · have hstack := dropWhile_append_depthStack [] hnext
        rw [List.nil_append] at hstack
        rw [depthStack, hstack]
        rfl
      · intro y hy
        rw [List.mem_singleton.mp hy]
        exact ⟨j + 1, le_rfl, hlt, rfl⟩

/-- **A position is put below the last one with a smaller depth.** -/
theorem LastAbove.parent_level (h : LastAbove d j i) : Parent (level d) j i := by
  obtain ⟨hlt, hd, hge⟩ := h
  have hstack : depthStack d i = d i :: depthStack d j := by
    obtain ⟨m, rfl⟩ := Nat.exists_eq_add_one_of_ne_zero (by omega : i ≠ 0)
    rcases (Nat.lt_succ_iff.mp hlt).lt_or_eq with hjm | rfl
    · obtain ⟨x, pre, hm, hpre⟩ := exists_depthStack_append (m := m) hjm (hd.imp_right
        fun hd k hk hjk => hd.trans_le (hge k (by omega) hjk))
      have hdrop : (x :: pre).dropWhile (d (m + 1) ≤ ·) = [] := by
        rw [List.dropWhile_eq_nil_iff]
        intro y hy
        obtain ⟨k, hk, hjk, rfl⟩ := hpre y hy
        exact decide_eq_true (hge k (by omega) hjk)
      rw [depthStack, hm, dropWhile_append_depthStack _ hd, hdrop, List.nil_append]
    · have hdrop := dropWhile_append_depthStack [] hd
      rw [List.nil_append] at hdrop
      rw [depthStack, hdrop]
      rfl
  have hlevel : level d i = level d j + 1 := by rw [level, hstack, List.length_cons, level]
  refine ⟨hlt, hlevel.symm, fun k hk hjk => ?_⟩
  obtain ⟨x, pre, hstack', -⟩ := exists_depthStack_append (m := k) hjk (hd.imp_right
    fun hd k' hk' hjk' => hd.trans_le (hge k' (by omega) hjk'))
  rw [hlevel, level, level, hstack', List.length_append, List.length_cons]
  omega

/-- The levels list a tree. -/
theorem listing_level (d : ℕ → ℕ) (n : ℕ) : Listing (level d) n where
  root _ := rfl
  step i _ := by
    rw [level, depthStack, List.length_cons, level]
    exact Nat.add_le_add_right (List.dropWhile_suffix _).length_le 1

/-- **Depths that list a single tree are its levels.** -/
theorem Listing.level_eq (h : Listing d n) (hroot : ∀ i, 0 < i → i < n → 0 < d i) (hi : i < n) :
    level d i = d i := by
  induction i using Nat.strong_induction_on with
  | _ i ih =>
    rcases Nat.eq_zero_or_pos i with rfl | hpos
    · exact (h.root hi).symm
    · obtain ⟨j, hpar⟩ := h.exists_parent hi (hroot i hpos hi)
      have habove : LastAbove d j i := ⟨hpar.1, .inr (by have := hpar.2.1; omega), hpar.2.2⟩
      have hlevel := habove.parent_level.2.1
      rw [ih j hpar.1 (hpar.1.trans hi)] at hlevel
      rw [← hlevel, hpar.2.1]

end Level

end DepthList

/-- A tree in which the children of a node are in order. -/
inductive Tree (α : Type) where
  | node (value : α) (children : List (Tree α))

namespace Tree

variable {α : Type}

def value : Tree α → α
  | node a _ => a

def children : Tree α → List (Tree α)
  | node _ ts => ts

/-- Adds a last child. -/
def push : Tree α → Tree α → Tree α
  | node a ts, t => node a (ts ++ [t])

mutual

/-- The values of a tree, each before those below it. -/
def preorder : Tree α → List α
  | node a ts => a :: preorderAll ts

/-- The values of several trees. -/
def preorderAll : List (Tree α) → List α
  | [] => []
  | t :: ts => t.preorder ++ preorderAll ts

end

mutual

/-- The paths to the nodes of a tree, in the same order. A path says for each node which of its
children to go to. -/
def paths : Tree α → List (List ℕ)
  | node _ ts => [] :: pathsFrom 0 ts

/-- The paths to the nodes below a node, from its child with number `c` on. -/
def pathsFrom (c : ℕ) : List (Tree α) → List (List ℕ)
  | [] => []
  | t :: ts => t.paths.map (c :: ·) ++ pathsFrom (c + 1) ts

end

/-- The node at the end of a path. -/
def at? : Tree α → List ℕ → Option (Tree α)
  | t, [] => some t
  | node _ ts, c :: path => ts[c]?.bind fun t => t.at? path

/-! ### Paths -/

theorem preorderAll_append (ts us : List (Tree α)) :
    preorderAll (ts ++ us) = preorderAll ts ++ preorderAll us := by
  induction ts with
  | nil => rfl
  | cons t ts ih => rw [List.cons_append, preorderAll, preorderAll, ih, List.append_assoc]

theorem pathsFrom_append (c : ℕ) (ts us : List (Tree α)) :
    pathsFrom c (ts ++ us) = pathsFrom c ts ++ pathsFrom (c + ts.length) us := by
  induction ts generalizing c with
  | nil => rfl
  | cons t ts ih =>
    rw [List.cons_append, pathsFrom, pathsFrom, ih, List.append_assoc, List.length_cons,
      Nat.add_assoc c 1, Nat.add_comm 1]

theorem preorder_push (t u : Tree α) : (t.push u).preorder = t.preorder ++ u.preorder := by
  obtain ⟨a, ts⟩ := t
  rw [push, preorder, preorder, preorderAll_append, preorderAll, preorderAll, List.append_nil]
  rfl

theorem paths_push (t u : Tree α) :
    (t.push u).paths = t.paths ++ u.paths.map (t.children.length :: ·) := by
  obtain ⟨a, ts⟩ := t
  rw [push, paths, paths, pathsFrom_append, pathsFrom, pathsFrom, List.append_nil, Nat.zero_add]
  rfl

@[simp] theorem value_push (t u : Tree α) : (t.push u).value = t.value := by
  cases t
  rfl

@[simp] theorem length_children_push (t u : Tree α) :
    (t.push u).children.length = t.children.length + 1 := by
  obtain ⟨a, ts⟩ := t
  exact List.length_append

theorem at?_cons {a : α} {pre ts : List (Tree α)} {t : Tree α} (path : List ℕ) :
    (node a (pre ++ t :: ts)).at? (pre.length :: path) = t.at? path := by
  rw [at?, List.getElem?_append_right le_rfl, Nat.sub_self, List.getElem?_cons_zero]
  rfl

theorem at?_induction {P : Tree α → Tree α → Prop} (refl : ∀ t, P t t)
    (child : ∀ a ts t u, t ∈ ts → P u t → P u (node a ts)) {path : List ℕ} {t u : Tree α}
    (h : t.at? path = some u) : P u t := by
  induction path generalizing t with
  | nil =>
    rw [at?] at h
    obtain rfl := Option.some.inj h
    exact refl t
  | cons c path ih =>
    obtain ⟨a, ts⟩ := t
    rw [at?, Option.bind_eq_some_iff] at h
    obtain ⟨t, ht, h⟩ := h
    exact child a ts t u (List.mem_of_getElem? ht) (ih h)

/-- What is in a subtree is in the tree. -/
theorem preorder_sublist_of_at? {path : List ℕ} {t u : Tree α} (h : t.at? path = some u) :
    u.preorder.Sublist t.preorder := by
  refine at?_induction (P := fun u t => u.preorder.Sublist t.preorder)
    (fun t => .refl _) (fun a ts t u hmem hsub => ?_) h
  obtain ⟨pre, post, rfl⟩ := List.append_of_mem hmem
  rw [preorder, preorderAll_append, preorderAll]
  exact (hsub.trans (List.sublist_append_left _ _)).trans
    ((List.sublist_append_right _ _).trans (List.sublist_cons_self _ _))

mutual

/-- **The paths lead to the values**, in order. -/
theorem map_at?_paths : ∀ t : Tree α,
    t.paths.map (fun path => (t.at? path).map value) = t.preorder.map some
  | node a ts => by
    rw [paths, preorder, List.map_cons, List.map_cons, at?]
    exact congrArg (List.cons (some a)) (map_at?_pathsFrom a [] ts)

theorem map_at?_pathsFrom (a : α) : ∀ pre ts : List (Tree α),
    (pathsFrom pre.length ts).map (fun path => ((node a (pre ++ ts)).at? path).map value) =
      (preorderAll ts).map some
  | _, [] => rfl
  | pre, t :: ts => by
    have hrest := map_at?_pathsFrom a (pre ++ [t]) ts
    rw [List.length_append, List.length_singleton, List.append_assoc, List.singleton_append]
      at hrest
    rw [pathsFrom, preorderAll, List.map_append, List.map_append, hrest, List.map_map,
      ← map_at?_paths t]
    refine congrArg (· ++ _) (List.map_congr_left fun path _ => ?_)
    rw [Function.comp_apply, at?_cons]

end

/-! ### Building a tree -/

variable (d : α → ℕ)

/-- Completes the nodes on the stack that are not above a depth: each becomes the last child of the
one under it, or of the root. -/
def completeFrom (depth : ℕ) (root : Tree α) : Tree α → List (Tree α) → Tree α × List (Tree α)
  | top, [] => if depth ≤ d top.value then (root.push top, []) else (root, [top])
  | top, parent :: rest =>
    if depth ≤ d top.value then completeFrom depth root (parent.push top) rest
    else (root, top :: parent :: rest)

/-- Completes the nodes on the stack that are not above a depth. -/
def complete (depth : ℕ) (root : Tree α) : List (Tree α) → Tree α × List (Tree α)
  | [] => (root, [])
  | top :: rest => completeFrom d depth root top rest

/-- A further value. -/
def add (s : Tree α × List (Tree α)) (a : α) : Tree α × List (Tree α) :=
  let (root, stack) := complete d (d a) s.1 s.2
  (root, node a [] :: stack)

/-- **Builds a tree** from its values, each listed before those below it. -/
def build : List α → Option (Tree α)
  | [] => none
  | a :: as =>
    let (root, stack) := as.foldl (add d) (node a [], [])
    some (complete d 0 root stack).1

/-! ### Other values -/

section Map

variable {β : Type} (f : α → β)

mutual

/-- Replaces each value. -/
def map : Tree α → Tree β
  | node a ts => node (f a) (mapAll ts)

def mapAll : List (Tree α) → List (Tree β)
  | [] => []
  | t :: ts => t.map :: mapAll ts

end

@[simp] theorem value_map (t : Tree α) : (t.map f).value = f t.value := by
  cases t
  rfl

theorem mapAll_eq_map (ts : List (Tree α)) : mapAll f ts = ts.map (map f) := by
  induction ts with
  | nil => rfl
  | cons t ts ih => rw [mapAll, ih, List.map_cons]

theorem map_push (t u : Tree α) : (t.push u).map f = (t.map f).push (u.map f) := by
  obtain ⟨a, ts⟩ := t
  rw [push, map, map, push, mapAll_eq_map, mapAll_eq_map, List.map_append, List.map_singleton]

variable (e : β → ℕ)

theorem complete_map (depth : ℕ) (root : Tree α) (stack : List (Tree α)) :
    complete e depth (root.map f) (stack.map (map f)) =
      ((complete (e ∘ f) depth root stack).1.map f,
        (complete (e ∘ f) depth root stack).2.map (map f)) := by
  cases stack with
  | nil => rfl
  | cons top rest =>
    rw [List.map_cons, complete, complete]
    induction rest generalizing top with
    | nil =>
      rw [List.map_nil, completeFrom, completeFrom, value_map, ← map_push, Function.comp_apply]
      split <;> rfl
    | cons parent rest ih =>
      rw [List.map_cons, completeFrom, completeFrom, value_map, ← map_push, Function.comp_apply]
      split
      · exact ih (parent.push top)
      · rfl

theorem foldl_add_map (as : List α) (root : Tree α) (stack : List (Tree α)) :
    (as.map f).foldl (add e) (root.map f, stack.map (map f)) =
      ((as.foldl (add (e ∘ f)) (root, stack)).1.map f,
        (as.foldl (add (e ∘ f)) (root, stack)).2.map (map f)) := by
  induction as generalizing root stack with
  | nil => rfl
  | cons a as ih =>
    have hadd : add e (root.map f, stack.map (map f)) (f a) =
        ((add (e ∘ f) (root, stack) a).1.map f, (add (e ∘ f) (root, stack) a).2.map (map f)) := by
      rw [add, complete_map]
      rfl
    rw [List.map_cons, List.foldl_cons, hadd, List.foldl_cons]
    exact ih _ _

/-- **The shape of a tree** depends only on the depths. -/
theorem build_map (l : List α) : build e (l.map f) = (build (e ∘ f) l).map (map f) := by
  cases l with
  | nil => rfl
  | cons a as =>
    have hfold := foldl_add_map f e as (node a []) []
    have hleaf : (node a []).map f = node (f a) [] := by rw [map, mapAll]
    rw [hleaf] at hfold
    rw [List.map_cons, build, build, Option.map_some]
    rw [List.map_nil] at hfold
    rw [hfold]
    exact congrArg some (congrArg Prod.fst (complete_map f e 0 _ _))

end Map

/-! ### What the stack stands for -/

/-- The tree when every node on the stack is complete. -/
def assembleFrom (root : Tree α) : Tree α → List (Tree α) → Tree α
  | top, [] => root.push top
  | top, parent :: rest => assembleFrom root (parent.push top) rest

/-- The tree when every node on the stack is complete. -/
def assemble (root : Tree α) : List (Tree α) → Tree α
  | [] => root
  | top :: rest => assembleFrom root top rest

/-- The numbers of children from the root to the top of the stack: the path to the next value. -/
def spine (root : Tree α) (stack : List (Tree α)) : List ℕ :=
  (root :: stack.reverse).map fun t => t.children.length

section Complete

variable (depth : ℕ) (root : Tree α) (stack : List (Tree α))

theorem assemble_complete :
    assemble (complete d depth root stack).1 (complete d depth root stack).2 =
      assemble root stack := by
  cases stack with
  | nil => rfl
  | cons top rest =>
    rw [complete, assemble]
    induction rest generalizing top with
    | nil =>
      rw [completeFrom]
      split <;> rfl
    | cons parent rest ih =>
      rw [completeFrom]
      split
      · exact ih (parent.push top)
      · rfl

theorem depths_complete : (complete d depth root stack).2.map (fun t => d t.value) =
    (stack.map fun t => d t.value).dropWhile (depth ≤ ·) := by
  cases stack with
  | nil => rfl
  | cons top rest =>
    rw [complete]
    induction rest generalizing top with
    | nil =>
      rw [completeFrom]
      split <;> simp_all
    | cons parent rest ih =>
      rw [completeFrom]
      split
      · rename_i hle
        rw [ih]
        simp [hle]
      · rename_i hle
        simp [hle]

theorem length_complete_le : (complete d depth root stack).2.length ≤ stack.length := by
  have h : ((complete d depth root stack).2.map fun t => d t.value).length ≤
      (stack.map fun t => d t.value).length := by
    rw [depths_complete]
    exact (List.dropWhile_suffix _).length_le
  simpa using h

/-- The next number after a path, one level up or more. -/
theorem take_succ_congr (path : List ℕ) {k : ℕ} (c c' : ℕ) (hk : k ≤ path.length) :
    (if k = path.length then path ++ [c + 1]
      else (path ++ [c + 1]).take k ++ [(path ++ [c + 1]).getD k 0 + 1]) =
    (path ++ [c, c']).take k ++ [(path ++ [c, c']).getD k 0 + 1] := by
  split
  · rename_i heq
    subst heq
    simp
  · rename_i hne
    have hlt : k < path.length := by omega
    rw [List.take_append_of_le_length hk, List.take_append_of_le_length hk,
      List.getD_append _ _ _ _ hlt, List.getD_append _ _ _ _ hlt]

/-- **Completing nodes shortens the path to the next value**, and counts one more child at its
end. -/
theorem spine_complete : spine (complete d depth root stack).1 (complete d depth root stack).2 =
    let k := (complete d depth root stack).2.length
    if k = stack.length then spine root stack
    else (spine root stack).take k ++ [(spine root stack).getD k 0 + 1] := by
  cases stack with
  | nil => rfl
  | cons top rest =>
    rw [complete]
    induction rest generalizing top with
    | nil =>
      rw [completeFrom]
      split
      · simp [spine]
      · simp
    | cons parent rest ih =>
      rw [completeFrom]
      split
      · have hle := length_complete_le d depth root (parent.push top :: rest)
        rw [complete, List.length_cons] at hle
        have hpath := take_succ_congr ((root :: rest.reverse).map fun t => t.children.length)
          parent.children.length top.children.length (by simpa using hle)
        rw [ih (parent.push top)]
        have hne : (completeFrom d depth root (parent.push top) rest).2.length ≠
            (top :: parent :: rest).length := by
          rw [List.length_cons, List.length_cons]
          omega
        rw [if_neg hne]
        simpa [spine] using hpath
      · simp

end Complete

section Leaf

variable {root : Tree α} {stack : List (Tree α)}

/-- A leaf on top of the stack is the last value of the tree. -/
theorem preorder_assembleFrom {t t' : Tree α} {as : List α} (rest : List (Tree α))
    (h : t'.preorder = t.preorder ++ as) :
    (assembleFrom root t' rest).preorder = (assembleFrom root t rest).preorder ++ as := by
  induction rest generalizing t t' with
  | nil => rw [assembleFrom, assembleFrom, preorder_push, preorder_push, h, List.append_assoc]
  | cons parent rest ih =>
    refine ih ?_
    rw [preorder_push, preorder_push, h, List.append_assoc]

theorem paths_assembleFrom {t t' : Tree α} {path : List ℕ} (rest : List (Tree α))
    (h : t'.paths = t.paths ++ [path]) :
    (assembleFrom root t' rest).paths =
      (assembleFrom root t rest).paths ++ [spine root rest ++ path] := by
  induction rest generalizing t t' path with
  | nil =>
    rw [assembleFrom, assembleFrom, paths_push, paths_push, h, List.map_append, List.append_assoc]
    rfl
  | cons parent rest ih =>
    have hpush : (parent.push t').paths =
        (parent.push t).paths ++ [parent.children.length :: path] := by
      rw [paths_push, paths_push, h, List.map_append, List.append_assoc]
      rfl
    rw [assembleFrom, ih hpush, assembleFrom]
    simp [spine]

theorem preorder_assemble_leaf (a : α) :
    (assemble root (node a [] :: stack)).preorder = (assemble root stack).preorder ++ [a] := by
  cases stack with
  | nil => exact preorder_push root _
  | cons top rest => exact preorder_assembleFrom rest (preorder_push top _)

theorem paths_assemble_leaf (a : α) :
    (assemble root (node a [] :: stack)).paths =
      (assemble root stack).paths ++ [spine root stack] := by
  cases stack with
  | nil => exact paths_push root _
  | cons top rest =>
    rw [assemble, assembleFrom, paths_assembleFrom rest (paths_push top _), assemble]
    simp [spine]

end Leaf

/-! ### What is built -/

section Build

open DepthList

variable {d}

/-- The state of the builder when the positions up to `i` have been added. -/
structure Built (d : α → ℕ) (depths : ℕ → ℕ) (values : List α) (i : ℕ)
    (s : Tree α × List (Tree α)) : Prop where
  stack_eq : s.2.map (fun t => d t.value) = depthStack depths i
  spine_eq : spine s.1 s.2 = address (level depths) i ++ [0]
  preorder_eq : (assemble s.1 s.2).preorder = values
  paths_eq : (assemble s.1 s.2).paths = (List.range (i + 1)).map (address (level depths))

variable {depths : ℕ → ℕ} {values : List α} {i : ℕ} {s : Tree α × List (Tree α)}

theorem built_singleton (a : α) : Built d depths [a] 0 (node a [], []) := ⟨rfl, rfl, rfl, rfl⟩

/-- **A value is added on its level**, as the last one. -/
theorem Built.add (h : Built d depths values i s) {a : α} (ha : d a = depths (i + 1)) :
    Built d depths (values ++ [a]) (i + 1) (Tree.add d s a) := by
  obtain ⟨root, stack⟩ := s
  obtain ⟨hdepths, hspine, hpreorder, hpaths⟩ := h
  set r := complete d (d a) root stack with hr
  have hstack : r.2.map (fun t => d t.value) =
      (depthStack depths i).dropWhile (depths (i + 1) ≤ ·) := by
    rw [hr, depths_complete, ha, ← hdepths]
  have hlevel : level depths (i + 1) = r.2.length + 1 := by
    rw [level, depthStack, ← hstack, List.length_cons, List.length_map]
  have hlen : (address (level depths) i).length = stack.length := by
    rw [(listing_level depths (i + 1)).length_address (Nat.lt_succ_self i), level, ← hdepths,
      List.length_map]
  -- The path to the new value is the next address.
  have hnext : Tree.spine r.1 r.2 = address (level depths) (i + 1) := by
    rw [hr, spine_complete, ← hr, address, hlevel, next, if_neg (Nat.succ_ne_zero _),
      Nat.add_sub_cancel, hlen, hspine]
    have hle := length_complete_le d (d a) root stack
    rw [← hr] at hle
    rcases hle.lt_or_eq with hlt | heq
    · rw [if_neg hlt.ne, if_pos (by omega), List.take_append_of_le_length (by omega),
        List.getD_append _ _ _ _ (by omega)]
    · rw [if_pos heq, if_neg (by omega)]
  have hassemble : assemble r.1 r.2 = assemble root stack := assemble_complete d (d a) root stack
  refine ⟨?_, ?_, ?_, ?_⟩
  · change d a :: r.2.map (fun t => d t.value) = _
    rw [hstack, ha, depthStack]
  · change Tree.spine r.1 (node a [] :: r.2) = _
    rw [← hnext]
    simp [Tree.spine, children]
  · change (assemble r.1 (node a [] :: r.2)).preorder = _
    rw [preorder_assemble_leaf, hassemble, hpreorder]
  · change (assemble r.1 (node a [] :: r.2)).paths = _
    rw [paths_assemble_leaf, hassemble, hpaths, hnext, List.range_succ (n := i + 1),
      List.map_append]
    rfl

/-- The depth of the value at a position. -/
def depthIn (d : α → ℕ) (l : List α) (i : ℕ) : ℕ := (l[i]?.map d).getD 0

/-- **A tree is built from any list that is not empty.** It lists the values as they came, and the
paths to them are the addresses of their levels. -/
theorem build_spec (d : α → ℕ) {l : List α} (hne : l ≠ []) :
    ∃ t, build d l = some t ∧ t.preorder = l ∧
      t.paths = (List.range l.length).map (address (level (depthIn d l))) := by
  -- The values that are added are in front.
  have hfold : ∀ (post pre : List α) (i : ℕ) (s : Tree α × List (Tree α)), l = pre ++ post →
      pre.length = i + 1 → Built d (depthIn d l) pre i s →
      Built d (depthIn d l) l (i + post.length) (post.foldl (Tree.add d) s) := by
    intro post
    induction post with
    | nil =>
      rintro pre i s rfl - h
      rw [List.append_nil] at h ⊢
      exact h
    | cons a post ih =>
      intro pre i s hl hlen h
      have ha : d a = depthIn d l (i + 1) := by
        rw [depthIn, hl, ← hlen, List.getElem?_append_right le_rfl, Nat.sub_self]
        rfl
      rw [List.append_cons] at hl
      have hrest := ih (pre ++ [a]) (i + 1) (Tree.add d s a) hl (by simp [hlen]) (h.add ha)
      rw [List.length_cons, Nat.add_comm post.length 1, ← Nat.add_assoc]
      exact hrest
  obtain ⟨a, as, rfl⟩ := List.exists_cons_of_ne_nil hne
  have hbuilt := hfold as [a] 0 _ rfl rfl (built_singleton a)
  set s := as.foldl (Tree.add d) (node a [], [])
  have hempty : (complete d 0 s.1 s.2).2 = [] := by
    have hnil := depths_complete d 0 s.1 s.2
    rw [List.dropWhile_eq_nil_iff.mpr fun x _ => decide_eq_true (Nat.zero_le x)] at hnil
    exact List.map_eq_nil_iff.mp hnil
  have hassemble := assemble_complete d 0 s.1 s.2
  rw [hempty, assemble] at hassemble
  refine ⟨_, rfl, ?_, ?_⟩
  · exact hassemble ▸ hbuilt.preorder_eq
  · rw [List.length_cons, hassemble, hbuilt.paths_eq, Nat.zero_add]

end Build

end Tree

end MonadServices
