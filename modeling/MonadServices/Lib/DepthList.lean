import Mathlib.Data.List.GetD
import Mathlib.Logic.Relation
import Mathlib.Tactic

/-!
# Trees listed by depth

A forest may be given by the depths of its nodes, in the order in which a depth-first walk comes
to them: the first depth is `0`, and each later one at most the one before it plus one. Here a
list of depths is a function `d` on the positions, of which the first `n` are looked at
(`MonadServices.DepthList.Listing`).

The **parent** of a position is the last one before it that is one level up, with nothing of a
smaller depth in between (`MonadServices.DepthList.Parent`), and its **ancestors** are the
positions from which all depths up to it are larger
(`MonadServices.DepthList.Listing.ancestor_iff`). The **address** of a position is worked out from
the address of the one before it (`MonadServices.DepthList.next`). It is the address of its parent,
followed by the number of children that the parent had before
(`MonadServices.DepthList.Listing.address_of_parent`), and addresses increase within a tree
(`MonadServices.DepthList.address_lt`).
-/

namespace MonadServices

namespace DepthList

/-! ### Parents and ancestors -/

section Parent

variable {d : ℕ → ℕ} {i j k n : ℕ}

/-- The parent of a position. -/
def Parent (d : ℕ → ℕ) (j i : ℕ) : Prop :=
  j < i ∧ d j + 1 = d i ∧ ∀ k < i, j < k → d i ≤ d k

instance : DecidableRel (Parent d) := fun j i =>
  inferInstanceAs (Decidable (j < i ∧ d j + 1 = d i ∧ ∀ k < i, j < k → d i ≤ d k))

/-- The ancestors of a position. -/
def Ancestor (d : ℕ → ℕ) : ℕ → ℕ → Prop := Relation.TransGen (Parent d)

/-- The number of children that `j` has before position `i`. -/
def childrenBefore (d : ℕ → ℕ) (j i : ℕ) : ℕ := (List.range i).countP fun k => Parent d j k

/-- The first `n` positions list a forest. -/
structure Listing (d : ℕ → ℕ) (n : ℕ) : Prop where
  root : 0 < n → d 0 = 0
  step : ∀ i, i + 1 < n → d (i + 1) ≤ d i + 1

/-- **A position has one parent at most.** -/
theorem Parent.unique (hj : Parent d j i) (hk : Parent d k i) : j = k := by
  obtain ⟨hlt, hd, hge⟩ := hj
  obtain ⟨hlt', hd', hge'⟩ := hk
  rcases lt_trichotomy j k with h | h | h
  · have := hge k hlt' h
    omega
  · exact h
  · have := hge' j hlt h
    omega

/-- A position below the top has a parent. -/
theorem Listing.exists_parent (h : Listing d n) (hi : i < n) (hpos : 0 < d i) :
    ∃ j, Parent d j i := by
  -- The parent is the last position before `i` with a smaller depth.
  have hroot : ∃ j < i, d j < d i := by
    have h0 := h.root (by omega)
    refine ⟨0, ?_, by omega⟩
    rcases Nat.eq_zero_or_pos i with rfl | hne
    · omega
    · exact hne
  obtain ⟨j, ⟨hlt, hd⟩, hlast⟩ : ∃ j, (j < i ∧ d j < d i) ∧ ∀ k < i, j < k → d i ≤ d k := by
    have hmax := Nat.findGreatest_spec (P := fun j => j < i ∧ d j < d i) (n := i)
      hroot.choose_spec.1.le hroot.choose_spec
    refine ⟨_, hmax, fun k hk hlt => ?_⟩
    by_contra hcon
    exact Nat.findGreatest_is_greatest hlt hk.le ⟨hk, by omega⟩
  refine ⟨j, hlt, ?_, hlast⟩
  have hstep := h.step j (by omega)
  rcases Nat.lt_or_ge (j + 1) i with hnext | hnext
  · have := hlast (j + 1) hnext (by omega)
    omega
  · obtain rfl : i = j + 1 := by omega
    omega

theorem Parent.ancestor (h : Parent d j i) : Ancestor d j i := .single h

/-- **The ancestors of a position** are those from which all depths up to it are larger. -/
theorem Listing.ancestor_iff (h : Listing d n) (hi : i < n) :
    Ancestor d j i ↔ j < i ∧ ∀ k ≤ i, j < k → d j < d k := by
  constructor
  · intro hanc
    clear hi
    induction hanc with
    | single hpar =>
      obtain ⟨hlt, hd, hge⟩ := hpar
      refine ⟨hlt, fun k hk hjk => ?_⟩
      rcases hk.lt_or_eq with hk | rfl
      · have := hge k hk hjk
        omega
      · omega
    | @tail b c hanc hpar ih =>
      obtain ⟨hlt, hd, hge⟩ := hpar
      obtain ⟨hjb, hall⟩ := ih
      refine ⟨hjb.trans hlt, fun k hk hjk => ?_⟩
      have hb := hall b le_rfl hjb
      rcases Nat.lt_or_ge b k with hbk | hkb
      · rcases hk.lt_or_eq with hk | rfl
        · have := hge k hk hbk
          omega
        · omega
      · exact hall k hkb hjk
  · rintro ⟨hlt, hall⟩
    induction i using Nat.strong_induction_on with
    | _ i ih =>
      have hpos : 0 < d i := (Nat.zero_le _).trans_lt (hall i le_rfl hlt)
      obtain ⟨p, hpar⟩ := h.exists_parent hi hpos
      obtain ⟨hpi, hd, hge⟩ := hpar
      -- The parent is not before `j`, which has a smaller depth than `i`.
      have hjp : j ≤ p := by
        by_contra hcon
        have h1 := hge j hlt (by omega)
        have h2 := hall i le_rfl hlt
        omega
      rcases hjp.lt_or_eq with hjp | rfl
      · exact (ih p hpi (hpi.trans hi) hjp fun k hk => hall k (hk.trans hpi.le)).tail
          ⟨hpi, hd, hge⟩
      · exact .single ⟨hpi, hd, hge⟩

/-- The positions before `i` whose subtrees have not been left by then. -/
def Open (d : ℕ → ℕ) (j i : ℕ) : Prop := j < i ∧ ∀ k < i, j < k → d j < d k

/-- The depth to which positions are open before position `i`. -/
def openDepth (d : ℕ → ℕ) : ℕ → ℕ
  | 0 => 0
  | i + 1 => d i + 1

theorem Listing.le_openDepth (h : Listing d n) (hi : i < n) : d i ≤ openDepth d i := by
  cases i with
  | zero => exact (h.root hi).le
  | succ i => exact h.step i hi

/-- **A position is opened, and closes those that are not above it.** -/
theorem open_succ_iff : Open d j (i + 1) ↔ j = i ∨ Open d j i ∧ d j < d i := by
  constructor
  · rintro ⟨hlt, hall⟩
    rcases (Nat.lt_succ_iff.mp hlt).lt_or_eq with hji | hji
    · exact Or.inr ⟨⟨hji, fun k hk => hall k (by omega)⟩, hall i (Nat.lt_succ_self i) hji⟩
    · exact Or.inl hji
  · rintro (rfl | ⟨⟨hji, hall⟩, hd⟩)
    · exact ⟨Nat.lt_succ_self j, fun k hk hjk => by omega⟩
    · refine ⟨by omega, fun k hk hjk => ?_⟩
      rcases (Nat.lt_succ_iff.mp hk).lt_or_eq with hk | rfl
      · exact hall k hk hjk
      · exact hd

/-- **The ancestors of a position** are the open positions above it. -/
theorem Listing.ancestor_iff_open (h : Listing d n) (hi : i < n) :
    Ancestor d j i ↔ Open d j i ∧ d j < d i := by
  rw [h.ancestor_iff hi]
  constructor
  · rintro ⟨hlt, hall⟩
    exact ⟨⟨hlt, fun k hk => hall k hk.le⟩, hall i le_rfl hlt⟩
  · rintro ⟨⟨hlt, hall⟩, hd⟩
    refine ⟨hlt, fun k hk hjk => ?_⟩
    rcases hk.lt_or_eq with hk | rfl
    · exact hall k hk hjk
    · exact hd

theorem childrenBefore_succ (d : ℕ → ℕ) (j i : ℕ) :
    childrenBefore d j (i + 1) = childrenBefore d j i + if Parent d j i then 1 else 0 := by
  rw [childrenBefore, List.range_succ, List.countP_append, childrenBefore]
  simp [List.countP_cons]

/-- Nothing before a position is its child. -/
theorem childrenBefore_self (d : ℕ → ℕ) (j : ℕ) {i : ℕ} (h : i ≤ j + 1) :
    childrenBefore d j i = 0 := by
  rw [childrenBefore, List.countP_eq_zero]
  intro k hk
  have hk := List.mem_range.mp hk
  simp only [decide_eq_true_eq]
  intro hpar
  have := hpar.1
  omega

/-- The children of a position are counted one by one. -/
theorem exists_childrenBefore_eq {m : ℕ} (h : m < childrenBefore d j i) :
    ∃ k < i, Parent d j k ∧ childrenBefore d j k = m := by
  induction i with
  | zero => exact absurd h (Nat.not_lt_zero m)
  | succ i ih =>
    rw [childrenBefore_succ] at h
    rcases Nat.lt_or_ge m (childrenBefore d j i) with hlt | hge
    · obtain ⟨k, hk, hpar, hm⟩ := ih hlt
      exact ⟨k, hk.trans (Nat.lt_succ_self i), hpar, hm⟩
    · have hpar : Parent d j i := by
        by_contra hcon
        rw [if_neg hcon] at h
        omega
      rw [if_pos hpar] at h
      exact ⟨i, Nat.lt_succ_self i, hpar, by omega⟩

end Parent

/-! ### Addresses -/

/-- The address after `a` of a position of depth `depth`: one more child of the ancestor one
level up. -/
def next (a : List ℕ) (depth : ℕ) : List ℕ :=
  if depth = 0 then []
  else if depth ≤ a.length then a.take (depth - 1) ++ [a.getD (depth - 1) 0 + 1]
  else a ++ [0]

theorem length_next {a : List ℕ} {depth : ℕ} (h : depth ≤ a.length + 1) :
    (next a depth).length = depth := by
  unfold next
  split_ifs with h0 hle
  · exact h0.symm
  · rw [List.length_append, List.length_take, List.length_singleton]
    omega
  · rw [List.length_append, List.length_singleton]
    omega

/-- The next address agrees with `a` before its last component. -/
theorem take_next {a : List ℕ} {depth m : ℕ} (h : depth ≤ a.length + 1) (hm : m < depth) :
    (next a depth).take m = a.take m := by
  unfold next
  rw [if_neg (by omega)]
  split_ifs with hle
  · rw [List.take_append_of_le_length (by rw [List.length_take]; omega), List.take_take,
      min_eq_left (by omega)]
  · rw [List.take_append_of_le_length (by omega)]

/-- What the next address has one level below the depth. -/
theorem getElem?_next_last {a : List ℕ} {m : ℕ} (hm : m ≤ a.length) :
    (next a (m + 1))[m]? = some (if m < a.length then a.getD m 0 + 1 else 0) := by
  unfold next
  rw [if_neg (by omega)]
  split_ifs with hle hlt hlt
  · rw [List.getElem?_append_right (by rw [List.length_take]; omega), List.length_take]
    simp [min_eq_left (by omega : m ≤ a.length)]
  · omega
  · omega
  · obtain rfl : m = a.length := by omega
    simp

/-- **The next address is larger**, unless a new tree begins. -/
theorem lt_next {a : List ℕ} {depth : ℕ} (hpos : 0 < depth) : a < next a depth := by
  unfold next
  rw [if_neg (by omega)]
  split_ifs with hle
  · have ha : a = a.take (depth - 1) ++ (a.getD (depth - 1) 0 :: a.drop depth) := by
      have hlt : depth - 1 < a.length := by omega
      have hdrop : a.drop (depth - 1) = a.getD (depth - 1) 0 :: a.drop depth := by
        rw [List.drop_eq_getElem_cons hlt, List.getD_eq_getElem _ _ hlt]
        congr 2
        omega
      rw [← hdrop, List.take_append_drop]
    conv_lhs => rw [ha]
    refine List.append_left_lt ?_
    exact List.cons_lt_cons_iff.mpr (Or.inl (Nat.lt_succ_self _))
  · conv_lhs => rw [← List.append_nil a]
    exact List.append_left_lt (List.nil_lt_cons _ _)

/-- The address of a position. -/
def address (d : ℕ → ℕ) : ℕ → List ℕ
  | 0 => []
  | i + 1 => next (address d i) (d (i + 1))

section Address

variable {d : ℕ → ℕ} {i j k n : ℕ}

/-- **An address is as long as the position is deep.** -/
theorem Listing.length_address (h : Listing d n) (hi : i < n) :
    (address d i).length = d i := by
  induction i with
  | zero => exact (h.root hi).symm
  | succ i ih =>
    refine length_next ?_
    rw [ih (by omega)]
    exact h.step i hi

/-- A list of depths lists a forest, if each is at most one more than the length of the address
before it. -/
theorem listing_iff_length : Listing d n ↔ (0 < n → d 0 = 0) ∧
    ∀ i, i + 1 < n → d (i + 1) ≤ (address d i).length + 1 := by
  constructor
  · intro h
    refine ⟨h.root, fun i hi => ?_⟩
    rw [h.length_address (by omega)]
    exact h.step i hi
  · rintro ⟨hroot, hstep⟩
    induction n with
    | zero => exact ⟨fun h => absurd h (Nat.lt_irrefl 0), fun i hi => absurd hi (Nat.not_lt_zero _)⟩
    | succ n ih =>
      have hn : Listing d n :=
        ih (fun h => hroot (by omega)) fun i hi => hstep i (by omega)
      refine ⟨hroot, fun i hi => ?_⟩
      have hi' := hstep i hi
      rwa [hn.length_address (by omega)] at hi'

/-- Below a position all addresses begin with its own. -/
theorem Listing.take_address (h : Listing d n) (hi : i < n) (hji : j ≤ i)
    (hall : ∀ k ≤ i, j < k → d j < d k) : (address d i).take (d j) = address d j := by
  induction i with
  | zero =>
    obtain rfl : j = 0 := by omega
    exact List.take_nil
  | succ i ih =>
    rcases hji.lt_or_eq with hlt | rfl
    · have hlen := h.length_address (i := i) (by omega)
      rw [address, take_next (by rw [hlen]; exact h.step i hi) (hall _ le_rfl hlt)]
      exact ih (by omega) (by omega) fun k hk => hall k (by omega)
    · rw [List.take_of_length_le (h.length_address hi).le]

/-- **Below a position `j` the component after its address counts its children.** -/
theorem Listing.childrenBefore_eq (h : Listing d n) (hi : i < n) (hji : j < i)
    (hall : ∀ k ≤ i, j < k → d j < d k) :
    ∃ c, (address d i)[d j]? = some c ∧ childrenBefore d j (i + 1) = c + 1 := by
  induction i with
  | zero => omega
  | succ i ih =>
    have hlen := h.length_address (i := i) (by omega)
    have hd := hall _ le_rfl hji
    rw [childrenBefore_succ]
    rcases (Nat.lt_succ_iff.mp hji).lt_or_eq with hlt | rfl
    · obtain ⟨c, hc, hcount⟩ := ih (by omega) hlt fun k hk => hall k (by omega)
      rw [hcount]
      have hdi := hall i (by omega) hlt
      rcases Nat.lt_or_ge (d j + 1) (d (i + 1)) with hdeep | hdeep
      · -- Deeper than a child, the component stays.
        refine ⟨c, ?_, ?_⟩
        · have htake := congrArg (·[d j]?) (take_next (by rw [hlen]; exact h.step i hi) hdeep)
          rw [List.getElem?_take_of_lt (Nat.lt_succ_self _),
            List.getElem?_take_of_lt (Nat.lt_succ_self _), hc] at htake
          exact htake
        · rw [if_neg fun hpar => by have := hpar.2.1; omega]
      · -- A child is counted.
        have hchild : d (i + 1) = d j + 1 := by omega
        have hpar : Parent d j (i + 1) := by
          refine ⟨hji, hchild.symm, fun k hk hjk => ?_⟩
          have := hall k hk.le hjk
          omega
        refine ⟨c + 1, ?_, by rw [if_pos hpar]⟩
        rw [address, hchild, getElem?_next_last (by omega), if_pos (by omega),
          List.getD_eq_getElem?_getD, hc]
        rfl
    · -- The position after `j` is its first child.
      have hchild : d (j + 1) = d j + 1 := by
        have := h.step j hi
        omega
      refine ⟨0, ?_, ?_⟩
      · rw [address, hchild, getElem?_next_last hlen.ge, if_neg (by omega)]
      · rw [childrenBefore_self d j le_rfl, if_pos ⟨hji, hchild.symm, fun k hk hjk => by omega⟩]

/-- **The address of a position** is that of its parent, followed by the number of children the
parent had before. -/
theorem Listing.address_of_parent (h : Listing d n) (hi : i < n) (hpar : Parent d j i) :
    address d i = address d j ++ [childrenBefore d j i] := by
  obtain ⟨hlt, hall⟩ := (h.ancestor_iff hi).mp hpar.ancestor
  obtain ⟨c, hc, hcount⟩ := h.childrenBefore_eq hi hlt hall
  have hlen : (address d i).length = d j + 1 := (h.length_address hi).trans hpar.2.1.symm
  rw [childrenBefore_succ, if_pos hpar, Nat.add_right_cancel_iff] at hcount
  have htake := List.take_add_one (l := address d i) (i := d j)
  rw [List.take_of_length_le hlen.le, h.take_address hi hlt.le hall, hc] at htake
  rw [htake, hcount]
  rfl

/-- **Addresses increase within a tree.** -/
theorem address_lt (hik : i < k) (htree : ∀ m ≤ k, i < m → 0 < d m) :
    address d i < address d k := by
  induction k with
  | zero => omega
  | succ k ih =>
    have hstep : address d k < address d (k + 1) := lt_next (htree _ le_rfl hik)
    rcases (Nat.lt_succ_iff.mp hik).lt_or_eq with hlt | rfl
    · exact List.lt_trans (ih hlt fun m hm => htree m (by omega)) hstep
    · exact hstep

end Address

end DepthList

end MonadServices
