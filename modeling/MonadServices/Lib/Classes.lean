import Mathlib.Data.List.Basic

/-!
# Sorting a list into classes

The elements of a list are put into groups, one after the other: each goes to the first group
whose first member has its key, or else starts a group. What comes out are **the classes of the
elements with one key**, each of them once (`MonadServices.Classes.mem_classes_iff`).
-/

namespace MonadServices

namespace Classes

variable {α β : Type} [DecidableEq β] (key : α → β)

/-- Puts an element into the first group whose first member has its key. -/
def place (x : α) : List (List α) → List (List α)
  | [] => [[x]]
  | g :: gs => if g.head?.map key = some (key x) then (g ++ [x]) :: gs else g :: place x gs

/-- The groups of the elements of a list. -/
def classes (l : List α) : List (List α) := l.foldl (fun gs x => place key x gs) []

variable {key}

/-- The groups are the classes of a list: they have members, which are those with the key of any
of them, and no two of them have the same key. -/
structure AreClasses (key : α → β) (gs : List (List α)) (l : List α) : Prop where
  ne_nil : ∀ g ∈ gs, g ≠ []
  mem_iff : ∀ g ∈ gs, ∀ x ∈ g, ∀ y, y ∈ g ↔ y ∈ l ∧ key y = key x
  cover : ∀ x ∈ l, ∃ g ∈ gs, x ∈ g
  distinct : gs.Pairwise fun g g' => ∀ x ∈ g, ∀ y ∈ g', key x ≠ key y

variable (key) in
/-- Where an element goes. -/
theorem place_cases (x : α) (gs : List (List α)) :
    (∃ pre g post, gs = pre ++ g :: post ∧ g.head?.map key = some (key x) ∧
      place key x gs = pre ++ (g ++ [x]) :: post) ∨
    ((∀ g ∈ gs, g.head?.map key ≠ some (key x)) ∧ place key x gs = gs ++ [[x]]) := by
  induction gs with
  | nil => exact .inr ⟨nofun, rfl⟩
  | cons g gs ih =>
    by_cases hg : g.head?.map key = some (key x)
    · exact .inl ⟨[], g, gs, rfl, hg, by rw [place, if_pos hg]; rfl⟩
    · have hplace : place key x (g :: gs) = g :: place key x gs := by rw [place, if_neg hg]
      rcases ih with ⟨pre, g', post, rfl, hg', hrest⟩ | ⟨hnone, hrest⟩
      · exact .inl ⟨g :: pre, g', post, rfl, hg', by rw [hplace, hrest]; rfl⟩
      · refine .inr ⟨List.forall_mem_cons.mpr ⟨hg, hnone⟩, ?_⟩
        rw [hplace, hrest]
        rfl

omit [DecidableEq β] in
/-- A class none of whose members has the key of a new element is one of the longer list. -/
theorem mem_iff_append {l g : List α} {x : α}
    (hg : ∀ y ∈ g, ∀ z, z ∈ g ↔ z ∈ l ∧ key z = key y) (hx : ∀ y ∈ g, key y ≠ key x) :
    ∀ y ∈ g, ∀ z, z ∈ g ↔ z ∈ l ++ [x] ∧ key z = key y := by
  intro y hy z
  rw [hg y hy z, List.mem_append, List.mem_singleton]
  refine ⟨fun h => ⟨.inl h.1, h.2⟩, ?_⟩
  rintro ⟨hz | rfl, hkey⟩
  · exact ⟨hz, hkey⟩
  · exact absurd hkey.symm (hx y hy)

omit [DecidableEq β] in
/-- A new element joins the group of its key. -/
theorem AreClasses.join {pre post : List (List α)} {g l : List α} {x : α}
    (h : AreClasses key (pre ++ g :: post) l) (hgx : ∀ y ∈ g, key y = key x) :
    AreClasses key (pre ++ (g ++ [x]) :: post) (l ++ [x]) := by
  have hmem : g ∈ pre ++ g :: post := List.mem_append_right _ List.mem_cons_self
  obtain ⟨a, as, hcons⟩ := List.exists_cons_of_ne_nil (h.ne_nil g hmem)
  have ha : a ∈ g := hcons ▸ List.mem_cons_self
  obtain ⟨hpre, hpost, hcross⟩ := List.pairwise_append.mp h.distinct
  obtain ⟨hgpost, hpost⟩ := List.pairwise_cons.mp hpost
  -- The other groups do not have the key.
  have hother : ∀ g' ∈ pre ++ post, ∀ y ∈ g', key y ≠ key x := by
    intro g' hg' y hy
    rw [← hgx a ha]
    rcases List.mem_append.mp hg' with hg' | hg'
    · exact hcross g' hg' g List.mem_cons_self y hy a ha
    · exact (hgpost g' hg' a ha y hy).symm
  have hsub : ∀ g' ∈ pre ++ post, g' ∈ pre ++ g :: post := fun g' hg' =>
    List.mem_append.mpr ((List.mem_append.mp hg').imp_right (List.mem_cons_of_mem g))
  have hsplit : ∀ {P : List α → Prop}, (∀ g' ∈ pre ++ post, P g') → P (g ++ [x]) →
      ∀ g' ∈ pre ++ (g ++ [x]) :: post, P g' := by
    intro P hP hPg
    rw [List.forall_mem_append] at hP ⊢
    exact ⟨hP.1, List.forall_mem_cons.mpr ⟨hPg, hP.2⟩⟩
  have hnew : ∀ y ∈ g ++ [x], key y = key x :=
    List.forall_mem_append.mpr ⟨hgx, fun y hy => congrArg key (List.mem_singleton.mp hy)⟩
  refine ⟨?_, ?_, ?_, ?_⟩
  · exact hsplit (fun g' hg' => h.ne_nil g' (hsub g' hg')) (by simp)
  · refine hsplit (fun g' hg' => mem_iff_append (h.mem_iff g' (hsub g' hg')) (hother g' hg')) ?_
    intro y hy z
    rw [hnew y hy, List.mem_append, h.mem_iff g hmem a ha z, hgx a ha, List.mem_append,
      List.mem_singleton]
    refine ⟨?_, ?_⟩
    · rintro (⟨hz, hkey⟩ | rfl)
      · exact ⟨.inl hz, hkey⟩
      · exact ⟨.inr rfl, rfl⟩
    · rintro ⟨hz | rfl, hkey⟩
      · exact .inl ⟨hz, hkey⟩
      · exact .inr rfl
  · intro y hy
    rcases List.mem_append.mp hy with hy | hy
    · obtain ⟨g', hg', hyg⟩ := h.cover y hy
      rcases List.mem_append.mp hg' with hg' | hg'
      · exact ⟨g', List.mem_append_left _ hg', hyg⟩
      · rcases List.mem_cons.mp hg' with rfl | hg'
        · exact ⟨_, List.mem_append_right _ List.mem_cons_self, List.mem_append_left _ hyg⟩
        · exact ⟨g', List.mem_append_right _ (List.mem_cons_of_mem _ hg'), hyg⟩
    · exact ⟨_, List.mem_append_right _ List.mem_cons_self, List.mem_append_right _ hy⟩
  · refine List.pairwise_append.mpr ⟨hpre, List.pairwise_cons.mpr ⟨?_, hpost⟩, ?_⟩
    · intro g' hg' y hy z hz
      rw [hnew y hy]
      exact (hother g' (List.mem_append_right _ hg') z hz).symm
    · intro g₁ hg₁ g₂ hg₂ y hy z hz
      rcases List.mem_cons.mp hg₂ with rfl | hg₂
      · rw [hnew z hz]
        exact hother g₁ (List.mem_append_left _ hg₁) y hy
      · exact hcross g₁ hg₁ g₂ (List.mem_cons_of_mem _ hg₂) y hy z hz

omit [DecidableEq β] in
/-- A new element whose key no group has starts one. -/
theorem AreClasses.start {gs : List (List α)} {l : List α} {x : α} (h : AreClasses key gs l)
    (hother : ∀ g ∈ gs, ∀ y ∈ g, key y ≠ key x) : AreClasses key (gs ++ [[x]]) (l ++ [x]) := by
  have hnotin : ∀ z ∈ l, key z ≠ key x := by
    intro z hz
    obtain ⟨g, hg, hzg⟩ := h.cover z hz
    exact hother g hg z hzg
  refine ⟨?_, ?_, ?_, ?_⟩
  · exact List.forall_mem_append.mpr ⟨h.ne_nil, by simp⟩
  · refine List.forall_mem_append.mpr
      ⟨fun g hg => mem_iff_append (h.mem_iff g hg) (hother g hg), ?_⟩
    simp only [List.mem_singleton, forall_eq, List.mem_append]
    intro z
    refine ⟨fun hz => ⟨.inr hz, hz ▸ rfl⟩, ?_⟩
    rintro ⟨hz | hz, hkey⟩
    · exact absurd hkey (hnotin z hz)
    · exact hz
  · intro y hy
    rcases List.mem_append.mp hy with hy | hy
    · obtain ⟨g, hg, hyg⟩ := h.cover y hy
      exact ⟨g, List.mem_append_left _ hg, hyg⟩
    · exact ⟨[x], List.mem_append_right _ (List.mem_singleton_self _), hy⟩
  · refine List.pairwise_append.mpr ⟨h.distinct, List.pairwise_singleton _ _, ?_⟩
    intro g hg g' hg' y hy z hz
    rw [List.mem_singleton.mp hg'] at hz
    rw [List.mem_singleton.mp hz]
    exact hother g hg y hy

/-- **Placing an element keeps the groups classes.** -/
theorem AreClasses.place {gs : List (List α)} {l : List α} (h : AreClasses key gs l) (x : α) :
    AreClasses key (Classes.place key x gs) (l ++ [x]) := by
  -- The first member of a group stands for all of them.
  have hhead : ∀ g ∈ gs, ∀ y ∈ g, (g.head?.map key = some (key x) ↔ key y = key x) := by
    intro g hg y hy
    obtain ⟨a, as, rfl⟩ := List.exists_cons_of_ne_nil (h.ne_nil g hg)
    have hkey : key y = key a := ((h.mem_iff _ hg a List.mem_cons_self y).mp hy).2
    rw [List.head?_cons, Option.map_some, Option.some.injEq, hkey]
  rcases place_cases key x gs with ⟨pre, g, post, rfl, hg, hplace⟩ | ⟨hnone, hplace⟩
  · have hmem : g ∈ pre ++ g :: post := List.mem_append_right _ List.mem_cons_self
    rw [hplace]
    exact h.join fun y hy => (hhead g hmem y hy).mp hg
  · rw [hplace]
    exact h.start fun g hg y hy heq => hnone g hg ((hhead g hg y hy).mpr heq)

variable (key) in
/-- The groups of a list are its classes. -/
theorem areClasses (l : List α) : AreClasses key (classes key l) l := by
  have hfold : ∀ (l done : List α) (gs : List (List α)), AreClasses key gs done →
      AreClasses key (l.foldl (fun gs x => Classes.place key x gs) gs) (done ++ l) := by
    intro l
    induction l with
    | nil => exact fun done gs h => (List.append_nil done).symm ▸ h
    | cons x l ih =>
      intro done gs h
      have := ih (done ++ [x]) _ (h.place x)
      rwa [List.append_assoc] at this
  exact hfold l [] [] ⟨nofun, nofun, nofun, List.Pairwise.nil⟩

/-- **The group of an element has the elements with its key.** -/
theorem mem_classes_iff {l g : List α} (hg : g ∈ classes key l) {x : α} (hx : x ∈ g) (y : α) :
    y ∈ g ↔ y ∈ l ∧ key y = key x :=
  (areClasses key l).mem_iff g hg x hx y

theorem classes_ne_nil {l : List α} (h : l ≠ []) : classes key l ≠ [] := by
  obtain ⟨x, l, rfl⟩ := List.exists_cons_of_ne_nil h
  obtain ⟨g, hg, -⟩ := (areClasses key (x :: l)).cover x List.mem_cons_self
  exact List.ne_nil_of_mem hg

/-! ### The classes of a list in another order -/

variable (key) in
theorem flatten_place_perm (x : α) (gs : List (List α)) :
    (place key x gs).flatten.Perm (gs.flatten ++ [x]) := by
  rcases place_cases key x gs with ⟨pre, g, post, rfl, -, hplace⟩ | ⟨-, hplace⟩
  · rw [hplace]
    simp only [List.flatten_append, List.flatten_cons, List.append_assoc]
    exact ((List.perm_append_comm.append_left g).append_left pre.flatten)
  · rw [hplace, List.flatten_append, List.flatten_singleton]

variable (key) in
/-- Every element is in one group, as often as in the list. -/
theorem flatten_classes_perm (l : List α) : (classes key l).flatten.Perm l := by
  have hfold : ∀ (l done : List α) (gs : List (List α)), gs.flatten.Perm done →
      (l.foldl (fun gs x => place key x gs) gs).flatten.Perm (done ++ l) := by
    intro l
    induction l with
    | nil => exact fun done gs h => (List.append_nil done).symm ▸ h
    | cons x l ih =>
      intro done gs h
      have := ih (done ++ [x]) _ ((flatten_place_perm key x gs).trans (h.append_right [x]))
      rwa [List.append_assoc] at this
  exact hfold l [] [] (List.Perm.refl [])

/-- A group in another order of its elements. -/
theorem perm_filter_of_mem_classes {l g : List α} (hl : l.Nodup) (hg : g ∈ classes key l) {x : α}
    (hx : x ∈ g) : g.Perm (l.filter fun y => key y = key x) := by
  have hnodup : g.Nodup :=
    ((flatten_classes_perm key l).nodup_iff.mpr hl).sublist (List.sublist_flatten_of_mem hg)
  refine (List.perm_ext_iff_of_nodup hnodup (hl.filter _)).mpr fun y => ?_
  rw [mem_classes_iff hg hx, List.mem_filter, decide_eq_true_iff]

/-- **The classes do not depend on the order of the list**, but for theirs. -/
theorem exists_perm_of_mem_classes {l l' g : List α} (hl : l.Nodup) (hperm : l'.Perm l)
    (hg : g ∈ classes key l) : ∃ g' ∈ classes key l', g'.Perm g := by
  obtain ⟨x, xs, hcons⟩ := List.exists_cons_of_ne_nil ((areClasses key l).ne_nil g hg)
  have hx : x ∈ g := hcons ▸ List.mem_cons_self
  have hxl : x ∈ l' := hperm.mem_iff.mpr ((mem_classes_iff hg hx x).mp hx).1
  obtain ⟨g', hg', hx'⟩ := (areClasses key l').cover x hxl
  refine ⟨g', hg', ?_⟩
  have hg'l := perm_filter_of_mem_classes (hperm.nodup_iff.mpr hl) hg' hx'
  exact (hg'l.trans (hperm.filter _)).trans (perm_filter_of_mem_classes hl hg hx).symm

variable (key) in
/-- The first group is that of the first element. -/
theorem exists_classes_cons (x : α) (l : List α) :
    ∃ g gs, classes key (x :: l) = g :: gs ∧ x ∈ g := by
  have hfold : ∀ (l g : List α) (gs : List (List α)), x ∈ g → ∃ g' gs',
      l.foldl (fun gs x => place key x gs) (g :: gs) = g' :: gs' ∧ x ∈ g' := by
    intro l
    induction l with
    | nil => exact fun g gs hx => ⟨g, gs, rfl, hx⟩
    | cons y l ih =>
      intro g gs hx
      rw [List.foldl_cons, place]
      split
      · exact ih (g ++ [y]) gs (List.mem_append_left [y] hx)
      · exact ih g (place key y gs) hx
  exact hfold l [x] [] (List.mem_singleton_self x)

end Classes

end MonadServices
