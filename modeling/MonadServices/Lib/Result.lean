import Mathlib.Data.List.Forall2
import Mathlib.Tactic

/-!
# Computations that may fail

A computation in `Except` gives a result when all its parts do
(`MonadServices.bind_eq_ok`, `MonadServices.mapM_eq_ok`).

A checker is such a computation on a state in which it may also take note of faults and
go on; it accepts when it gives a result whose state is still good.
`MonadServices.Accepts` says exactly when it does, and what then holds of the state. The
two rules, for a sequence and for a fold, ask that a state once spoilt stays so.
-/

namespace MonadServices

variable {ε α β σ : Type}

theorem ok_bind {a : α} {f : α → Except ε β} : (Except.ok a >>= f) = f a := rfl

/-- A computation that may fail gives a result when both its parts do. -/
theorem bind_eq_ok {x : Except ε α} {f : α → Except ε β} {b : β} :
    x >>= f = .ok b ↔ ∃ a, x = .ok a ∧ f a = .ok b := by
  cases x with
  | error e => simp [bind, Except.bind]
  | ok a => simp [bind, Except.bind]

theorem toBool_eq_true {r : Except ε α} (h : r.toBool = true) : ∃ a, r = .ok a := by
  cases r with
  | error e => cases h
  | ok a => exact ⟨a, rfl⟩

theorem mapError_eq_ok {ε' : Type} {x : Except ε α} {f : ε → ε'} {a : α} :
    x.mapError f = .ok a ↔ x = .ok a := by
  cases x with
  | error e => simp [Except.mapError]
  | ok a => simp [Except.mapError]

theorem map_eq_ok {x : Except ε α} {f : α → β} {b : β} :
    x.map f = .ok b ↔ ∃ a, x = .ok a ∧ f a = b := by
  cases x with
  | error e => simp [Except.map]
  | ok a => simp [Except.map]

theorem mapM_eq_ok {f : α → Except ε β} {l : List α} {bs : List β} :
    l.mapM f = .ok bs ↔ List.Forall₂ (fun a b => f a = .ok b) l bs := by
  induction l generalizing bs with
  | nil => cases bs <;> simp [pure, Except.pure]
  | cons a l ih =>
    rw [List.mapM_cons, bind_eq_ok, List.forall₂_cons_left_iff]
    constructor
    · rintro ⟨b, hb, h⟩
      obtain ⟨bs', hbs', h⟩ := bind_eq_ok.mp h
      exact ⟨b, bs', hb, ih.mp hbs', (Except.ok.inj h).symm⟩
    · rintro ⟨b, bs', hb, hbs', rfl⟩
      exact ⟨b, hb, bind_eq_ok.mpr ⟨bs', ih.mpr hbs', rfl⟩⟩

/-- The results of a list depend on its elements only. -/
theorem forall₂_congr_of_mem {R S : α → β → Prop} {l : List α} {bs : List β}
    (h : ∀ a ∈ l, ∀ b, R a b ↔ S a b) : List.Forall₂ R l bs ↔ List.Forall₂ S l bs := by
  induction l generalizing bs with
  | nil => rw [List.forall₂_nil_left_iff, List.forall₂_nil_left_iff]
  | cons a l ih =>
    rw [List.forall₂_cons_left_iff, List.forall₂_cons_left_iff]
    refine exists_congr fun b => exists_congr fun bs' => ?_
    rw [h a (by simp) b, ih fun a' ha' => h a' (List.mem_cons_of_mem a ha')]

theorem forall₂_imp_of_mem {R S : α → β → Prop} {l : List α} {bs : List β}
    (h : ∀ a ∈ l, ∀ b, R a b → S a b) (hR : List.Forall₂ R l bs) : List.Forall₂ S l bs := by
  induction hR with
  | nil => exact .nil
  | @cons a b l bs hab _ ih =>
    exact .cons (h a (by simp) b hab) (ih fun a' ha' => h a' (List.mem_cons_of_mem a ha'))

theorem exists_of_mem_left {R : α → β → Prop} {l : List α} {bs : List β} (h : List.Forall₂ R l bs)
    {a : α} (ha : a ∈ l) : ∃ b ∈ bs, R a b := by
  induction h with
  | nil => simp at ha
  | @cons a' b l bs hab _ ih =>
    rcases List.mem_cons.mp ha with rfl | ha
    · exact ⟨b, by simp, hab⟩
    · obtain ⟨b', hb', hab'⟩ := ih ha
      exact ⟨b', List.mem_cons_of_mem b hb', hab'⟩

theorem exists_of_mem_right {R : α → β → Prop} {l : List α} {bs : List β} (h : List.Forall₂ R l bs)
    {b : β} (hb : b ∈ bs) : ∃ a ∈ l, R a b :=
  exists_of_mem_left h.flip hb

/-- The results of a list, when a function gives them. -/
theorem mapM_eq_ok_map {f : α → Except ε β} {g : α → β} {l : List α}
    (h : ∀ a ∈ l, f a = .ok (g a)) : l.mapM f = .ok (l.map g) := by
  rw [mapM_eq_ok, List.forall₂_map_right_iff, List.forall₂_same]
  exact h

/-- A list has results when all its elements do. -/
theorem exists_mapM_eq_ok {f : α → Except ε β} {l : List α} (h : ∀ a ∈ l, ∃ b, f a = .ok b) :
    ∃ bs, l.mapM f = .ok bs := by
  induction l with
  | nil => exact ⟨[], rfl⟩
  | cons a l ih =>
    rw [List.forall_mem_cons] at h
    obtain ⟨b, hb⟩ := h.1
    obtain ⟨bs, hbs⟩ := ih h.2
    rw [mapM_eq_ok] at hbs
    exact ⟨b :: bs, mapM_eq_ok.mpr (.cons hb hbs)⟩

theorem exists_of_mapM_eq_ok {f : α → Except ε β} {l : List α} {bs : List β}
    (h : l.mapM f = .ok bs) : ∀ a ∈ l, ∃ b, f a = .ok b := by
  rw [mapM_eq_ok] at h
  induction h with
  | nil => simp
  | cons hab _ ih => exact List.forall_mem_cons.mpr ⟨⟨_, hab⟩, ih⟩

/-- The results of a list are those of its elements. -/
theorem mem_of_mapM_eq_ok {f : α → Except ε β} {l : List α} {bs : List β} (h : l.mapM f = .ok bs)
    {b : β} : b ∈ bs ↔ ∃ a ∈ l, f a = .ok b := by
  have hf := mapM_eq_ok.mp h
  refine ⟨exists_of_mem_right hf, fun ⟨a, ha, hb⟩ => ?_⟩
  obtain ⟨b', hb', hab'⟩ := exists_of_mem_left hf ha
  rw [hb] at hab'
  rwa [Except.ok.inj hab']

/-- Each element next to its result. -/
theorem mem_zip_of_mapM_eq_ok {f : α → Except ε β} {l : List α} {bs : List β}
    (h : l.mapM f = .ok bs) {a : α} {b : β} : (a, b) ∈ l.zip bs ↔ a ∈ l ∧ f a = .ok b := by
  rw [mapM_eq_ok] at h
  induction h with
  | nil => simp
  | @cons a' b' l bs hab _ ih =>
    rw [List.zip_cons_cons, List.mem_cons, ih, List.mem_cons, Prod.mk.injEq]
    constructor
    · rintro (⟨rfl, rfl⟩ | ⟨ha, hb⟩)
      · exact ⟨.inl rfl, hab⟩
      · exact ⟨.inr ha, hb⟩
    · rintro ⟨rfl | ha, hb⟩
      · rw [hab] at hb
        exact .inl ⟨rfl, (Except.ok.inj hb).symm⟩
      · exact .inr ⟨ha, hb⟩

theorem forM_eq_ok {f : α → Except ε Unit} {l : List α} :
    l.forM f = .ok () ↔ ∀ a ∈ l, f a = .ok () := by
  induction l with
  | nil => simp [pure, Except.pure]
  | cons a l ih =>
    rw [List.forM_eq_forM, List.forM_cons, bind_eq_ok, List.forall_mem_cons]
    constructor
    · rintro ⟨⟨⟩, ha, hl⟩
      exact ⟨ha, ih.mp hl⟩
    · rintro ⟨ha, hl⟩
      exact ⟨⟨⟩, ha, ih.mpr hl⟩

theorem eq_map_of_mapM {f : α → Except ε β} {g : α → β} {l : List α} {bs : List β}
    (h : l.mapM f = .ok bs) (hg : ∀ a ∈ l, ∀ b, f a = .ok b → b = g a) :
    bs = l.map g ∧ ∀ a ∈ l, f a = .ok (g a) := by
  rw [mapM_eq_ok] at h
  induction h with
  | nil => simp
  | @cons a b l bs hab _ ih =>
    obtain rfl := hg a (by simp) b hab
    obtain ⟨rfl, hl⟩ := ih fun a' ha' => hg a' (List.mem_cons_of_mem a ha')
    exact ⟨rfl, List.forall_mem_cons.mpr ⟨hab, hl⟩⟩

theorem mapM_eq_some {f : α → Option β} {l : List α} {bs : List β} :
    l.mapM f = some bs ↔ List.Forall₂ (fun a b => f a = some b) l bs := by
  induction l generalizing bs with
  | nil => cases bs <;> simp
  | cons a l ih =>
    rw [List.mapM_cons, Option.bind_eq_bind, Option.bind_eq_some_iff, List.forall₂_cons_left_iff]
    constructor
    · rintro ⟨b, hb, h⟩
      obtain ⟨bs', hbs', h⟩ := Option.bind_eq_some_iff.mp h
      exact ⟨b, bs', hb, ih.mp hbs', (Option.some.inj h).symm⟩
    · rintro ⟨b, bs', hb, hbs', rfl⟩
      exact ⟨b, hb, Option.bind_eq_some_iff.mpr ⟨bs', ih.mpr hbs', rfl⟩⟩

theorem exists_of_mapM_eq_some {f : α → Option β} {l : List α} {bs : List β}
    (h : l.mapM f = some bs) {a : α} (ha : a ∈ l) : ∃ b ∈ bs, f a = some b :=
  exists_of_mem_left (mapM_eq_some.mp h) ha

/-- The results of a list, when none is missing. -/
theorem forall₂_eq_some {f : α → Option β} (d : β) {l : List α} {bs : List β} :
    List.Forall₂ (fun a b => f a = some b) l bs ↔
      (∀ a ∈ l, ∃ b, f a = some b) ∧ bs = l.map fun a => (f a).getD d := by
  induction l generalizing bs with
  | nil => simp
  | cons a l ih =>
    rw [List.forall₂_cons_left_iff, List.forall_mem_cons]
    constructor
    · rintro ⟨b, bs', hb, hbs', rfl⟩
      obtain ⟨hl, rfl⟩ := ih.mp hbs'
      exact ⟨⟨⟨b, hb⟩, hl⟩, by simp [hb]⟩
    · rintro ⟨⟨⟨b, hb⟩, hl⟩, rfl⟩
      exact ⟨b, _, hb, ih.mpr ⟨hl, rfl⟩, by simp [hb]⟩

/-- Results that are made from other results. -/
theorem forall₂_exists {γ : Type} {R : α → β → Prop} {P : β → Prop} {g : α → β → γ} {l : List α}
    {cs : List γ} : List.Forall₂ (fun a c => ∃ b, R a b ∧ P b ∧ c = g a b) l cs ↔
      ∃ bs, List.Forall₂ R l bs ∧ (∀ b ∈ bs, P b) ∧ cs = List.zipWith g l bs := by
  induction l generalizing cs with
  | nil => simp
  | cons a l ih =>
    rw [List.forall₂_cons_left_iff]
    constructor
    · rintro ⟨c, cs', ⟨b, hab, hb, rfl⟩, hcs', rfl⟩
      obtain ⟨bs, hbs, hP, rfl⟩ := ih.mp hcs'
      exact ⟨b :: bs, .cons hab hbs, List.forall_mem_cons.mpr ⟨hb, hP⟩, rfl⟩
    · rintro ⟨bs, hbs, hP, rfl⟩
      obtain ⟨b, bs', hab, hbs', rfl⟩ := List.forall₂_cons_left_iff.mp hbs
      rw [List.forall_mem_cons] at hP
      exact ⟨g a b, _, ⟨b, hab, hP.1, rfl⟩, ih.mpr ⟨bs', hbs', hP.2, rfl⟩, rfl⟩

/-! ### Checkers -/

/-- **A checker accepts** if and only if `C` holds, and its state then satisfies `Q`. -/
structure Accepts (Good : σ → Prop) (x : Except ε σ) (C : Prop) (Q : σ → Prop) : Prop where
  sound : ∀ s, x = .ok s → Good s → C ∧ Q s
  complete : C → ∃ s, x = .ok s ∧ Good s

namespace Accepts

variable {Good : σ → Prop} {x : Except ε σ} {C D : Prop} {Q R : σ → Prop}

theorem congr (h : Accepts Good x C Q) (hCD : C ↔ D) (hQR : ∀ s, Q s → R s) :
    Accepts Good x D R :=
  ⟨fun s hx hs => (h.sound s hx hs).imp hCD.mp (hQR s), fun hD => h.complete (hCD.mpr hD)⟩

/-- A checker that stops. -/
theorem error (e : ε) (hC : ¬C) : Accepts Good (.error e) C Q :=
  ⟨fun _ h => (by cases h), fun h => absurd h hC⟩

/-- A checker that only looks at its state. -/
theorem ok {s : σ} (hC : Good s → C) (hQ : Good s → Q s) (hgood : C → Good s) :
    Accepts Good (.ok s : Except ε σ) C Q := by
  refine ⟨fun s' h hs => ?_, fun h => ⟨s, rfl, hgood h⟩⟩
  obtain rfl := Except.ok.inj h
  exact ⟨hC hs, hQ hs⟩

/-- **Two checks in a row.** -/
theorem bind {f : σ → Except ε σ} (hx : Accepts Good x C Q)
    (hf : ∀ s, Q s → Accepts Good (f s) D R)
    (hgood : ∀ s s', f s = .ok s' → Good s' → Good s) : Accepts Good (x >>= f) (C ∧ D) R := by
  constructor
  · intro s' h hs'
    obtain ⟨s, hs, h⟩ := bind_eq_ok.mp h
    obtain ⟨hC, hQ⟩ := hx.sound s hs (hgood s s' h hs')
    exact ((hf s hQ).sound s' h hs').imp_left fun hD => ⟨hC, hD⟩
  · rintro ⟨hC, hD⟩
    obtain ⟨s, hs, hgs⟩ := hx.complete hC
    obtain ⟨s', h, hs'⟩ := (hf s (hx.sound s hs hgs).2).complete hD
    exact ⟨s', bind_eq_ok.mpr ⟨s, hs, h⟩, hs'⟩

/-- A state that is good in the end was good before. -/
theorem good_of_foldlM {f : σ → α → Except ε σ}
    (hgood : ∀ a s s', f s a = .ok s' → Good s' → Good s) {l : List α} {s s' : σ}
    (h : l.foldlM f s = .ok s') (hs' : Good s') : Good s := by
  induction l generalizing s with
  | nil =>
    rw [Except.ok.inj h]
    exact hs'
  | cons a l ih =>
    obtain ⟨s₁, h₁, h⟩ := bind_eq_ok.mp h
    exact hgood a s s₁ h₁ (ih h)

/-- **A check of every element of a list**, with an invariant over the elements done. -/
theorem foldlM {f : σ → α → Except ε σ} {C : α → Prop} (I : List α → σ → Prop)
    (hgood : ∀ a s s', f s a = .ok s' → Good s' → Good s) {l : List α} {done : List α} {s : σ}
    (hI : I done s) (hs : Good s)
    (hstep : ∀ pre a post, l = pre ++ a :: post → ∀ s, I (done ++ pre) s → Good s →
      Accepts Good (f s a) (C a) (I (done ++ pre ++ [a]))) :
    Accepts Good (l.foldlM f s) (∀ a ∈ l, C a) (I (done ++ l)) := by
  induction l generalizing done s with
  | nil => exact .ok (fun _ => by simp) (fun _ => by simpa using hI) fun _ => hs
  | cons a l ih =>
    rw [List.foldlM_cons]
    have hfirst := hstep [] a l rfl s (by simpa using hI) hs
    rw [List.append_nil] at hfirst
    -- The rest of the list is checked from the state after its first element.
    have hrest : ∀ s', I (done ++ [a]) s' → Good s' →
        Accepts Good (l.foldlM f s') (∀ b ∈ l, C b) (I (done ++ [a] ++ l)) := by
      intro s' hI' hs'
      refine ih hI' hs' fun pre b post hl s hs => ?_
      have := hstep (a :: pre) b post (by rw [hl, List.cons_append]) s
      simp only [List.append_assoc, List.singleton_append] at this hs ⊢
      exact this hs
    constructor
    · intro s' h hs'
      obtain ⟨s₁, h₁, h⟩ := bind_eq_ok.mp h
      have hs₁ := good_of_foldlM hgood h hs'
      obtain ⟨hC, hI₁⟩ := hfirst.sound s₁ h₁ hs₁
      obtain ⟨hCl, hIl⟩ := (hrest s₁ hI₁ hs₁).sound s' h hs'
      refine ⟨fun b hb => ?_, by simpa using hIl⟩
      rcases List.mem_cons.mp hb with rfl | hb
      · exact hC
      · exact hCl b hb
    · intro hC
      obtain ⟨s₁, h₁, hs₁⟩ := hfirst.complete (hC a (by simp))
      obtain ⟨s', h, hs'⟩ := (hrest s₁ (hfirst.sound s₁ h₁ hs₁).2 hs₁).complete
        fun b hb => hC b (List.mem_cons_of_mem a hb)
      exact ⟨s', bind_eq_ok.mpr ⟨s₁, h₁, h⟩, hs'⟩

end Accepts

end MonadServices
