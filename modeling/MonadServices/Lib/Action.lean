import Mathlib.Data.List.Forall2

/-!
# Programs that may fail

A program reads and changes a state, and ends with a value or an error; what it did to the state
before an error stays. A **triple** (`MonadServices.Action.Triple`) says what holds after the
program from a state in which something holds: one thing if it returns a value, another if it
fails. A triple in which nothing holds after an error says that the program does not fail.
-/

namespace MonadServices

/-- Programs over the states `σ` that may end with an error. -/
abbrev Action (ε σ : Type) := ExceptT ε (StateM σ)

namespace Action

variable {ε σ α β : Type}

/-- How a program ends, and the state that it leaves. -/
def exec (x : Action ε σ α) (s : σ) : Except ε α × σ := (ExceptT.run x).run s

/-- **What holds after a program**: `Q` if it returns a value, `E` if it fails. -/
def Triple (P : σ → Prop) (x : Action ε σ α) (Q : α → σ → Prop) (E : σ → Prop) : Prop :=
  ∀ s, P s → (∀ a s', x.exec s = (.ok a, s') → Q a s') ∧
    ∀ e s', x.exec s = (.error e, s') → E s'

/-! ### The steps of a program -/

@[simp] theorem exec_pure (a : α) (s : σ) : (pure a : Action ε σ α).exec s = (.ok a, s) := rfl

@[simp] theorem exec_throw (e : ε) (s : σ) :
    (throw e : Action ε σ α).exec s = (.error e, s) := rfl

@[simp] theorem exec_get (s : σ) : (get : Action ε σ σ).exec s = (.ok s, s) := rfl

@[simp] theorem exec_modify (f : σ → σ) (s : σ) :
    (modify f : Action ε σ PUnit).exec s = (.ok ⟨⟩, f s) := rfl

theorem exec_bind (x : Action ε σ α) (f : α → Action ε σ β) (s : σ) :
    (x >>= f).exec s =
      match x.exec s with
      | (.ok a, s') => (f a).exec s'
      | (.error e, s') => (.error e, s') := by
  change (ExceptT.bindCont f (x.exec s).1).run (x.exec s).2 = _
  rcases x.exec s with ⟨_ | a, s'⟩ <;> rfl

theorem exec_bind_of_ok {x : Action ε σ α} {f : α → Action ε σ β} {s s' : σ} {a : α}
    (h : x.exec s = (.ok a, s')) : (x >>= f).exec s = (f a).exec s' := by
  rw [exec_bind, h]

/-- The parts of a program that returns a value have returned values. -/
theorem exec_bind_eq_ok {x : Action ε σ α} {f : α → Action ε σ β} {s s'' : σ} {b : β}
    (h : (x >>= f).exec s = (.ok b, s'')) :
    ∃ a s', x.exec s = (.ok a, s') ∧ (f a).exec s' = (.ok b, s'') := by
  rw [exec_bind] at h
  rcases hx : x.exec s with ⟨e | a, s'⟩ <;> rw [hx] at h
  · cases h
  · exact ⟨a, s', rfl, h⟩

/-- **Results that are put together as they come** are those of the whole list. -/
theorem exec_foldlM {γ : Type} {f : α → Action ε σ β} {g : γ → β → γ} {l : List α} {bs : List β}
    {s s' : σ} (h : (l.mapM f).exec s = (.ok bs, s')) (c : γ) :
    (l.foldlM (fun c a => do return g c (← f a)) c).exec s = (.ok (bs.foldl g c), s') := by
  induction l generalizing bs s c with
  | nil =>
    obtain ⟨h₁, rfl⟩ := Prod.mk.inj h
    obtain rfl := Except.ok.inj h₁
    rfl
  | cons a l ih =>
    rw [List.mapM_cons] at h
    obtain ⟨b, s₁, hb, h⟩ := exec_bind_eq_ok h
    obtain ⟨bs', s₂, hbs, h⟩ := exec_bind_eq_ok h
    obtain ⟨h₁, rfl⟩ := Prod.mk.inj h
    obtain rfl := Except.ok.inj h₁
    rw [List.foldlM_cons, bind_assoc, exec_bind_of_ok hb]
    exact ih hbs (g c b)

namespace Triple

variable {P P' : σ → Prop} {x : Action ε σ α} {Q Q' : α → σ → Prop} {E E' : σ → Prop}

/-- What holds of the state in the end, if it holds either way. -/
theorem state {s : σ} (h : Triple P x (fun _ => E) E) (hs : P s) : E (x.exec s).2 := by
  rcases hx : x.exec s with ⟨e | a, s'⟩
  · exact (h s hs).2 e s' hx
  · exact (h s hs).1 a s' hx

/-- **A program without errors returns.** -/
theorem returns {s : σ} (h : Triple P x Q fun _ => False) (hs : P s) :
    ∃ a s', x.exec s = (.ok a, s') ∧ Q a s' := by
  rcases hx : x.exec s with ⟨_ | a, s'⟩
  · exact ((h s hs).2 _ s' hx).elim
  · exact ⟨a, s', rfl, (h s hs).1 a s' hx⟩

theorem weaken (h : Triple P x Q E) (hP : ∀ s, P' s → P s) (hQ : ∀ a s, Q a s → Q' a s)
    (hE : ∀ s, E s → E' s) : Triple P' x Q' E' := fun s hs =>
  ⟨fun a s' hx => hQ a s' ((h s (hP s hs)).1 a s' hx),
    fun e s' hx => hE s' ((h s (hP s hs)).2 e s' hx)⟩

theorem pure {a : α} (h : ∀ s, P s → Q a s) : Triple P (pure a : Action ε σ α) Q E := by
  intro s hs
  simp only [exec_pure, Prod.mk.injEq, reduceCtorEq, false_and, IsEmpty.forall_iff, implies_true,
    and_true]
  rintro _ _ ⟨h₁, rfl⟩
  exact Except.ok.inj h₁ ▸ h s hs

theorem throw {e : ε} (h : ∀ s, P s → E s) : Triple P (throw e : Action ε σ α) Q E := by
  intro s hs
  simp only [exec_throw, Prod.mk.injEq, reduceCtorEq, false_and, IsEmpty.forall_iff, implies_true,
    true_and]
  rintro _ _ ⟨-, rfl⟩
  exact h s hs

theorem get {Q : σ → σ → Prop} (h : ∀ s, P s → Q s s) :
    Triple P (get : Action ε σ σ) Q E := by
  intro s hs
  simp only [exec_get, Prod.mk.injEq, reduceCtorEq, false_and, IsEmpty.forall_iff, implies_true,
    and_true]
  rintro _ _ ⟨h₁, rfl⟩
  exact Except.ok.inj h₁ ▸ h s hs

theorem modify {f : σ → σ} {Q : PUnit → σ → Prop} (h : ∀ s, P s → Q ⟨⟩ (f s)) :
    Triple P (modify f : Action ε σ PUnit) Q E := by
  intro s hs
  simp only [exec_modify, Prod.mk.injEq, reduceCtorEq, false_and, IsEmpty.forall_iff,
    implies_true, and_true]
  rintro _ _ ⟨-, rfl⟩
  exact h s hs

/-- What is known before a program whatever the state is. -/
theorem assume {p : Prop} (h : p → Triple P x Q E) : Triple (fun s => P s ∧ p) x Q E :=
  fun s hs => h hs.2 s hs.1

/-- **One program after another.** -/
theorem bind {R : β → σ → Prop} {f : α → Action ε σ β} (hx : Triple P x Q E)
    (hf : ∀ a, Triple (Q a) (f a) R E) : Triple P (x >>= f) R E := by
  intro s hs
  obtain ⟨hok, herror⟩ := hx s hs
  rw [exec_bind]
  rcases h : x.exec s with ⟨_ | a, s'⟩
  · refine ⟨fun b s'' h' => (by cases h'), fun e' s'' h' => ?_⟩
    obtain ⟨-, rfl⟩ := Prod.mk.inj h'
    exact herror _ s' h
  · exact hf a s' (hok a s' h)

/-- **A program for every element of a list**, with an invariant over the elements done. -/
theorem forM {I : List α → σ → Prop} {f : α → Action ε σ PUnit} {l : List α}
    (h : ∀ pre a post, l = pre ++ a :: post →
      Triple (I pre) (f a) (fun _ => I (pre ++ [a])) E) :
    Triple (I []) (l.forM f) (fun _ => I l) E := by
  -- The elements that are done are in front.
  have hrest : ∀ post pre, l = pre ++ post →
      Triple (I pre) (post.forM f) (fun _ => I l) E := by
    intro post
    induction post with
    | nil =>
      rintro pre rfl
      rw [List.append_nil]
      exact Triple.pure fun _ h => h
    | cons a post ih =>
      intro pre hl
      exact (h pre a post hl).bind fun _ => ih (pre ++ [a]) (by rw [hl, List.append_cons])
  exact hrest l [] rfl

/-- A program for every element of a list that keeps what is known, and its results. -/
theorem mapM {R : α → β → Prop} {f : α → Action ε σ β} {l : List α}
    (h : ∀ a ∈ l, Triple P (f a) (fun b s => P s ∧ R a b) E) :
    Triple P (l.mapM f) (fun bs s => P s ∧ List.Forall₂ R l bs) E := by
  induction l with
  | nil => exact Triple.pure fun s hs => ⟨hs, .nil⟩
  | cons a l ih =>
    rw [List.forall_mem_cons] at h
    rw [List.mapM_cons]
    exact h.1.bind fun b => assume fun hab => (ih h.2).bind fun bs =>
      Triple.pure fun s hs => ⟨hs.1, .cons hab hs.2⟩

end Triple

end Action

end MonadServices
