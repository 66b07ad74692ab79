import Mathlib.Logic.Function.Basic
import Mathlib.Tactic

/-!
# Stores that lag behind or run ahead of a frontier

A **view** says what a store holds once everything below a frontier `n` is in it:
`view n k` is the value under the key `k`. A writer that moves the frontier
forward writes many keys one after the other, and may be stopped in between;
then some keys hold the value of the new frontier and others that of the old one.

`MonadServices.Between view t lo hi` is the invariant of such a store: **every key
holds its value at some frontier between `lo` and `hi`**, its own one for each key.
It is kept by every write of a value at a frontier in that range
(`MonadServices.Between.applyAll`), it moves forward when the keys that change are
all written (`MonadServices.Between.advance`), and when the range is a single point
the store is the view (`MonadServices.Between.eq_view`).
-/

namespace MonadServices

variable {K : Type} {V : K → Type} [DecidableEq K]

/-- A write: a key and the value to put under it. -/
abbrev KeyWrite (V : K → Type) := Σ k : K, V k

/-- Puts one value. -/
def applyWrite (t : ∀ k, V k) (w : KeyWrite V) : ∀ k, V k := Function.update t w.1 w.2

/-- Puts the values of a batch, in order. -/
def applyAll (t : ∀ k, V k) (ws : List (KeyWrite V)) : ∀ k, V k := ws.foldl applyWrite t

theorem applyAll_cons (t : ∀ k, V k) (w : KeyWrite V) (ws : List (KeyWrite V)) :
    applyAll t (w :: ws) = applyAll (applyWrite t w) ws := rfl

theorem applyWrite_self (t : ∀ k, V k) (w : KeyWrite V) : applyWrite t w w.1 = w.2 := by
  simp [applyWrite]

theorem applyWrite_of_ne (t : ∀ k, V k) (w : KeyWrite V) {k : K} (h : k ≠ w.1) :
    applyWrite t w k = t k := by
  simp [applyWrite, h]

/-- A key that a batch does not write keeps its value. -/
theorem applyAll_of_not_mem {t : ∀ k, V k} {ws : List (KeyWrite V)} {k : K}
    (h : ∀ w ∈ ws, w.1 ≠ k) : applyAll t ws k = t k := by
  induction ws generalizing t with
  | nil => rfl
  | cons w ws ih =>
    rw [applyAll_cons, ih fun w' hw' => h w' (List.mem_cons_of_mem w hw')]
    exact applyWrite_of_ne t w (h w (by simp)).symm

/-- When all the writes of a batch to a key agree, the key holds their value. -/
theorem applyAll_of_mem {t : ∀ k, V k} {ws : List (KeyWrite V)} {u : ∀ k, V k}
    (hu : ∀ w ∈ ws, w.2 = u w.1) {k : K} (h : ∃ w ∈ ws, w.1 = k) : applyAll t ws k = u k := by
  induction ws generalizing t with
  | nil => simp at h
  | cons w ws ih =>
    rw [applyAll_cons]
    by_cases hk : ∃ w' ∈ ws, w'.1 = k
    · exact ih (fun w' hw' => hu w' (List.mem_cons_of_mem w hw')) hk
    · have hwk : w.1 = k := by
        obtain ⟨w', hw', hk'⟩ := h
        rcases List.mem_cons.mp hw' with rfl | hmem
        · exact hk'
        · exact absurd ⟨w', hmem, hk'⟩ hk
      rw [applyAll_of_not_mem fun w' hw' hcon => hk ⟨w', hw', hcon⟩]
      subst hwk
      rw [applyWrite_self, hu w (by simp)]

/-- A batch that writes the values of `u` leaves each key as it was or at `u`. -/
theorem applyAll_cases {t : ∀ k, V k} {ws : List (KeyWrite V)} {u : ∀ k, V k}
    (hu : ∀ w ∈ ws, w.2 = u w.1) (k : K) : applyAll t ws k = t k ∨ applyAll t ws k = u k := by
  by_cases hk : ∃ w ∈ ws, w.1 = k
  · exact Or.inr (applyAll_of_mem hu hk)
  · exact Or.inl (applyAll_of_not_mem fun w hw hcon => hk ⟨w, hw, hcon⟩)

/-! ### The invariant -/

variable (view : ℕ → ∀ k, V k)

/-- **Every key holds its value at some frontier between `lo` and `hi`.** -/
def Between (t : ∀ k, V k) (lo hi : ℕ) : Prop :=
  ∀ k, ∃ j, lo ≤ j ∧ j ≤ hi ∧ t k = view j k

variable {view} {t : ∀ k, V k} {lo hi n : ℕ}

omit [DecidableEq K] in
theorem between_view (n : ℕ) : Between view (view n) n n := fun _ => ⟨n, le_rfl, le_rfl, rfl⟩

omit [DecidableEq K] in
theorem Between.mono (h : Between view t lo hi) {lo' hi' : ℕ} (hlo : lo' ≤ lo) (hhi : hi ≤ hi') :
    Between view t lo' hi' := fun k => by
  obtain ⟨j, h1, h2, h3⟩ := h k
  exact ⟨j, hlo.trans h1, h2.trans hhi, h3⟩

omit [DecidableEq K] in
/-- When the range is a single frontier, the store is its view. -/
theorem Between.eq_view (h : Between view t n n) : t = view n := by
  funext k
  obtain ⟨j, h1, h2, h3⟩ := h k
  rw [h3, le_antisymm h2 h1]

/-- **Writing values of a frontier in the range keeps the invariant.** -/
theorem Between.applyAll (h : Between view t lo hi) {ws : List (KeyWrite V)}
    (hws : ∀ w ∈ ws, w.2 = view n w.1) (hlo : lo ≤ n) (hhi : n ≤ hi) :
    Between view (MonadServices.applyAll t ws) lo hi := fun k => by
  rcases applyAll_cases (t := t) hws k with hk | hk
  · obtain ⟨j, h1, h2, h3⟩ := h k
    exact ⟨j, h1, h2, hk.trans h3⟩
  · exact ⟨n, hlo, hhi, hk⟩

omit [DecidableEq K] in
/-- **The frontier moves forward** once every key either holds its value at the new
frontier or does not change on the way there. -/
theorem Between.advance (h : Between view t lo hi) (hhi : n ≤ hi)
    (hk : ∀ k, t k = view n k ∨ ∀ j, lo ≤ j → j ≤ n → view j k = view n k) :
    Between view t n hi := fun k => by
  rcases hk k with hk | hk
  · exact ⟨n, le_rfl, hhi, hk⟩
  · obtain ⟨j, h1, h2, h3⟩ := h k
    rcases le_total n j with hj | hj
    · exact ⟨j, hj, h2, h3⟩
    · exact ⟨n, le_rfl, hhi, h3.trans (hk j h1 hj)⟩

end MonadServices
