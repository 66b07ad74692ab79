import Mathlib.Data.List.Basic
import Mathlib.Data.List.Nodup
import Mathlib.Tactic

/-!
# Maps filled entry by entry

A map is a list of pairs of a key and a value. `MonadServices.entry` is the usual
“take the entry of this key, a default one if it is missing, and change it”, and
`MonadServices.collect` runs it over a list: each element goes to the entry of its
key. What comes out is described by two facts: looking a key up gives the elements
of that key, folded in order (`MonadServices.lookupKey_collect`), and every key
occurs once (`MonadServices.nodup_collect`), so that an entry of the map is the same
thing as a successful lookup (`MonadServices.mem_collect`).
-/

namespace MonadServices

variable {K V α : Type} [DecidableEq K]

/-- The value under a key. -/
def lookupKey (k : K) : List (K × V) → Option V
  | [] => none
  | (k', v) :: m => if k' = k then some v else lookupKey k m

/-- Changes the entry of a key, which is `d` if it is missing. -/
def entry (k : K) (f : V → V) (d : V) : List (K × V) → List (K × V)
  | [] => [(k, f d)]
  | (k', v) :: m => if k' = k then (k', f v) :: m else (k', v) :: entry k f d m

theorem lookupKey_entry (k k' : K) (f : V → V) (d : V) (m : List (K × V)) :
    lookupKey k' (entry k f d m) =
      if k' = k then some (f ((lookupKey k m).getD d)) else lookupKey k' m := by
  induction m with
  | nil =>
    by_cases h : k' = k
    · simp [entry, lookupKey, h]
    · simp [entry, lookupKey, h, Ne.symm h]
  | cons p m ih =>
    obtain ⟨k₀, v⟩ := p
    by_cases h₀ : k₀ = k
    · subst h₀
      by_cases h : k' = k₀
      · simp [entry, lookupKey, h]
      · simp [entry, lookupKey, h, Ne.symm h]
    · by_cases h : k' = k
      · subst h
        simp only [entry, if_neg h₀, lookupKey, ih, if_true]
      · by_cases h₁ : k₀ = k'
        · simp [entry, lookupKey, h₁, h]
        · simp only [entry, if_neg h₀, lookupKey, if_neg h₁, ih, if_neg h]

theorem lookupKey_concat (k k' : K) (v : V) (m : List (K × V)) :
    lookupKey k' (m ++ [(k, v)]) = (lookupKey k' m).or (if k = k' then some v else none) := by
  induction m with
  | nil => simp [lookupKey]
  | cons p m ih =>
    obtain ⟨k₀, v₀⟩ := p
    by_cases h₀ : k₀ = k'
    · simp [lookupKey, h₀]
    · simp [lookupKey, h₀, ih]

theorem lookupKey_map {f : K → V} {ks : List K} {k : K} (h : k ∈ ks) :
    lookupKey k (ks.map fun k => (k, f k)) = some (f k) := by
  induction ks with
  | nil => simp at h
  | cons k₀ ks ih =>
    rw [List.map_cons, lookupKey]
    split_ifs with h₀
    · rw [h₀]
    · exact ih ((List.mem_cons.mp h).resolve_left (Ne.symm h₀))

theorem mem_keys_entry {k k' : K} {f : V → V} {d : V} {m : List (K × V)} :
    k' ∈ (entry k f d m).map Prod.fst ↔ k' = k ∨ k' ∈ m.map Prod.fst := by
  induction m with
  | nil => simp [entry]
  | cons p m ih =>
    obtain ⟨k₀, v⟩ := p
    by_cases h₀ : k₀ = k
    · subst h₀
      simp [entry]
    · simp only [entry, if_neg h₀, List.map_cons, List.mem_cons, ih]
      tauto

theorem nodup_entry {k : K} {f : V → V} {d : V} {m : List (K × V)}
    (h : (m.map Prod.fst).Nodup) : ((entry k f d m).map Prod.fst).Nodup := by
  induction m with
  | nil => simp [entry]
  | cons p m ih =>
    obtain ⟨k₀, v⟩ := p
    rw [List.map_cons, List.nodup_cons] at h
    by_cases h₀ : k₀ = k
    · subst h₀
      simpa [entry] using h
    · simp only [entry, if_neg h₀, List.map_cons, List.nodup_cons, mem_keys_entry]
      refine ⟨?_, ih h.2⟩
      rintro (hk | hm)
      · exact h₀ hk
      · exact h.1 hm

/-- With every key at most once, an entry is a successful lookup. -/
theorem mem_iff_lookupKey {m : List (K × V)} (h : (m.map Prod.fst).Nodup) {k : K} {v : V} :
    (k, v) ∈ m ↔ lookupKey k m = some v := by
  induction m with
  | nil => simp [lookupKey]
  | cons p m ih =>
    obtain ⟨k₀, v₀⟩ := p
    rw [List.map_cons, List.nodup_cons] at h
    by_cases h₀ : k₀ = k
    · subst h₀
      have hnot : (k₀, v) ∉ m := fun hm => h.1 (List.mem_map.mpr ⟨_, hm, rfl⟩)
      simp [lookupKey, hnot, eq_comm]
    · simp only [lookupKey, if_neg h₀, List.mem_cons, ih h.2, Prod.mk.injEq]
      constructor
      · rintro (⟨hk, -⟩ | hm)
        · exact absurd hk.symm h₀
        · exact hm
      · exact Or.inr

/-- **Fills a map from a list**: each element is added to the entry of its key. -/
def collect (key : α → K) (add : V → α → V) (d : V) (l : List α) : List (K × V) :=
  l.foldl (fun m x => entry (key x) (fun v => add v x) d m) []

variable {key : α → K} {add : V → α → V} {d : V}

theorem collect_concat (l : List α) (x : α) :
    collect key add d (l ++ [x]) =
      entry (key x) (fun v => add v x) d (collect key add d l) := by
  simp [collect]

theorem nodup_collect (l : List α) : ((collect key add d l).map Prod.fst).Nodup := by
  induction l using List.reverseRecOn with
  | nil => simp [collect]
  | append_singleton l x ih =>
    rw [collect_concat]
    exact nodup_entry ih

/-- **A lookup gives the elements of the key, folded in order.** -/
theorem lookupKey_collect (l : List α) (k : K) :
    lookupKey k (collect key add d l) =
      if ∃ x ∈ l, key x = k then some ((l.filter fun x => key x = k).foldl add d) else none := by
  induction l using List.reverseRecOn with
  | nil => simp [collect, lookupKey]
  | append_singleton l x ih =>
    rw [collect_concat, lookupKey_entry]
    by_cases hx : k = key x
    · subst hx
      have hex : ∃ y ∈ l ++ [x], key y = key x := ⟨x, by simp, rfl⟩
      rw [if_pos rfl, if_pos hex, ih, List.filter_append]
      by_cases hl : ∃ y ∈ l, key y = key x
      · simp [if_pos hl]
      · have hnil : (l.filter fun y => key y = key x) = [] := by
          rw [List.filter_eq_nil_iff]
          intro y hy
          simpa using fun hcon => hl ⟨y, hy, hcon⟩
        simp [if_neg hl, hnil]
    · rw [if_neg hx, ih, List.filter_append]
      have hone : ([x].filter fun y => key y = k) = [] := by simp [Ne.symm hx]
      have hiff : (∃ y ∈ l ++ [x], key y = k) ↔ ∃ y ∈ l, key y = k := by
        constructor
        · rintro ⟨y, hy, hk⟩
          rcases List.mem_append.mp hy with hy | hy
          · exact ⟨y, hy, hk⟩
          · rw [List.mem_singleton] at hy
            subst hy
            exact absurd hk.symm hx
        · rintro ⟨y, hy, hk⟩
          exact ⟨y, by simp [hy], hk⟩
      rw [hone, List.append_nil]
      exact if_congr hiff.symm rfl rfl

/-- **The entries of a filled map.** -/
theorem mem_collect {l : List α} {k : K} {v : V} :
    (k, v) ∈ collect key add d l ↔
      (∃ x ∈ l, key x = k) ∧ v = (l.filter fun x => key x = k).foldl add d := by
  rw [mem_iff_lookupKey (nodup_collect l), lookupKey_collect]
  split
  · rename_i h
    rw [Option.some.injEq, and_iff_right h]
    exact eq_comm
  · rename_i h
    simp [h]

theorem keys_collect_concat (l : List α) (x : α) :
    (collect key add d (l ++ [x])).map Prod.fst =
      if key x ∈ (collect key add d l).map Prod.fst then (collect key add d l).map Prod.fst
      else (collect key add d l).map Prod.fst ++ [key x] := by
  rw [collect_concat]
  generalize collect key add d l = m
  induction m with
  | nil => simp [entry]
  | cons p m ih =>
    obtain ⟨k, v⟩ := p
    by_cases hk : k = key x
    · simp [entry, hk]
    · simp only [entry, if_neg hk, List.map_cons, ih, List.mem_cons, Ne.symm hk, false_or]
      split_ifs <;> simp

/-! ### Groups in order -/

section Sorted

variable {V α : Type} {key : α → ℕ} {add : V → α → V} {d : V}

/-- Keys that come in order are in order in the map. -/
theorem keys_collect_sorted {l : List α} (h : l.Pairwise fun a b => key a ≤ key b) :
    ((collect key add d l).map Prod.fst).Pairwise (· < ·) := by
  induction l using List.reverseRecOn with
  | nil => simp [collect]
  | append_singleton l x ih =>
    rw [List.pairwise_append] at h
    obtain ⟨hl, -, hx⟩ := h
    rw [keys_collect_concat]
    split_ifs with hmem
    · exact ih hl
    · rw [List.pairwise_append]
      refine ⟨ih hl, List.pairwise_singleton _ _, ?_⟩
      intro k hk k' hk'
      rw [List.mem_singleton] at hk'
      subst hk'
      obtain ⟨⟨k, v⟩, hp, rfl⟩ := List.mem_map.mp hk
      obtain ⟨⟨y, hy, rfl⟩, -⟩ := mem_collect.mp hp
      exact lt_of_le_of_ne (hx y hy x (by simp)) fun hcon => hmem (hcon ▸ hk)

theorem filter_append_filter {l : List α} {k : ℕ} (h : l.Pairwise fun a b => key a ≤ key b)
    (hk : ∀ x ∈ l, k ≤ key x) :
    (l.filter fun x => key x = k) ++ (l.filter fun x => key x ≠ k) = l := by
  induction l with
  | nil => rfl
  | cons x l ih =>
    rw [List.pairwise_cons] at h
    by_cases hx : key x = k
    · simp only [List.filter_cons, hx, decide_true, if_true, List.cons_append, ne_eq,
        not_true_eq_false, decide_false, Bool.false_eq_true, if_false]
      congr 1
      exact ih h.2 fun y hy => hk y (List.mem_cons_of_mem x hy)
    · have hlt : k < key x := lt_of_le_of_ne (hk x (by simp)) (Ne.symm hx)
      have h1 : (x :: l).filter (fun y => key y = k) = [] :=
        List.filter_eq_nil_iff.mpr fun y hy => by
          have : key x ≤ key y := by
            rcases List.mem_cons.mp hy with rfl | hy
            · exact le_rfl
            · exact h.1 y hy
          simp only [decide_eq_true_eq]
          omega
      have h2 : (x :: l).filter (fun y => key y ≠ k) = x :: l :=
        List.filter_eq_self.mpr fun y hy => by
          have : key x ≤ key y := by
            rcases List.mem_cons.mp hy with rfl | hy
            · exact le_rfl
            · exact h.1 y hy
          simp only [decide_eq_true_eq]
          omega
      rw [h1, h2, List.nil_append]

/-- **Elements that come in the order of their keys** are the groups of their keys, one
after the other. -/
theorem flatMap_filter_eq {ks : List ℕ} {l : List α} (hks : ks.Pairwise (· < ·))
    (h : l.Pairwise fun a b => key a ≤ key b) (hmem : ∀ x ∈ l, key x ∈ ks) :
    (ks.flatMap fun k => l.filter fun x => key x = k) = l := by
  induction ks generalizing l with
  | nil =>
    cases l with
    | nil => rfl
    | cons x l => exact absurd (hmem x (by simp)) (by simp)
  | cons k ks ih =>
    rw [List.pairwise_cons] at hks
    rw [List.flatMap_cons]
    have hrest : (ks.flatMap fun k' => l.filter fun x => key x = k') =
        l.filter fun x => key x ≠ k := by
      rw [← ih hks.2 (h.filter _) fun x hx => ?_]
      · refine List.flatMap_congr fun k' hk' => ?_
        rw [List.filter_filter]
        refine List.filter_congr fun x _ => ?_
        have := hks.1 k' hk'
        by_cases hx : key x = k'
        · simp [hx]
          omega
        · simp [hx]
      · rw [List.mem_filter] at hx
        have hxk : key x ≠ k := by simpa using hx.2
        exact (List.mem_cons.mp (hmem x hx.1)).resolve_left hxk
    rw [hrest]
    refine filter_append_filter h fun x hx => ?_
    rcases List.mem_cons.mp (hmem x hx) with hk | hk
    · exact hk.ge
    · exact (hks.1 _ hk).le

end Sorted

end MonadServices
