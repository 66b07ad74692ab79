import Mathlib.Tactic

/-!
# Comparisons, and maps that rely on them

A comparison tells of two keys which one is less, or that they are equal. It need not be an order
on all keys: `MonadServices.IsOrderOn` says that it is one on a set of keys, and that equal keys
are the same. Such orders are passed on to pairs and to lists, which are compared by their first
difference.

A map keeps its entries in the order that a comparison gives to their keys, and looks for a key
from the least one on, until a key is not less. **What it then finds is what was put last under
the key** (`MonadServices.OrdMap.find_ofPuts`), provided that the comparison is an order on
the keys.
-/

namespace MonadServices

variable {α β V : Type}

/-- **A comparison is a linear order** on the elements of `s`. -/
structure IsOrderOn (s : Set α) (cmp : α → α → Ordering) : Prop where
  eq_iff : ∀ a ∈ s, ∀ b ∈ s, (cmp a b = .eq ↔ a = b)
  swap : ∀ a ∈ s, ∀ b ∈ s, cmp b a = (cmp a b).swap
  trans : ∀ a ∈ s, ∀ b ∈ s, ∀ c ∈ s, cmp a b = .lt → cmp b c = .lt → cmp a c = .lt

/-- Compares pairs by the first components, and those where these are equal by the second ones. -/
def comparePair (cmp : α → α → Ordering) (cmp' : β → β → Ordering) (a b : α × β) : Ordering :=
  (cmp a.1 b.1).then (cmp' a.2 b.2)

namespace IsOrderOn

variable {s : Set α} {t : Set β} {cmp : α → α → Ordering} {cmp' : β → β → Ordering}

/-- The order of a type. -/
theorem compare [Ord α] [Std.TransOrd α] [Std.LawfulEqOrd α] :
    IsOrderOn Set.univ (Ord.compare : α → α → Ordering) where
  eq_iff := fun _ _ _ _ => Std.LawfulEqOrd.compare_eq_iff_eq
  swap := fun _ _ _ _ => Std.OrientedOrd.eq_swap
  trans := fun _ _ _ _ _ _ hab hbc => Std.TransCmp.lt_trans hab hbc

theorem mono (h : IsOrderOn s cmp) {s' : Set α} (hs : s' ⊆ s) : IsOrderOn s' cmp where
  eq_iff := fun a ha b hb => h.eq_iff a (hs ha) b (hs hb)
  swap := fun a ha b hb => h.swap a (hs ha) b (hs hb)
  trans := fun a ha b hb c hc => h.trans a (hs ha) b (hs hb) c (hs hc)

theorem self (h : IsOrderOn s cmp) {a : α} (ha : a ∈ s) : cmp a a = .eq :=
  (h.eq_iff a ha a ha).mpr rfl

theorem gt_iff (h : IsOrderOn s cmp) {a b : α} (ha : a ∈ s) (hb : b ∈ s) :
    cmp a b = .gt ↔ cmp b a = .lt := by
  rw [h.swap a ha b hb, Ordering.swap_eq_lt]

/-- An order of what the elements are told apart by. -/
theorem comap (h : IsOrderOn t cmp') {f : α → β} (hs : Set.MapsTo f s t) (hf : Set.InjOn f s) :
    IsOrderOn s fun a b => cmp' (f a) (f b) where
  eq_iff := fun a ha b hb => by
    rw [h.eq_iff _ (hs ha) _ (hs hb), hf.eq_iff ha hb]
  swap := fun a ha b hb => h.swap _ (hs ha) _ (hs hb)
  trans := fun a ha b hb c hc => h.trans _ (hs ha) _ (hs hb) _ (hs hc)

/-- **Pairs are ordered** by their first components, and then by their second ones. -/
theorem pair (h : IsOrderOn s cmp) (h' : IsOrderOn t cmp') :
    IsOrderOn (s ×ˢ t) (comparePair cmp cmp') where
  eq_iff := fun a ha b hb => by
    rw [comparePair, Ordering.then_eq_eq, h.eq_iff _ ha.1 _ hb.1, h'.eq_iff _ ha.2 _ hb.2,
      Prod.ext_iff]
  swap := fun a ha b hb => by
    rw [comparePair, comparePair, Ordering.swap_then, h.swap _ ha.1 _ hb.1,
      h'.swap _ ha.2 _ hb.2]
  trans := fun a ha b hb c hc hab hbc => by
    rw [comparePair, Ordering.then_eq_lt] at hab hbc ⊢
    rcases hab with hab | ⟨hab, hab'⟩
    · rcases hbc with hbc | ⟨hbc, -⟩
      · exact .inl (h.trans _ ha.1 _ hb.1 _ hc.1 hab hbc)
      · rw [h.eq_iff _ hb.1 _ hc.1] at hbc
        exact .inl (hbc ▸ hab)
    · rw [h.eq_iff _ ha.1 _ hb.1] at hab
      rw [hab]
      rcases hbc with hbc | ⟨hbc, hbc'⟩
      · exact .inl hbc
      · exact .inr ⟨hbc, h'.trans _ ha.2 _ hb.2 _ hc.2 hab' hbc'⟩

/-- **Lists are ordered** by their first difference. -/
theorem list (h : IsOrderOn s cmp) : IsOrderOn {l | ∀ a ∈ l, a ∈ s} (List.compareLex cmp) where
  eq_iff := fun l hl l' hl' => by
    induction l generalizing l' with
    | nil => cases l' <;> simp [List.compareLex]
    | cons a l ih =>
      cases l' with
      | nil => simp [List.compareLex]
      | cons b l' =>
        rw [Set.mem_ofPred_eq, List.forall_mem_cons] at hl hl'
        rw [List.compareLex_cons_cons, Ordering.then_eq_eq, h.eq_iff a hl.1 b hl'.1,
          ih hl.2 l' hl'.2, List.cons.injEq]
  swap := fun l hl l' hl' => by
    induction l generalizing l' with
    | nil => cases l' <;> rfl
    | cons a l ih =>
      cases l' with
      | nil => rfl
      | cons b l' =>
        rw [Set.mem_ofPred_eq, List.forall_mem_cons] at hl hl'
        rw [List.compareLex_cons_cons, List.compareLex_cons_cons, Ordering.swap_then,
          h.swap a hl.1 b hl'.1, ih hl.2 l' hl'.2]
  trans := fun l hl l' hl' l'' hl'' hab hbc => by
    induction l generalizing l' l'' with
    | nil =>
      cases l'' with
      | nil => cases l' <;> simp [List.compareLex] at hab hbc
      | cons c l'' => rfl
    | cons a l ih =>
      cases l' with
      | nil => simp [List.compareLex] at hab
      | cons b l' =>
        cases l'' with
        | nil => simp [List.compareLex] at hbc
        | cons c l'' =>
          rw [Set.mem_ofPred_eq, List.forall_mem_cons] at hl hl' hl''
          rw [List.compareLex_cons_cons, Ordering.then_eq_lt] at hab hbc ⊢
          rcases hab with hab | ⟨hab, hab'⟩
          · rcases hbc with hbc | ⟨hbc, -⟩
            · exact .inl (h.trans a hl.1 b hl'.1 c hl''.1 hab hbc)
            · rw [h.eq_iff b hl'.1 c hl''.1] at hbc
              exact .inl (hbc ▸ hab)
          · rw [h.eq_iff a hl.1 b hl'.1] at hab
            rw [hab]
            rcases hbc with hbc | ⟨hbc, hbc'⟩
            · exact .inl hbc
            · exact .inr ⟨hbc, ih hl.2 l' hl'.2 l'' hl''.2 hab' hbc'⟩

end IsOrderOn

namespace OrdMap

variable (cmp : α → α → Ordering)

/-- Puts a value under a key. Where the key is there, the entry keeps its key. -/
def insert : List (α × V) → α → V → List (α × V)
  | [], k, v => [(k, v)]
  | (k', v') :: m, k, v =>
    match cmp k k' with
    | .lt => (k, v) :: (k', v') :: m
    | .eq => (k', v) :: m
    | .gt => (k', v') :: insert m k v

/-- The value under a key. -/
def find : List (α × V) → α → Option V
  | [], _ => none
  | (k', v') :: m, k =>
    match cmp k k' with
    | .lt => none
    | .eq => some v'
    | .gt => find m k

/-- The keys increase, and are among those of `s`. -/
structure Sorted (s : Set α) (m : List (α × V)) : Prop where
  pairwise : m.Pairwise fun a b => cmp a.1 b.1 = .lt
  mem : ∀ e ∈ m, e.1 ∈ s

variable {cmp} {s : Set α}

theorem Sorted.nil : Sorted cmp s ([] : List (α × V)) :=
  ⟨List.Pairwise.nil, fun _ he => absurd he List.not_mem_nil⟩

theorem Sorted.tail {e : α × V} {m : List (α × V)} (h : Sorted cmp s (e :: m)) : Sorted cmp s m :=
  ⟨h.pairwise.of_cons, fun e' he => h.mem e' (List.mem_cons_of_mem _ he)⟩

theorem mem_insert {m : List (α × V)} {k : α} {v : V} {e : α × V} (he : e ∈ insert cmp m k v) :
    e.1 = k ∨ ∃ e' ∈ m, e'.1 = e.1 := by
  induction m with
  | nil => exact .inl (by rw [List.mem_singleton.mp he])
  | cons e' m ih =>
    obtain ⟨k', v'⟩ := e'
    rw [insert] at he
    split at he
    · rcases List.mem_cons.mp he with rfl | he
      · exact .inl rfl
      · exact .inr ⟨e, he, rfl⟩
    · rcases List.mem_cons.mp he with rfl | he
      · exact .inr ⟨(k', v'), List.mem_cons_self, rfl⟩
      · exact .inr ⟨e, List.mem_cons_of_mem _ he, rfl⟩
    · rcases List.mem_cons.mp he with rfl | he
      · exact .inr ⟨(k', v'), List.mem_cons_self, rfl⟩
      · rcases ih he with heq | ⟨e', he', heq⟩
        · exact .inl heq
        · exact .inr ⟨e', List.mem_cons_of_mem _ he', heq⟩

/-- **An entry that is put** leaves the keys in order. -/
theorem Sorted.insert (h : IsOrderOn s cmp) {m : List (α × V)} (hm : Sorted cmp s m) {k : α}
    (hk : k ∈ s) (v : V) : Sorted cmp s (OrdMap.insert cmp m k v) := by
  refine ⟨?_, fun e he => ?_⟩
  · induction m with
    | nil => exact List.pairwise_singleton _ _
    | cons e m ih =>
      obtain ⟨k', v'⟩ := e
      have hk' : k' ∈ s := hm.mem _ List.mem_cons_self
      obtain ⟨hhead, htail⟩ := List.pairwise_cons.mp hm.pairwise
      rw [OrdMap.insert]
      split
      · rename_i hlt
        refine List.pairwise_cons.mpr ⟨fun e he => ?_, hm.pairwise⟩
        rcases List.mem_cons.mp he with rfl | he
        · exact hlt
        · exact h.trans k hk k' hk' e.1 (hm.tail.mem e he) hlt (hhead e he)
      · exact List.pairwise_cons.mpr ⟨hhead, htail⟩
      · rename_i hgt
        refine List.pairwise_cons.mpr ⟨fun e he => ?_, ih hm.tail⟩
        rcases mem_insert he with heq | ⟨e', he', heq⟩
        · rw [heq]
          exact (h.gt_iff hk hk').mp hgt
        · rw [← heq]
          exact hhead e' he'
  · rcases mem_insert he with heq | ⟨e', he', heq⟩
    · rwa [heq]
    · rw [← heq]
      exact hm.mem e' he'

/-- What has been put is found. -/
theorem find_insert_self (h : IsOrderOn s cmp) {m : List (α × V)} (hm : Sorted cmp s m) {k : α}
    (hk : k ∈ s) (v : V) : find cmp (insert cmp m k v) k = some v := by
  induction m with
  | nil => rw [insert, find, h.self hk]
  | cons e m ih =>
    obtain ⟨k', v'⟩ := e
    rw [insert]
    rcases hcmp : cmp k k' with _ | _ | _
    · dsimp only
      rw [find, h.self hk]
    · dsimp only
      rw [find, hcmp]
    · dsimp only
      rw [find, hcmp]
      exact ih hm.tail

/-- What is found under other keys is what was found before. -/
theorem find_insert_of_ne (h : IsOrderOn s cmp) {m : List (α × V)} (hm : Sorted cmp s m) {j k : α}
    (hj : j ∈ s) (hk : k ∈ s) (hne : j ≠ k) (v : V) :
    find cmp (insert cmp m k v) j = find cmp m j := by
  have hjk : cmp j k ≠ .eq := fun heq => hne ((h.eq_iff j hj k hk).mp heq)
  induction m with
  | nil =>
    rcases hcmp : cmp j k with _ | _ | _
    · simp only [insert, find, hcmp]
    · exact absurd hcmp hjk
    · simp only [insert, find, hcmp]
  | cons e m ih =>
    obtain ⟨k', v'⟩ := e
    have hk' : k' ∈ s := hm.mem _ List.mem_cons_self
    rw [insert]
    rcases hcmp : cmp k k' with _ | _ | _
    · -- The key is put before the first one.
      dsimp only
      rw [find]
      rcases hlt : cmp j k with _ | _ | _
      · rw [find, h.trans j hj k hk k' hk' hlt hcmp]
      · exact absurd hlt hjk
      · rfl
    · -- The key is the first one.
      obtain rfl := (h.eq_iff k hk k' hk').mp hcmp
      dsimp only
      rw [find, find]
      rcases hlt : cmp j k with _ | _ | _
      · rfl
      · exact absurd hlt hjk
      · rfl
    · -- The key is put among the others.
      dsimp only
      rw [find, find, ih hm.tail]

/-- The value that was put last under a key. -/
def lastPut [DecidableEq α] (puts : List (α × V)) (k : α) : Option V :=
  ((puts.filter fun p => p.1 = k).getLast?).map Prod.snd

theorem lastPut_concat [DecidableEq α] (puts : List (α × V)) (p : α × V) (k : α) :
    lastPut (puts ++ [p]) k = if p.1 = k then some p.2 else lastPut puts k := by
  unfold lastPut
  rw [List.filter_append]
  split_ifs with h
  · rw [List.filter_cons_of_pos (by simpa using h), List.filter_nil, List.getLast?_concat,
      Option.map_some]
  · rw [List.filter_cons_of_neg (by simpa using h), List.filter_nil, List.append_nil]

theorem lastPut_eq_none [DecidableEq α] {puts : List (α × V)} {k : α} (h : ∀ p ∈ puts, p.1 ≠ k) :
    lastPut puts k = none := by
  have hnil : puts.filter (fun p => p.1 = k) = [] := by
    rw [List.filter_eq_nil_iff]
    intro p hp
    simpa using h p hp
  rw [lastPut, hnil]
  rfl

/-- What was put last under a key, where all that was put under it is the same. -/
theorem lastPut_eq_some [DecidableEq α] {puts : List (α × V)} {k : α} {v : V}
    (hmem : (k, v) ∈ puts) (h : ∀ p ∈ puts, p.1 = k → p.2 = v) : lastPut puts k = some v := by
  have hfilter : (k, v) ∈ puts.filter (fun p => p.1 = k) := by
    rw [List.mem_filter]
    exact ⟨hmem, by simp⟩
  obtain ⟨p, hp⟩ : ∃ p, (puts.filter fun p => p.1 = k).getLast? = some p :=
    ⟨_, List.getLast?_eq_getLast_of_ne_nil (List.ne_nil_of_mem hfilter)⟩
  obtain ⟨hputs, hkey⟩ := List.mem_filter.mp (List.mem_of_getLast? hp)
  rw [lastPut, hp, Option.map_some, h p hputs (by simpa using hkey)]

/-- The map after a list of puts. -/
def ofPuts (cmp : α → α → Ordering) (puts : List (α × V)) : List (α × V) :=
  puts.foldl (fun m p => insert cmp m p.1 p.2) []

theorem ofPuts_concat (puts : List (α × V)) (p : α × V) :
    ofPuts cmp (puts ++ [p]) = insert cmp (ofPuts cmp puts) p.1 p.2 := by
  rw [ofPuts, List.foldl_append]
  rfl

theorem sorted_ofPuts (h : IsOrderOn s cmp) {puts : List (α × V)} (hputs : ∀ p ∈ puts, p.1 ∈ s) :
    Sorted cmp s (ofPuts cmp puts) := by
  induction puts using List.reverseRecOn with
  | nil => exact Sorted.nil
  | append_singleton puts p ih =>
    rw [ofPuts_concat]
    exact (ih fun p' hp' => hputs p' (List.mem_append_left _ hp')).insert h
      (hputs p (by simp)) p.2

/-- **What is found after any puts** is what was put last under the key. -/
theorem find_ofPuts (h : IsOrderOn s cmp) [DecidableEq α] {puts : List (α × V)}
    (hputs : ∀ p ∈ puts, p.1 ∈ s) {k : α} (hk : k ∈ s) :
    find cmp (ofPuts cmp puts) k = lastPut puts k := by
  induction puts using List.reverseRecOn with
  | nil => rfl
  | append_singleton puts p ih =>
    have hrest : ∀ p' ∈ puts, p'.1 ∈ s := fun p' hp' => hputs p' (List.mem_append_left _ hp')
    have hp : p.1 ∈ s := hputs p (by simp)
    rw [ofPuts_concat, lastPut_concat, ← ih hrest]
    split_ifs with heq
    · rw [← heq, find_insert_self h (sorted_ofPuts h hrest) hp]
    · rw [find_insert_of_ne h (sorted_ofPuts h hrest) hk hp (Ne.symm heq)]

end OrdMap

end MonadServices
