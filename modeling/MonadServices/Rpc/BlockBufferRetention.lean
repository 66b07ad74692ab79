import MonadServices.Lib.Recent
import MonadServices.Rpc.BlockBuffer
import Mathlib.Data.Finset.Card
import Mathlib.Data.Set.Card
import Mathlib.Data.UInt

/-!
# What the block buffer retains

The ring of the block buffer has an entry for each stored block, and the map of blocks one for
each height. When a height falls out of the ring its block is evicted, although the height may be
in the ring once more. So a height that is stored twice costs a slot, and is forgotten with its
older entry.

The ring is the list of the heights stored last
(`MonadServices.Rpc.Buffer.blockHeights_run`), hence no more blocks are buffered than it is long.
**The most recent distinct heights are retained exactly if** whenever a height falls out of the
ring, the ring and the new height are distinct
(`MonadServices.Rpc.Buffer.retains_iff_room`).
-/

namespace MonadServices

namespace Rpc

namespace Buffer

variable {K : Kinds}

/-! ### What should be retained -/

/-- The heights that were stored, the last one first. -/
def storedHeights (capacity : ℕ) (events : List (Event K)) : List UInt64 :=
  (storedBlocks capacity events).map ExecutedBlock.number

/-- The block stored last at a height. -/
def lastStored (blocks : List (ExecutedBlock K)) (n : UInt64) : Option (ExecutedBlock K) :=
  blocks.find? fun b => b.number = n

/-- **The buffer retains what it should**: no more blocks than its capacity, and of the most
recently stored distinct heights, as many as it can hold, the block stored last. -/
structure Retains (capacity : ℕ) (events : List (Event K)) : Prop where
  bounded : {n | (run capacity events).maps.blockByHeight n ≠ none}.ncard ≤ capacity
  recent : ∀ n ∈ (firsts (storedHeights capacity events)).take capacity,
    (run capacity events).maps.blockByHeight n =
      (lastStored (storedBlocks capacity events) n).map ExecutedBlock.toBlock

/-- A height falls out of the ring only if it and the heights that stay are distinct. -/
def State.Room (s : State K) (e : Event K) : Prop :=
  ∀ b, s.stored e = some b → s.capacity < (b.number :: s.blockHeights).length →
    (b.number :: s.blockHeights).Nodup

@[simp] theorem capacity_run (capacity : ℕ) (events : List (Event K)) :
    (run capacity events).capacity = capacity := by
  induction events using List.reverseRecOn with
  | nil => rfl
  | append_singleton events e ih =>
    rw [run_concat]
    exact ih

theorem State.insert_of_none {s : State K} {e : Event K} (hnone : s.stored e = none) :
    (s.insert e).maps = s.maps ∧ (s.insert e).blockHeights = s.blockHeights := by
  simp [State.insert, State.insertWrites, State.nextHeights, hnone]

theorem State.blockHeights_insert {s : State K} {e : Event K} {b : ExecutedBlock K}
    (hb : s.stored e = some b) :
    (s.insert e).blockHeights = (b.number :: s.blockHeights).take s.capacity := by
  simp [State.insert, State.nextHeights, hb]

/-- **The ring is the list of the heights stored last.** -/
theorem blockHeights_run (capacity : ℕ) (events : List (Event K)) :
    (run capacity events).blockHeights = (storedHeights capacity events).take capacity := by
  induction events using List.reverseRecOn with
  | nil => simp [storedHeights, State.new]
  | append_singleton events e ih =>
    rw [run_concat, storedHeights, storedBlocks_concat]
    cases hstored : (run capacity events).stored e with
    | none => exact (State.insert_of_none hstored).2.trans ih
    | some b =>
      rw [State.blockHeights_insert hstored, ih, capacity_run, Option.toList_some,
        List.singleton_append, List.map_cons]
      cases capacity with
      | zero => simp
      | succ c =>
        rw [List.take_succ_cons, List.take_succ_cons, List.take_take, min_eq_left (Nat.le_succ c)]
        rfl

/-! ### One insertion -/

/-- A ring that becomes too long loses its last height. -/
theorem State.blockHeights_insert_of_lt {s : State K} (hle : s.blockHeights.length ≤ s.capacity)
    {e : Event K} {b : ExecutedBlock K} (hb : s.stored e = some b)
    (hlt : s.capacity < (b.number :: s.blockHeights).length) :
    (s.insert e).blockHeights = (b.number :: s.blockHeights).dropLast := by
  have hcap : s.capacity = (b.number :: s.blockHeights).length - 1 := by
    rw [List.length_cons] at hlt ⊢
    omega
  rw [State.blockHeights_insert hb, hcap, List.dropLast_eq_take]

/-- The height that falls out of the ring, if one does. -/
def State.evicted (s : State K) (b : ExecutedBlock K) : Option UInt64 :=
  if s.capacity < (b.number :: s.blockHeights).length then
    (b.number :: s.blockHeights).getLast?
  else none

theorem evictLoop_of_le {capacity : ℕ} {back : List UInt64} (hle : back.length ≤ capacity)
    (m : Maps K) : Maps.evictLoop capacity back m = [] := by
  cases back with
  | nil => rfl
  | cons height back => rw [Maps.evictLoop, if_neg (not_lt.mpr hle)]

/-- At most one height falls out of a ring that was not too long. -/
theorem State.insertWrites_eq (s : State K) (hle : s.blockHeights.length ≤ s.capacity)
    {e : Event K} {b : ExecutedBlock K} (hb : s.stored e = some b) :
    s.insertWrites e = s.maps.storeWrites b ++
      match s.evicted b with
      | none => []
      | some n => (s.maps.writes (s.maps.storeWrites b)).evictWrites n := by
  simp only [State.insertWrites, hb]
  congr 1
  generalize s.maps.writes (s.maps.storeWrites b) = m
  by_cases hlt : s.capacity < (b.number :: s.blockHeights).length
  · rw [State.evicted, if_pos hlt, List.getLast?_eq_head?_reverse]
    have hlen : (b.number :: s.blockHeights).reverse.length = s.blockHeights.length + 1 := by simp
    cases hrev : (b.number :: s.blockHeights).reverse with
    | nil => simp [hrev] at hlen
    | cons height back =>
      rw [hrev, List.length_cons] at hlen
      have hback : back.length ≤ s.capacity := by omega
      have hover : s.capacity < (height :: back).length := by
        simp only [List.length_cons] at hlt ⊢
        omega
      rw [Maps.evictLoop, if_pos hover, evictLoop_of_le hback, List.append_nil]
      rfl
  · rw [State.evicted, if_neg hlt]
    refine evictLoop_of_le ?_ m
    rw [List.length_reverse]
    exact not_lt.mp hlt

/-- **The blocks after an insertion.** -/
theorem State.blockByHeight_insert (s : State K) (hle : s.blockHeights.length ≤ s.capacity)
    {e : Event K} {b : ExecutedBlock K} (hb : s.stored e = some b) (n : UInt64) :
    (s.insert e).maps.blockByHeight n =
      if s.evicted b = some n then none
      else if n = b.number then some b.toBlock else s.maps.blockByHeight n := by
  change (s.maps.writes (s.insertWrites e)).blockByHeight n = _
  rw [s.insertWrites_eq hle hb, Maps.writes_append]
  cases s.evicted b with
  | none =>
    rw [if_neg (Option.some_ne_none n).symm]
    exact Maps.blockByHeight_storeWrites ..
  | some out =>
    refine ((Maps.drops_evictWrites _ out).1 n).trans ?_
    rw [Maps.blockByHeight_storeWrites]
    by_cases hn : n = out
    · simp [hn]
    · have hne : some out ≠ some n := fun heq => hn (Option.some.inj heq).symm
      rw [if_neg hn, if_neg hne]

/-! ### Sequences of events -/

section Run

variable (capacity : ℕ) (events : List (Event K))

theorem length_blockHeights_le :
    (run capacity events).blockHeights.length ≤ (run capacity events).capacity := by
  rw [blockHeights_run, capacity_run]
  exact List.length_take_le _ _

/-- A buffered block is at a height of the ring. -/
theorem mem_blockHeights {n : UInt64} {b : Block K}
    (hb : (run capacity events).maps.blockByHeight n = some b) :
    n ∈ (run capacity events).blockHeights := by
  induction events using List.reverseRecOn generalizing b with
  | nil => simp [State.new, Maps.empty] at hb
  | append_singleton events e ih =>
    rw [run_concat] at hb ⊢
    have hle := length_blockHeights_le capacity events
    generalize run capacity events = s at hb hle ih ⊢
    cases hstored : s.stored e with
    | none =>
      obtain ⟨hmaps, hheights⟩ := State.insert_of_none hstored
      rw [hmaps] at hb
      rw [hheights]
      exact ih hb
    | some eb =>
      rw [s.blockByHeight_insert hle hstored] at hb
      have hout : s.evicted eb ≠ some n := fun hcon => by simp [hcon] at hb
      rw [if_neg hout] at hb
      have hmem : n ∈ eb.number :: s.blockHeights := by
        split at hb
        · next heq => exact heq ▸ List.mem_cons_self ..
        · exact List.mem_cons_of_mem _ (ih hb)
      -- the one height that falls out has no block any more
      by_cases hlt : s.capacity < (eb.number :: s.blockHeights).length
      · rw [State.evicted, if_pos hlt] at hout
        rw [State.blockHeights_insert_of_lt hle hstored hlt]
        exact List.mem_dropLast_of_mem_of_ne_getLast? hmem hout.symm
      · rwa [State.blockHeights_insert hstored, List.take_of_length_le (not_lt.mp hlt)]

/-- **No more blocks are buffered than the capacity.** -/
theorem ncard_blockByHeight_le :
    {n | (run capacity events).maps.blockByHeight n ≠ none}.ncard ≤ capacity := by
  have hsub : {n | (run capacity events).maps.blockByHeight n ≠ none} ⊆
      ↑(run capacity events).blockHeights.toFinset := by
    intro n hn
    obtain ⟨b, hb⟩ := Option.ne_none_iff_exists'.mp hn
    rw [List.coe_toFinset]
    exact mem_blockHeights capacity events hb
  calc {n | (run capacity events).maps.blockByHeight n ≠ none}.ncard
      ≤ (↑(run capacity events).blockHeights.toFinset : Set UInt64).ncard :=
        Set.ncard_le_ncard hsub (Finset.finite_toSet _)
    _ = (run capacity events).blockHeights.toFinset.card := Set.ncard_coe_finset _
    _ ≤ (run capacity events).blockHeights.length := List.toFinset_card_le _
    _ ≤ capacity := (length_blockHeights_le capacity events).trans_eq (capacity_run ..)

end Run

theorem lastStored_cons (b : ExecutedBlock K) (blocks : List (ExecutedBlock K)) (n : UInt64) :
    lastStored (b :: blocks) n = if b.number = n then some b else lastStored blocks n := by
  rw [lastStored, List.find?_cons]
  split
  · next heq => rw [if_pos (of_decide_eq_true heq)]
  · next hne => rw [if_neg (of_decide_eq_false hne), lastStored]

/-- A height that was stored has a last block. -/
theorem lastStored_ne_none {blocks : List (ExecutedBlock K)} {n : UInt64}
    (hn : n ∈ blocks.map ExecutedBlock.number) : lastStored blocks n ≠ none := by
  obtain ⟨b, hb, rfl⟩ := List.mem_map.mp hn
  intro hnone
  exact of_decide_eq_false (Bool.eq_false_iff.mpr (List.find?_eq_none.mp hnone b hb)) rfl

/-- **What a run with room keeps**: each height of the ring has the block stored last, and the ring
is distinct from the moment it is full. -/
structure Kept (capacity : ℕ) (events : List (Event K)) : Prop where
  last : ∀ n ∈ (run capacity events).blockHeights,
    (run capacity events).maps.blockByHeight n =
      (lastStored (storedBlocks capacity events) n).map ExecutedBlock.toBlock
  distinct : (storedHeights capacity events).length ≤ capacity ∨
    (run capacity events).blockHeights.Nodup

/-- The recent distinct heights are in the ring. -/
theorem Kept.retains {capacity : ℕ} {events : List (Event K)} (h : Kept capacity events) :
    Retains capacity events where
  bounded := ncard_blockByHeight_le capacity events
  recent n hn := by
    refine h.last n ?_
    rw [blockHeights_run]
    rcases h.distinct with hle | hnodup
    · rw [List.take_of_length_le hle]
      exact mem_firsts.mp (List.mem_of_mem_take hn)
    · rw [blockHeights_run] at hnodup
      rwa [take_firsts_of_nodup hnodup] at hn

/-- A block that is stored with room. -/
theorem Kept.store {capacity : ℕ} {events : List (Event K)} (h : Kept capacity events)
    {e : Event K} {b : ExecutedBlock K} (hb : (run capacity events).stored e = some b)
    (hroom : (run capacity events).Room e) : Kept capacity (events ++ [e]) := by
  have hle := length_blockHeights_le capacity events
  have hstored : storedBlocks capacity (events ++ [e]) = b :: storedBlocks capacity events := by
    rw [storedBlocks_concat, hb, Option.toList_some, List.singleton_append]
  have hlast : ∀ n ∈ b.number :: (run capacity events).blockHeights,
      (if n = b.number then some b.toBlock
        else (run capacity events).maps.blockByHeight n) =
        (lastStored (b :: storedBlocks capacity events) n).map ExecutedBlock.toBlock := by
    intro n hn
    rw [lastStored_cons]
    by_cases heq : n = b.number
    · rw [if_pos heq, if_pos heq.symm, Option.map_some]
    · rw [if_neg heq, if_neg (Ne.symm heq)]
      exact h.last n ((List.mem_cons.mp hn).resolve_left heq)
  by_cases hlt : (run capacity events).capacity <
      (b.number :: (run capacity events).blockHeights).length
  · -- the ring is full: the height that falls out is not among those that stay
    have hnodup := hroom b hb hlt
    have hheights := State.blockHeights_insert_of_lt hle hb hlt
    refine ⟨fun n hn => ?_, .inr ?_⟩
    · rw [run_concat, hheights] at hn
      have hout : (run capacity events).evicted b ≠ some n := by
        rw [State.evicted, if_pos hlt]
        intro hcon
        obtain ⟨front, hfront⟩ := List.getLast?_eq_some_iff.mp hcon
        rw [hfront, List.dropLast_concat] at hn
        rw [hfront] at hnodup
        exact (List.nodup_append.mp hnodup).2.2 n hn n (List.mem_singleton_self n) rfl
      rw [run_concat, State.blockByHeight_insert _ hle hb, if_neg hout, hstored]
      exact hlast n (List.mem_of_mem_dropLast hn)
    · rw [run_concat, hheights]
      exact hnodup.sublist (List.dropLast_sublist _)
  · have hheights := State.blockHeights_insert hb
    rw [List.take_of_length_le (not_lt.mp hlt)] at hheights
    refine ⟨fun n hn => ?_, .inl ?_⟩
    · rw [run_concat, hheights] at hn
      have hout : (run capacity events).evicted b ≠ some n := by
        rw [State.evicted, if_neg hlt]
        exact (Option.some_ne_none n).symm
      rw [run_concat, State.blockByHeight_insert _ hle hb, if_neg hout, hstored]
      exact hlast n hn
    · rw [not_lt, List.length_cons, capacity_run, blockHeights_run, List.length_take] at hlt
      rw [storedHeights, hstored, List.map_cons, List.length_cons]
      rw [storedHeights] at hlt
      omega

/-- **A run with room at every step keeps its recent heights.** -/
theorem kept_of_room (capacity : ℕ) (events : List (Event K))
    (hroom : ∀ pre e, pre ++ [e] <+: events → (run capacity pre).Room e) :
    Kept capacity events := by
  induction events using List.reverseRecOn with
  | nil => exact ⟨fun n hn => by simp [State.new] at hn, .inl (Nat.zero_le _)⟩
  | append_singleton events e ih =>
    have h := ih fun pre f hpre => hroom pre f (hpre.trans ⟨[e], rfl⟩)
    cases hstored : (run capacity events).stored e with
    | none =>
      obtain ⟨hmaps, hheights⟩ := State.insert_of_none hstored
      refine ⟨?_, ?_⟩
      · rw [run_concat, hmaps, hheights, storedBlocks_concat, hstored]
        exact h.last
      · rw [run_concat, hheights, storedHeights, storedBlocks_concat, hstored]
        exact h.distinct
    | some b => exact h.store hstored (hroom events e (List.prefix_refl _))

/-- A repetition among the ring and the new height, when one falls out, loses the block of a
recent height. -/
theorem Retains.room {capacity : ℕ} {events : List (Event K)} {e : Event K}
    (h : Retains capacity (events ++ [e])) : (run capacity events).Room e := by
  intro b hb hlt
  by_contra hrep
  have hle := length_blockHeights_le capacity events
  have hheights : b.number :: (run capacity events).blockHeights =
      (b.number :: storedHeights capacity events).take (capacity + 1) := by
    rw [blockHeights_run, List.take_succ_cons]
  obtain ⟨out, hout⟩ : ∃ out, (b.number :: (run capacity events).blockHeights).getLast? =
      some out := ⟨_, List.getLast?_cons⟩
  have hstored : storedBlocks capacity (events ++ [e]) = b :: storedBlocks capacity events := by
    rw [storedBlocks_concat, hb, Option.toList_some, List.singleton_append]
  have hmem : out ∈ (b.number :: storedHeights capacity events).take (capacity + 1) :=
    hheights ▸ List.mem_of_getLast? hout
  -- the height that falls out is recent, so its block should have stayed
  have hrecent : out ∈ (firsts (storedHeights capacity (events ++ [e]))).take capacity := by
    rw [storedHeights, hstored]
    exact mem_take_firsts (hheights ▸ hrep) hmem
  have hgone : (run capacity (events ++ [e])).maps.blockByHeight out = none := by
    rw [run_concat, State.blockByHeight_insert _ hle hb, State.evicted, if_pos hlt, if_pos hout]
  have hlast := h.recent out hrecent
  rw [hgone, eq_comm, Option.map_eq_none_iff] at hlast
  refine lastStored_ne_none ?_ hlast
  rw [hstored]
  exact List.mem_of_mem_take hmem

/-- **The buffer retains what it should after every event if and only if** whenever a height falls
out of the ring, it and the heights that stay are distinct. -/
theorem retains_iff_room (capacity : ℕ) (events : List (Event K)) :
    (∀ pre, pre <+: events → Retains capacity pre) ↔
      ∀ pre e, pre ++ [e] <+: events → (run capacity pre).Room e := by
  constructor
  · intro h pre e hpre
    exact (h _ hpre).room
  · intro h pre hpre
    exact (kept_of_room capacity pre fun pre' e hpre' => h pre' e (hpre'.trans hpre)).retains

/-- A height, another one, and the first one again: the block of the last event. -/
def againEvents : List (Event smallKinds) :=
  [.block .proposed (smallBlock 1 1 []), .block .proposed (smallBlock 2 2 []),
    .block .proposed (smallBlock 1 3 [])]

/-- The block stored last is evicted at once. -/
theorem again_evicts_latest :
    (firsts (storedHeights 2 againEvents)).take 2 = [1, 2] ∧
      (run 2 againEvents).maps.getBlockByHeight 1 = none ∧ ¬Retains 2 againEvents := by
  have hrecent : (firsts (storedHeights 2 againEvents)).take 2 = [1, 2] := by decide
  have hgone : (run 2 againEvents).maps.blockByHeight 1 = none := rfl
  refine ⟨hrecent, hgone, fun hcon => ?_⟩
  have hlast := hcon.recent 1 (by simp [hrecent])
  rw [hgone, eq_comm, Option.map_eq_none_iff] at hlast
  exact lastStored_ne_none (by decide) hlast

end Buffer

end Rpc

end MonadServices
