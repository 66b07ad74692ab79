import MonadServices.Lib.Result
import MonadServices.Lib.SortedMap

/-!
# Grouping receipts by block

The query of the logs index returns transactions in an order of which only the block numbers
are fixed. The stream of `get_receipts_stream_using_index` groups what comes by block, and
orders each block by the places of its transactions, in an ordered map. It asserts that block
numbers do not decrease, that no block is empty and that no place comes twice.

**A stream with increasing block numbers and distinct places is grouped without a failed
assertion, and the groups one after the other are the stream in order**
(`MonadServices.Rpc.groupReceipts_spec`).
-/

namespace MonadServices

namespace Rpc

/-- The assertions of the grouping stream. -/
inductive AssertFailed where
  /-- `assert!(block_number <= receipt_block_number)`. -/
  | blockOrder
  /-- `assert!(!block_receipts.is_empty())`. -/
  | emptyBlock
  /-- `assert!(existing_receipt.is_none())`. -/
  | existingReceipt
  deriving DecidableEq

variable {ε R : Type}

/-- The receipts of a block by their places. -/
abbrev BlockReceipts (R : Type) := List (ℕ × R)

/-- What is done to the current block when a receipt of block `n` comes: a block that is
complete is yielded. -/
def turn (blockNumber : Option UInt64) (receipts : BlockReceipts R) (n : UInt64) :
    Except AssertFailed (BlockReceipts R × List (UInt64 × List R)) :=
  match blockNumber with
  | none => .ok (receipts, [])
  | some b =>
    if ¬ b ≤ n then .error .blockOrder
    else if receipts.isEmpty then .error .emptyBlock
    else if b ≠ n then .ok ([], [(b, receipts.map (·.2))])
    else .ok (receipts, [])

/-- **The stream of `get_receipts_stream_using_index`**, from what comes: a block number, a
place in the block and a receipt. It ends at the first error. -/
def groupReceipts : Option UInt64 → BlockReceipts R → List (Except ε (UInt64 × UInt64 × R)) →
    Except AssertFailed (List (Except ε (UInt64 × List R)))
  | none, _, [] => .ok []
  | some b, receipts, [] =>
    if receipts.isEmpty then .error .emptyBlock else .ok [.ok (b, receipts.map (·.2))]
  | _, _, .error e :: _ => .ok [.error e]
  | blockNumber, receipts, .ok (n, i, receipt) :: rest => do
    let (current, yielded) ← turn blockNumber receipts n
    let (inserted, existing) := SortedMap.insert current i.toNat receipt
    if existing.isSome then .error .existingReceipt
    else
      let later ← groupReceipts (some n) inserted rest
      return yielded.map .ok ++ later

/-- The order of the chain: by block number, then by place. -/
def Before (a b : UInt64 × UInt64 × R) : Prop :=
  a.1 < b.1 ∨ a.1 = b.1 ∧ a.2.1 < b.2.1

/-- Two receipts are not at the same place. -/
def Apart (a b : UInt64 × UInt64 × R) : Prop := ¬ (a.1 = b.1 ∧ a.2.1 = b.2.1)

theorem Apart.symm {a b : UInt64 × UInt64 × R} (h : Apart a b) : Apart b a :=
  fun h' => h ⟨h'.1.symm, h'.2.symm⟩

/-- The receipts of the current block, with the block number and the places that they came
with. -/
def pending (blockNumber : Option UInt64) (receipts : BlockReceipts R) :
    List (UInt64 × UInt64 × R) :=
  match blockNumber with
  | none => []
  | some b => receipts.map fun e => (b, UInt64.ofNat e.1, e.2)

/-- What holds of the current block: it is in order, its places are words, and it is empty
only before the first receipt. -/
structure Current (blockNumber : Option UInt64) (receipts : BlockReceipts R) : Prop where
  sorted : SortedMap.Sorted receipts
  words : ∀ e ∈ receipts, e.1 < 2 ^ 64
  empty : receipts = [] ↔ blockNumber = none

theorem pairwise_pending {blockNumber : Option UInt64} {receipts : BlockReceipts R}
    (h : Current blockNumber receipts) : (pending blockNumber receipts).Pairwise Before := by
  cases blockNumber with
  | none => simp [pending]
  | some b =>
    rw [pending, List.pairwise_map]
    refine h.sorted.imp_of_mem ?_
    intro e e' he he' hlt
    refine .inr ⟨rfl, ?_⟩
    rw [UInt64.lt_iff_toNat_lt]
    show (UInt64.ofNat e.1).toNat < (UInt64.ofNat e'.1).toNat
    rw [UInt64.toNat_ofNat_of_lt' (h.words e he), UInt64.toNat_ofNat_of_lt' (h.words e' he')]
    exact hlt

/-- A receipt is added to the current block. -/
theorem current_insert (receipts : BlockReceipts R) (hsorted : SortedMap.Sorted receipts)
    (hwords : ∀ e ∈ receipts, e.1 < 2 ^ 64) (n : UInt64) {i : UInt64} (receipt : R)
    (hi : ∀ e ∈ receipts, e.1 ≠ i.toNat) :
    (SortedMap.insert receipts i.toNat receipt).2 = none ∧
      Current (some n) (SortedMap.insert receipts i.toNat receipt).1 ∧
      (pending (some n) (SortedMap.insert receipts i.toNat receipt).1).Perm
        ((n, i, receipt) :: pending (some n) receipts) := by
  obtain ⟨hnone, hperm⟩ := SortedMap.insert_of_not_mem receipt hi
  refine ⟨hnone, ⟨hsorted.insert receipt hi, ?_, ?_⟩, ?_⟩
  · intro e he
    rcases List.mem_cons.mp (hperm.mem_iff.mp he) with rfl | he
    · exact i.toNat_lt
    · exact hwords e he
  · have hlen := hperm.length_eq
    constructor
    · intro h
      rw [h] at hlen
      simp at hlen
    · simp
  · have hmap := hperm.map fun e => (n, UInt64.ofNat e.1, e.2)
    simpa [pending] using hmap

/-- The places of what has come for the current block are not those of what comes. -/
theorem ne_of_distinct {b n i : UInt64} {receipt : R} {receipts : BlockReceipts R}
    {items : List (UInt64 × UInt64 × R)}
    (hdistinct : (pending (some b) receipts ++ (n, i, receipt) :: items).Pairwise Apart)
    (hbn : b = n) :
    ∀ e ∈ receipts, e.1 ≠ i.toNat := by
  intro e he heq
  have hcross := (List.pairwise_append.mp hdistinct).2.2 (b, UInt64.ofNat e.1, e.2)
    (List.mem_map_of_mem he) (n, i, receipt) (by simp)
  refine hcross ⟨hbn, ?_⟩
  rw [heq, UInt64.ofNat_toNat]

/-- **Receipts whose block numbers do not decrease, and no two of which have the same place,
are grouped without a failed assertion.** One after the other, the groups are the receipts in
the order of the chain. The induction is on what is still to come. -/
theorem groupReceipts_spec {blockNumber : Option UInt64} {receipts : BlockReceipts R}
    {items : List (UInt64 × UInt64 × R)} (hcurrent : Current blockNumber receipts)
    (hlow : ∀ b ∈ blockNumber, ∀ x ∈ items, b ≤ x.1)
    (hitems : items.Pairwise fun x y => x.1 ≤ y.1)
    (hdistinct : (pending blockNumber receipts ++ items).Pairwise Apart) :
    ∃ groups : List (UInt64 × List R),
      groupReceipts blockNumber receipts (items.map (Except.ok (ε := ε))) =
        .ok (groups.map .ok) ∧
      ∃ sorted : List (UInt64 × UInt64 × R),
        sorted.Perm (pending blockNumber receipts ++ items) ∧ sorted.Pairwise Before ∧
          groups.flatMap (·.2) = sorted.map (·.2.2) := by
  induction items generalizing blockNumber receipts with
  | nil =>
    cases blockNumber with
    | none => exact ⟨[], rfl, [], by simp [pending], .nil, rfl⟩
    | some b =>
      have hne : receipts ≠ [] := fun h => by simpa using hcurrent.empty.mp h
      refine ⟨[(b, receipts.map (·.2))], by simp [groupReceipts, hne], ?_⟩
      exact ⟨pending (some b) receipts, by simp, pairwise_pending hcurrent,
        by simp [pending, Function.comp_def]⟩
  | cons item items ih =>
    obtain ⟨n, i, receipt⟩ := item
    obtain ⟨hhead, htail⟩ := List.pairwise_cons.mp hitems
    have hnext : ∀ b ∈ some n, ∀ x ∈ items, b ≤ x.1 := by
      rintro b hb x hx
      cases hb
      exact hhead x hx
    cases blockNumber with
    | none =>
      -- The first receipt of all.
      have hempty := hcurrent.empty.mpr rfl
      subst hempty
      obtain ⟨hnone, hcur, hperm⟩ := current_insert [] .nil (by simp) n receipt
        (i := i) (by simp)
      have hall : (pending (some n) (SortedMap.insert [] i.toNat receipt).1 ++ items).Perm
          (pending none [] ++ (n, i, receipt) :: items) := hperm.append_right items
      obtain ⟨groups, hgroups, sorted, hsorted, hbefore, hvalues⟩ := ih hcur hnext htail
        (hall.symm.pairwise hdistinct Apart.symm)
      exact ⟨groups, by simp [groupReceipts, turn, bind, Except.bind, hnone, hgroups, pure,
        Except.pure], sorted, hsorted.trans hall, hbefore, hvalues⟩
    | some b =>
      have hne : receipts ≠ [] := fun h => by simpa using hcurrent.empty.mp h
      have hbn : b ≤ n := hlow b rfl (n, i, receipt) (by simp)
      by_cases heq : b = n
      · -- Another receipt of the same block.
        subst heq
        obtain ⟨hnone, hcur, hperm⟩ := current_insert receipts hcurrent.sorted hcurrent.words b
          receipt (ne_of_distinct hdistinct rfl)
        have hall : (pending (some b) (SortedMap.insert receipts i.toNat receipt).1 ++
            items).Perm (pending (some b) receipts ++ (b, i, receipt) :: items) :=
          (hperm.append_right items).trans List.perm_middle.symm
        obtain ⟨groups, hgroups, sorted, hsorted, hbefore, hvalues⟩ := ih hcur hnext htail
          (hall.symm.pairwise hdistinct Apart.symm)
        exact ⟨groups, by simp [groupReceipts, turn, bind, Except.bind, hne, hnone, hgroups,
          pure, Except.pure], sorted, hsorted.trans hall, hbefore, hvalues⟩
      · -- The first receipt of a later block: the block before it is complete.
        obtain ⟨hnone, hcur, hperm⟩ := current_insert [] .nil (by simp) n receipt
          (i := i) (by simp)
        have hall : (pending (some n) (SortedMap.insert [] i.toNat receipt).1 ++ items).Perm
            ((n, i, receipt) :: items) := hperm.append_right items
        obtain ⟨groups, hgroups, sorted, hsorted, hbefore, hvalues⟩ := ih hcur hnext htail
          (hall.symm.pairwise (List.pairwise_append.mp hdistinct).2.1 Apart.symm)
        refine ⟨(b, receipts.map (·.2)) :: groups, by simp [groupReceipts, turn, bind,
          Except.bind, hbn, hne, heq, hnone, hgroups, pure, Except.pure],
          pending (some b) receipts ++ sorted, (hsorted.trans hall).append_left _, ?_, ?_⟩
        · refine List.pairwise_append.mpr ⟨pairwise_pending hcurrent, hbefore, ?_⟩
          intro x hx y hy
          obtain ⟨e, -, rfl⟩ := List.mem_map.mp hx
          have hlt : b < n := UInt64.lt_of_le_of_ne hbn heq
          left
          rcases List.mem_cons.mp ((hsorted.trans hall).mem_iff.mp hy) with rfl | hy
          · exact hlt
          · exact UInt64.lt_of_lt_of_le hlt (hhead y hy)
        · simp [hvalues, pending, Function.comp_def]

/-- The same from the start of the stream. -/
theorem groupReceipts_start {items : List (UInt64 × UInt64 × R)}
    (hitems : items.Pairwise fun x y => x.1 ≤ y.1) (hapart : items.Pairwise Apart) :
    ∃ groups : List (UInt64 × List R),
      groupReceipts none [] (items.map (Except.ok (ε := ε))) = .ok (groups.map .ok) ∧
      ∃ sorted : List (UInt64 × UInt64 × R), sorted.Perm items ∧ sorted.Pairwise Before ∧
        groups.flatMap (·.2) = sorted.map (·.2.2) := by
  have hnone : Current none ([] : BlockReceipts R) := ⟨.nil, by simp, by simp⟩
  exact groupReceipts_spec hnone (by simp) hitems hapart

/-- What a turn yields and what it keeps is what there was. -/
theorem perm_turn {blockNumber : Option UInt64} {receipts current : BlockReceipts R} {n : UInt64}
    {yielded : List (UInt64 × List R)}
    (h : turn blockNumber receipts n = .ok (current, yielded)) :
    yielded.flatMap (·.2) ++ current.map (·.2) = receipts.map (·.2) := by
  unfold turn at h
  split at h
  · cases h
    simp
  · split_ifs at h
    · cases h
      simp
    · cases h
      simp

/-- **A stream that is grouped without a failed assertion loses nothing**: without an error the
groups have all that came, and an error is passed on. -/
theorem groupReceipts_perm {blockNumber : Option UInt64} {receipts : BlockReceipts R}
    {items : List (Except ε (UInt64 × UInt64 × R))} {stream : List (Except ε (UInt64 × List R))}
    (hempty : blockNumber = none → receipts = [])
    (h : groupReceipts blockNumber receipts items = .ok stream) :
    (∃ (oks : List (UInt64 × UInt64 × R)) (groups : List (UInt64 × List R)),
      items = oks.map .ok ∧ stream = groups.map .ok ∧
        (groups.flatMap (·.2)).Perm (receipts.map (·.2) ++ oks.map (·.2.2))) ∨
      ∃ e, .error e ∈ items ∧ .error e ∈ stream := by
  induction items generalizing blockNumber receipts stream with
  | nil =>
    cases blockNumber with
    | none =>
      obtain rfl : [] = stream := by simpa [groupReceipts] using h
      exact .inl ⟨[], [], rfl, rfl, by simp [hempty rfl]⟩
    | some b =>
      rw [groupReceipts] at h
      split_ifs at h
      obtain rfl := Except.ok.inj h
      exact .inl ⟨[], [(b, receipts.map (·.2))], rfl, rfl, by simp⟩
  | cons item items ih =>
    cases item with
    | error e =>
      have hstream : groupReceipts blockNumber receipts (.error e :: items) = .ok [.error e] := by
        cases blockNumber <;> rfl
      obtain rfl := Except.ok.inj (hstream.symm.trans h)
      exact .inr ⟨e, by simp, by simp⟩
    | ok item =>
      obtain ⟨n, i, receipt⟩ := item
      have hunfold : groupReceipts blockNumber receipts (.ok (n, i, receipt) :: items) =
          turn blockNumber receipts n >>= fun (current, yielded) =>
            if (SortedMap.insert current i.toNat receipt).2.isSome then .error .existingReceipt
            else groupReceipts (some n) (SortedMap.insert current i.toNat receipt).1 items >>=
              fun later => .ok (yielded.map .ok ++ later) := by
        cases blockNumber <;> rfl
      rw [hunfold] at h
      obtain ⟨⟨current, yielded⟩, hturn, h⟩ := bind_eq_ok.mp h
      dsimp only at h
      split_ifs at h with hexisting
      obtain ⟨later, hlater, h⟩ := bind_eq_ok.mp h
      obtain rfl := Except.ok.inj h
      have hadded := (SortedMap.perm_insert_of_none
        (Option.not_isSome_iff_eq_none.mp hexisting)).map Prod.snd
      rcases ih (by simp) hlater with ⟨oks, groups, rfl, rfl, hperm⟩ | ⟨e, he, he'⟩
      · refine .inl ⟨(n, i, receipt) :: oks, yielded ++ groups, rfl, by simp, ?_⟩
        rw [List.flatMap_append, ← perm_turn hturn, List.append_assoc]
        refine List.Perm.append_left _ (hperm.trans ?_)
        refine (hadded.append_right _).trans ?_
        rw [List.map_cons, List.map_cons, List.cons_append]
        exact List.perm_middle.symm
      · exact .inr ⟨e, List.mem_cons_of_mem _ he, List.mem_append_right _ he'⟩

end Rpc

end MonadServices
