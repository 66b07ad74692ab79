import MonadServices.Lib.Checked
import MonadServices.Lib.PrefixSum
import Mathlib.Data.List.Sort

/-!
# The rewards of a block

`eth_feeHistory` tells for every block the percentiles of the tips that were paid in it, weighted by
gas. A percentage of the gas of the block is a threshold, and the transactions are taken in
ascending order of their tips until their gas has reached it. One index and one sum are kept while
the thresholds grow.

The index is that of the transaction after the one that has reached the threshold, except for a
threshold of zero and at the end of the block. **The reward for a threshold is the tip of the
transaction that reaches it if and only if this is the last one, or the next one has the same tip**
(`MonadServices.Rpc.FeeHistory.rewards_iff`).
-/

namespace MonadServices

namespace Rpc

namespace FeeHistory

/-! ### The rewards -/

/-- What is known of transactions and receipts. -/
structure RewardEnv (Tx Receipt Percentile : Type) where
  effectiveTipPerGas : Tx → UInt64 → Option (BitVec 128)
  gasUsed : Receipt → UInt64
  /-- The rounded percentage of the gas of a block. -/
  gasThreshold : UInt64 → Percentile → UInt64

variable {Tx Receipt Percentile ε : Type}

/-- What was used by a transaction and what it tipped, in ascending order of the tips. -/
def RewardEnv.gasAndRewards (env : RewardEnv Tx Receipt Percentile) (transactions : List Tx)
    (receipts : List Receipt) (baseFee : UInt64) : List (UInt64 × BitVec 128) :=
  ((transactions.zip receipts).map fun (tx, receipt) =>
    (env.gasUsed receipt, (env.effectiveTipPerGas tx baseFee).getD 0)).insertionSort
      fun a b => a.2.toNat ≤ b.2.toNat

/-- How far the transactions have been taken. -/
structure Cursor where
  idx : ℕ
  cumulativeGasUsed : UInt64

/-- The inner loop: takes transactions up to a threshold. The fuel is the number of transactions
that are left, and the loop ends by itself when there is none. -/
def advance (overflowChecks : Bool) (gasAndRewards : List (UInt64 × BitVec 128))
    (transactionsLen : ℕ) (gasThreshold : UInt64) : ℕ → Cursor → Except (Halt ε) Cursor
  | 0, c => .ok c
  | fuel + 1, c =>
    if c.cumulativeGasUsed < gasThreshold ∧ c.idx < transactionsLen then do
      let entry ← index gasAndRewards c.idx
      let cumulativeGasUsed ← addU64 overflowChecks c.cumulativeGasUsed entry.1
      advance overflowChecks gasAndRewards transactionsLen gasThreshold fuel
        ⟨c.idx + 1, cumulativeGasUsed⟩
    else .ok c

/-- The outer loop: the reward for one threshold. -/
def rewardStep (overflowChecks : Bool) (gasAndRewards : List (UInt64 × BitVec 128))
    (transactionsLen : ℕ) (s : Cursor × List (BitVec 128)) (gasThreshold : UInt64) :
    Except (Halt ε) (Cursor × List (BitVec 128)) := do
  let c ← advance overflowChecks gasAndRewards transactionsLen gasThreshold
    (transactionsLen - s.1.idx) s.1
  let entry ← index gasAndRewards (min c.idx (transactionsLen - 1))
  return (c, s.2 ++ [entry.2])

/-- `calculate_fee_history_rewards`. -/
def calculateFeeHistoryRewards (env : RewardEnv Tx Receipt Percentile) (overflowChecks : Bool)
    (transactions : List Tx) (receipts : List Receipt) (baseFee blockGasUsed : UInt64) :
    Option (List Percentile) → Except (Halt ε) (List (BitVec 128))
  | none => .ok []
  | some percentiles =>
    if transactions.isEmpty then .ok (List.replicate percentiles.length 0)
    else do
      let s ← (percentiles.map (env.gasThreshold blockGasUsed)).foldlM
        (rewardStep overflowChecks (env.gasAndRewards transactions receipts baseFee)
          transactions.length) (⟨0, 0⟩, [])
      return s.2

/-! ### The order of the transactions -/

section Order

variable (env : RewardEnv Tx Receipt Percentile) (transactions : List Tx) (receipts : List Receipt)
  (baseFee : UInt64)

theorem length_gasAndRewards :
    (env.gasAndRewards transactions receipts baseFee).length =
      min transactions.length receipts.length := by
  rw [RewardEnv.gasAndRewards, List.length_insertionSort, List.length_map, List.length_zip]

/-- The tips are in ascending order. -/
theorem pairwise_gasAndRewards :
    (env.gasAndRewards transactions receipts baseFee).Pairwise
      fun a b => a.2.toNat ≤ b.2.toNat := by
  have : Std.Total fun a b : UInt64 × BitVec 128 => a.2.toNat ≤ b.2.toNat :=
    ⟨fun a b => le_total _ _⟩
  have : IsTrans (UInt64 × BitVec 128) fun a b => a.2.toNat ≤ b.2.toNat :=
    ⟨fun a b c => le_trans⟩
  exact List.pairwise_insertionSort _ _

end Order

/-! ### Taking transactions -/

section Advance

variable {overflowChecks : Bool} {l : List (UInt64 × BitVec 128)} {n fuel : ℕ} {t : UInt64}
  {c : Cursor}

/-- The gas of the transactions. -/
def gasOf (l : List (UInt64 × BitVec 128)) : List ℕ := l.map fun entry => entry.1.toNat

@[simp] theorem length_gasOf (l : List (UInt64 × BitVec 128)) : (gasOf l).length = l.length :=
  List.length_map _

/-- How many transactions reach a threshold. -/
def reached (l : List (UInt64 × BitVec 128)) (t : UInt64) : ℕ := reach (gasOf l) t.toNat

theorem reached_le_length (l : List (UInt64 × BitVec 128)) (t : UInt64) : reached l t ≤ l.length :=
  (reach_le_length _ _).trans_eq (length_gasOf l)

theorem le_sumTo_reached (l : List (UInt64 × BitVec 128)) (t : UInt64) :
    t.toNat ≤ sumTo (gasOf l) (reached l t) ∨ reached l t = l.length :=
  (le_sumTo_reach _ _).imp_right fun h => h.trans (length_gasOf l)

/-- The sum is that of the transactions that have been taken. -/
structure Cursor.At (l : List (UInt64 × BitVec 128)) (c : Cursor) : Prop where
  le_length : c.idx ≤ l.length
  sum : c.cumulativeGasUsed.toNat = sumTo (gasOf l) c.idx

/-- The threshold can be reached, with `n` transactions of which those in `l` have a receipt. -/
structure Reaches (l : List (UInt64 × BitVec 128)) (n : ℕ) (t : UInt64) : Prop where
  fits : sumTo (gasOf l) (reached l t) < UInt64.size
  enough : t.toNat ≤ sumTo (gasOf l) (reached l t) ∨ l.length = n

/-- **The transactions are taken up to the threshold**, or the server panics. -/
theorem advance_spec (hat : c.At l) (hle : c.idx ≤ reached l t) (hlen : l.length ≤ n)
    (hfuel : n ≤ c.idx + fuel) :
    (Reaches l n t → ∃ c' : Cursor,
      (advance overflowChecks l n t fuel c : Except (Halt ε) Cursor) = .ok c' ∧
        c'.idx = reached l t ∧ c'.At l) ∧
    (¬Reaches l n t → overflowChecks = true → ∃ message,
      (advance overflowChecks l n t fuel c : Except (Halt ε) Cursor) =
        .error (.panic message)) := by
  have hreached := reached_le_length l t
  have hsum := hat.sum
  -- What holds where the loop ends.
  have hend : c.idx = reached l t → (t.toNat ≤ sumTo (gasOf l) c.idx ∨ l.length = n) →
      Reaches l n t := by
    intro heq h
    refine ⟨?_, heq ▸ h⟩
    rw [← heq, ← hsum]
    exact c.cumulativeGasUsed.toNat_lt
  induction fuel generalizing c with
  | zero =>
    have heq : c.idx = reached l t := by omega
    have hreaches := hend heq (.inr (by omega))
    exact ⟨fun _ => ⟨c, rfl, heq, hat⟩, fun hnot => absurd hreaches hnot⟩
  | succ fuel ih =>
    rw [advance]
    by_cases hloop : c.cumulativeGasUsed < t ∧ c.idx < n
    · rw [if_pos hloop]
      have hbelow : sumTo (gasOf l) c.idx < t.toNat := hsum ▸ UInt64.lt_iff_toNat_lt.mp hloop.1
      by_cases hidx : c.idx < l.length
      · rw [index_of_lt hidx]
        have hidx' : c.idx < (gasOf l).length := by rwa [length_gasOf]
        have hnext : sumTo (gasOf l) (c.idx + 1) =
            c.cumulativeGasUsed.toNat + l[c.idx].1.toNat := by
          rw [sumTo_succ hidx', hsum]
          simp [gasOf]
        have hlt : c.idx < reached l t := by
          refine Nat.lt_of_le_of_ne hle fun heq => ?_
          obtain h | h := le_sumTo_reached l t
          · exact absurd (heq ▸ hbelow) (Nat.not_lt.mpr h)
          · exact absurd (heq.trans h) hidx.ne
        have hmono : sumTo (gasOf l) (c.idx + 1) ≤ sumTo (gasOf l) (reached l t) := sumTo_mono hlt
        by_cases hfits : c.cumulativeGasUsed.toNat + l[c.idx].1.toNat < UInt64.size
        · rw [ok_bind, addU64_of_lt hfits, ok_bind]
          have hat' : Cursor.At l ⟨c.idx + 1, c.cumulativeGasUsed + l[c.idx].1⟩ :=
            ⟨hidx, by rw [toNat_add_of_lt hfits, hnext]⟩
          refine ih hat' hlt (by change n ≤ c.idx + 1 + fuel; omega) hat'.sum fun heq h => ?_
          refine ⟨?_, heq ▸ h⟩
          rw [← heq, ← hat'.sum]
          exact UInt64.toNat_lt _
        · refine ⟨fun hreaches => absurd (hnext ▸ hmono.trans_lt hreaches.fits) hfits,
            fun _ hchecks => ?_⟩
          obtain ⟨message, hpanic⟩ := exists_addU64_eq_panic (ε := ε) hchecks (Nat.not_lt.mp hfits)
          rw [ok_bind, hpanic]
          exact ⟨message, rfl⟩
      · have hnot : ¬Reaches l n t := by
          rintro ⟨-, h | h⟩
          · have heq : c.idx = reached l t := by omega
            exact absurd (heq ▸ hbelow) (Nat.not_lt.mpr h)
          · omega
        obtain ⟨message, hpanic⟩ := exists_index_eq_panic (ε := ε) (Nat.not_lt.mp hidx)
        refine ⟨fun h => absurd h hnot, fun _ _ => ⟨message, ?_⟩⟩
        rw [hpanic]
        rfl
    · rw [if_neg hloop]
      have hstop : t.toNat ≤ sumTo (gasOf l) c.idx ∨ n ≤ c.idx := by
        rw [not_and_or, UInt64.not_lt, UInt64.le_iff_toNat_le, hsum, Nat.not_lt] at hloop
        exact hloop
      have heq : c.idx = reached l t := by
        refine Nat.le_antisymm hle (Nat.not_lt.mp fun hlt => ?_)
        obtain h | h := hstop
        · exact absurd (sumTo_lt_of_lt_reach hlt) (Nat.not_lt.mpr h)
        · omega
      have hreaches := hend heq (hstop.imp_right fun h => by omega)
      exact ⟨fun _ => ⟨c, rfl, heq, hat⟩, fun hnot => absurd hreaches hnot⟩

end Advance

/-! ### The rewards for all thresholds -/

section Rewards

variable {overflowChecks : Bool} {l : List (UInt64 × BitVec 128)} {n : ℕ} {t : UInt64}
  {ts : List UInt64} {c : Cursor} {rs : List (BitVec 128)}

/-- **The threshold is served without a panic**: its sum fits in 64 bits, and it is reached before
the last of the receipts, unless every transaction has one. -/
structure Available (l : List (UInt64 × BitVec 128)) (n : ℕ) (t : UInt64) : Prop where
  fits : sumTo (gasOf l) (reached l t) < UInt64.size
  before : reached l t < l.length ∨ l.length = n

/-- The reward that is returned. -/
def rewardAt (l : List (UInt64 × BitVec 128)) (n : ℕ) (t : UInt64) : BitVec 128 :=
  (l[min (reached l t) (n - 1)]?.map Prod.snd).getD 0

theorem Available.reaches (h : Available l n t) : Reaches l n t where
  fits := h.fits
  enough := h.before.imp_left fun hlt => (le_sumTo_reached l t).resolve_right hlt.ne

/-- One threshold. -/
theorem rewardStep_spec (hat : c.At l) (hle : c.idx ≤ reached l t) (hlen : l.length ≤ n)
    (hn : 0 < n) :
    (Available l n t → ∃ c' : Cursor,
      (rewardStep overflowChecks l n (c, rs) t : Except (Halt ε) _) =
        .ok (c', rs ++ [rewardAt l n t]) ∧ c'.idx = reached l t ∧ c'.At l) ∧
    (¬Available l n t → overflowChecks = true → ∃ message,
      (rewardStep overflowChecks l n (c, rs) t : Except (Halt ε) _) =
        .error (.panic message)) := by
  have hspec := @advance_spec ε overflowChecks l n (n - c.idx) t c hat hle hlen (by omega)
  constructor
  · intro hav
    obtain ⟨c', hadvance, hidx, hat'⟩ := hspec.1 hav.reaches
    have hlt : min c'.idx (n - 1) < l.length := by
      obtain h | h := hav.before <;> omega
    refine ⟨c', ?_, hidx, hat'⟩
    rw [rewardStep, hadvance, ok_bind, index_of_lt hlt, ok_bind, rewardAt, ← hidx,
      List.getElem?_eq_getElem hlt]
    rfl
  · intro hnot hchecks
    by_cases hreaches : Reaches l n t
    · -- The threshold is reached by the last of too few receipts.
      obtain ⟨c', hadvance, hidx, hat'⟩ := hspec.1 hreaches
      have hbefore : ¬(reached l t < l.length ∨ l.length = n) := fun h =>
        hnot ⟨hreaches.fits, h⟩
      have hge : l.length ≤ min c'.idx (n - 1) := by omega
      obtain ⟨message, hpanic⟩ := exists_index_eq_panic (ε := ε) hge
      refine ⟨message, ?_⟩
      rw [rewardStep, hadvance, ok_bind, hpanic]
      rfl
    · obtain ⟨message, hpanic⟩ := hspec.2 hreaches hchecks
      refine ⟨message, ?_⟩
      rw [rewardStep, hpanic]
      rfl

/-- All thresholds, in ascending order. -/
theorem foldlM_rewardStep_spec (hat : c.At l) (hle : ∀ t ∈ ts, c.idx ≤ reached l t)
    (hsorted : ts.Pairwise (· ≤ ·)) (hlen : l.length ≤ n) (hn : 0 < n) :
    ((∀ t ∈ ts, Available l n t) → ∃ c' : Cursor,
      (ts.foldlM (rewardStep overflowChecks l n) (c, rs) : Except (Halt ε) _) =
        .ok (c', rs ++ ts.map (rewardAt l n))) ∧
    (¬(∀ t ∈ ts, Available l n t) → overflowChecks = true → ∃ message,
      (ts.foldlM (rewardStep overflowChecks l n) (c, rs) : Except (Halt ε) _) =
        .error (.panic message)) := by
  induction ts generalizing c rs with
  | nil => exact ⟨fun _ => ⟨c, by rw [List.map_nil, List.append_nil]; rfl⟩,
      fun hnot => absurd (fun t h => (by cases h)) hnot⟩
  | cons t ts ih =>
    obtain ⟨hfirst, hsorted⟩ := List.pairwise_cons.mp hsorted
    rw [List.forall_mem_cons] at hle
    have hstep := @rewardStep_spec ε overflowChecks l n t c rs hat hle.1 hlen hn
    rw [List.forall_mem_cons]
    by_cases hav : Available l n t
    · obtain ⟨c', hok, hidx, hat'⟩ := hstep.1 hav
      have hle' : ∀ t' ∈ ts, c'.idx ≤ reached l t' := fun t' ht' =>
        hidx.trans_le (reach_mono (UInt64.le_iff_toNat_le.mp (hfirst t' ht')))
      obtain ⟨hall, hnot⟩ := @ih c' (rs ++ [rewardAt l n t]) hat' hle' hsorted
      rw [List.foldlM_cons, hok, ok_bind, List.map_cons,
        List.append_cons rs (rewardAt l n t) (ts.map (rewardAt l n))]
      exact ⟨fun h => hall h.2, fun h => hnot fun hrest => h ⟨hav, hrest⟩⟩
    · refine ⟨fun h => absurd h.1 hav, fun _ hchecks => ?_⟩
      obtain ⟨message, hpanic⟩ := hstep.2 hav hchecks
      refine ⟨message, ?_⟩
      rw [List.foldlM_cons, hpanic]
      rfl

end Rewards

/-! ### The tip of the transaction that reaches a threshold -/

section Exact

variable {l : List (UInt64 × BitVec 128)} {t : UInt64} {r : BitVec 128}

/-- **The tip of the first transaction, in the order of `l`, at which the sum of the gas reaches
`t`**, or that of the last one if none does. -/
def IsReward (l : List (UInt64 × BitVec 128)) (t : UInt64) (r : BitVec 128) : Prop :=
  ∃ i, ∃ h : i < l.length, l[i].2 = r ∧ (∀ j < i, sumTo (gasOf l) (j + 1) < t.toNat) ∧
    (t.toNat ≤ sumTo (gasOf l) (i + 1) ∨ i + 1 = l.length)

/-- This is the last of those that are needed, or the first if none is. -/
theorem isReward_iff (hl : l ≠ []) :
    IsReward l t r ↔ ∃ h : reached l t - 1 < l.length, l[reached l t - 1].2 = r := by
  have hpos : 0 < l.length := List.length_pos_iff.mpr hl
  have hle := reached_le_length l t
  constructor
  · rintro ⟨i, hi, hr, hbefore, hat⟩
    have heq : reached l t - 1 = i := by
      by_cases ht : t.toNat = 0
      · have hzero : i = 0 := by
          by_contra hne
          exact absurd (hbefore 0 (Nat.pos_of_ne_zero hne)) (by omega)
        rw [reached, ht, reach_zero, hzero]
      · have hreach : reached l t = i + 1 := by
          refine reach_eq (fun j hj => ?_) (by rwa [length_gasOf]) (by rwa [length_gasOf])
          cases j with
          | zero => exact Nat.pos_of_ne_zero ht
          | succ j => exact hbefore j (by omega)
        rw [hreach, Nat.add_sub_cancel]
    subst heq
    exact ⟨hi, hr⟩
  · rintro ⟨h, hr⟩
    refine ⟨reached l t - 1, h, hr, fun j hj => ?_, ?_⟩
    · exact sumTo_lt_of_lt_reach (show j + 1 < reached l t by omega)
    · by_cases hzero : reached l t = 0
      · obtain hreach | hreach := le_sumTo_reached l t
        · rw [hzero] at hreach ⊢
          exact .inl (hreach.trans (sumTo_mono (Nat.zero_le _)))
        · omega
      · rw [Nat.sub_add_cancel (Nat.pos_of_ne_zero hzero)]
        exact le_sumTo_reached l t

/-- **The one after it would not be better**: the gas fits in 64 bits, and the transaction that
reaches a positive threshold is the last one, or the next one has the same tip. -/
structure NextSame (l : List (UInt64 × BitVec 128)) (t : UInt64) : Prop where
  fits : sumTo (gasOf l) (reached l t) < UInt64.size
  same : 0 < t → ∀ h : reached l t < l.length, l[reached l t - 1].2 = l[reached l t].2

/-- What is returned is right. -/
theorem isReward_rewardAt_iff (hl : l ≠ []) :
    IsReward l t (rewardAt l l.length t) ↔
      (0 < t → ∀ h : reached l t < l.length, l[reached l t - 1].2 = l[reached l t].2) := by
  have hpos : 0 < l.length := List.length_pos_iff.mpr hl
  have hle := reached_le_length l t
  have hlt : reached l t - 1 < l.length := by omega
  have hmin : min (reached l t) (l.length - 1) < l.length := by omega
  rw [isReward_iff hl, exists_prop_of_true hlt, rewardAt, List.getElem?_eq_getElem hmin,
    Option.map_some, Option.getD_some]
  by_cases hend : reached l t < l.length
  · have hmin' : min (reached l t) (l.length - 1) = reached l t := by omega
    simp only [hmin', hend, forall_true_left]
    by_cases ht : 0 < t
    · exact ⟨fun h _ => h, fun h => h ht⟩
    · have hzero : reached l t = 0 := by
        have : t.toNat = 0 := by
          rw [UInt64.lt_iff_toNat_lt] at ht
          exact Nat.eq_zero_of_not_pos ht
        rw [reached, this, reach_zero]
      exact ⟨fun _ h => absurd h ht, fun _ => by simp [hzero]⟩
  · have hmin' : min (reached l t) (l.length - 1) = reached l t - 1 := by omega
    simp only [hmin', true_iff]
    exact fun _ h => absurd h hend

end Exact

/-! ### Blocks -/

section Block

variable (env : RewardEnv Tx Receipt Percentile) (transactions : List Tx) (receipts : List Receipt)
  (baseFee blockGasUsed : UInt64) (percentiles : List Percentile)

/-- **The rewards of a block**: each is the tip of the transaction that reaches its threshold, and
they do not decrease. -/
def Rewards (overflowChecks : Bool) : Prop :=
  ∃ rewards, (calculateFeeHistoryRewards env overflowChecks transactions receipts baseFee
      blockGasUsed (some percentiles) : Except (Halt Empty) _) = .ok rewards ∧
    List.Forall₂ (fun p r => IsReward (env.gasAndRewards transactions receipts baseFee)
      (env.gasThreshold blockGasUsed p) r) percentiles rewards ∧
    rewards.Pairwise fun a b => a.toNat ≤ b.toNat

variable {transactions receipts percentiles}

/-- What is returned for a block with transactions. -/
theorem calculateFeeHistoryRewards_spec (overflowChecks : Bool) (hne : transactions ≠ [])
    (hsorted : (percentiles.map (env.gasThreshold blockGasUsed)).Pairwise (· ≤ ·)) :
    ((∀ t ∈ percentiles.map (env.gasThreshold blockGasUsed),
        Available (env.gasAndRewards transactions receipts baseFee) transactions.length t) →
      (calculateFeeHistoryRewards env overflowChecks transactions receipts baseFee blockGasUsed
        (some percentiles) : Except (Halt ε) _) =
        .ok ((percentiles.map (env.gasThreshold blockGasUsed)).map
          (rewardAt (env.gasAndRewards transactions receipts baseFee) transactions.length))) ∧
    (¬(∀ t ∈ percentiles.map (env.gasThreshold blockGasUsed),
        Available (env.gasAndRewards transactions receipts baseFee) transactions.length t) →
      overflowChecks = true → ∃ message,
      (calculateFeeHistoryRewards env overflowChecks transactions receipts baseFee blockGasUsed
        (some percentiles) : Except (Halt ε) _) = .error (.panic message)) := by
  have hlen : (env.gasAndRewards transactions receipts baseFee).length ≤ transactions.length := by
    rw [length_gasAndRewards]
    exact Nat.min_le_left _ _
  have hat : Cursor.At (env.gasAndRewards transactions receipts baseFee) ⟨0, 0⟩ :=
    ⟨Nat.zero_le _, rfl⟩
  obtain ⟨hall, hnot⟩ := @foldlM_rewardStep_spec ε overflowChecks _ transactions.length _ ⟨0, 0⟩ []
    hat (fun _ _ => Nat.zero_le _) hsorted hlen (List.length_pos_iff.mpr hne)
  have hempty : transactions.isEmpty = false := by
    rw [List.isEmpty_eq_false_iff]
    exact hne
  constructor
  · intro h
    obtain ⟨c', hok⟩ := hall h
    rw [calculateFeeHistoryRewards, hempty, if_neg Bool.false_ne_true, hok]
    rfl
  · intro h hchecks
    obtain ⟨message, hpanic⟩ := hnot h hchecks
    refine ⟨message, ?_⟩
    rw [calculateFeeHistoryRewards, hempty, if_neg Bool.false_ne_true, hpanic]
    rfl

/-- The rewards that are returned do not decrease. -/
theorem rewardAt_mono {l : List (UInt64 × BitVec 128)} {n : ℕ} {t t' : UInt64}
    (hl : l.Pairwise fun a b => a.2.toNat ≤ b.2.toNat) (hlen : l.length = n) (hn : 0 < n)
    (h : t ≤ t') : (rewardAt l n t).toNat ≤ (rewardAt l n t').toNat := by
  have hmono : reached l t ≤ reached l t' := reach_mono (UInt64.le_iff_toNat_le.mp h)
  have hlt : ∀ t, min (reached l t) (n - 1) < l.length := fun t => by omega
  rw [rewardAt, rewardAt, List.getElem?_eq_getElem (hlt t), List.getElem?_eq_getElem (hlt t')]
  obtain heq | hidx := Nat.eq_or_lt_of_le
    (show min (reached l t) (n - 1) ≤ min (reached l t') (n - 1) by omega)
  · simp only [heq, le_refl]
  · exact List.pairwise_iff_getElem.mp hl _ _ (hlt t) (hlt t') hidx

/-- **The rewards of a block are right if and only if nothing changes at the next transaction**, for
every threshold. -/
theorem rewards_iff (hne : transactions ≠ []) (hlen : receipts.length = transactions.length)
    (hsorted : (percentiles.map (env.gasThreshold blockGasUsed)).Pairwise (· ≤ ·)) :
    (∀ overflowChecks, Rewards env transactions receipts baseFee blockGasUsed percentiles
      overflowChecks) ↔
      ∀ p ∈ percentiles, NextSame (env.gasAndRewards transactions receipts baseFee)
        (env.gasThreshold blockGasUsed p) := by
  have hl : (env.gasAndRewards transactions receipts baseFee).length = transactions.length := by
    rw [length_gasAndRewards, hlen, Nat.min_self]
  have hpos : 0 < transactions.length := List.length_pos_iff.mpr hne
  have hne' : env.gasAndRewards transactions receipts baseFee ≠ [] := by
    rw [← List.length_pos_iff, hl]
    exact hpos
  have hspec := @calculateFeeHistoryRewards_spec Tx Receipt Percentile Empty env transactions
    receipts baseFee blockGasUsed percentiles
  constructor
  · intro h p hp
    have hall : ∀ t ∈ percentiles.map (env.gasThreshold blockGasUsed),
        Available (env.gasAndRewards transactions receipts baseFee) transactions.length t := by
      by_contra hnot
      obtain ⟨message, hpanic⟩ := (hspec true hne hsorted).2 hnot rfl
      obtain ⟨rewards, hok, -⟩ := h true
      cases hpanic.symm.trans hok
    obtain ⟨rewards, hok, hforall, -⟩ := h true
    obtain rfl := Except.ok.inj (((hspec true hne hsorted).1 hall).symm.trans hok)
    rw [List.map_map, List.forall₂_map_right_iff, List.forall₂_same] at hforall
    refine ⟨(hall _ (List.mem_map_of_mem hp)).fits, (isReward_rewardAt_iff hne').mp ?_⟩
    rw [hl]
    exact hforall p hp
  · intro h overflowChecks
    have hall : ∀ t ∈ percentiles.map (env.gasThreshold blockGasUsed),
        Available (env.gasAndRewards transactions receipts baseFee) transactions.length t := by
      intro t ht
      obtain ⟨p, hp, rfl⟩ := List.mem_map.mp ht
      exact ⟨(h p hp).fits, .inr hl⟩
    refine ⟨_, (hspec overflowChecks hne hsorted).1 hall, ?_, ?_⟩
    · rw [List.map_map, List.forall₂_map_right_iff, List.forall₂_same]
      intro p hp
      have hright := (isReward_rewardAt_iff hne').mpr (h p hp).same
      rwa [hl] at hright
    · rw [List.pairwise_map]
      exact hsorted.imp fun hle =>
        rewardAt_mono (pairwise_gasAndRewards env transactions receipts baseFee) hl hpos hle

end Block

/-! ### A block with two transactions -/

/-- Transactions with a tip, receipts with the gas that was used, and thresholds as they are. -/
def sampleEnv : RewardEnv ℕ UInt64 UInt64 where
  effectiveTipPerGas := fun tip _ => some (BitVec.ofNat 128 tip)
  gasUsed := id
  gasThreshold := fun _ p => p

theorem rewards_sample : Rewards sampleEnv [1, 2] [21000, 21000] 0 42000 [0, 42000] true := by
  refine (rewards_iff sampleEnv 0 42000 (by decide) rfl (by decide)).mpr ?_ true
  rw [List.forall_mem_cons, List.forall_mem_singleton]
  exact ⟨⟨by decide, fun h => absurd h (by decide)⟩,
    ⟨by decide, fun _ h => absurd h (by decide)⟩⟩

/-- A threshold that is reached by the first transaction gets the tip of the second. -/
theorem not_rewards_sample :
    ¬∀ overflowChecks, Rewards sampleEnv [1, 2] [21000, 21000] 0 42000 [10500] overflowChecks := by
  intro h
  obtain ⟨rewards, hok, hforall, -⟩ := h false
  have hreturned : (calculateFeeHistoryRewards sampleEnv false [1, 2] [21000, 21000] 0 42000
      (some [10500]) : Except (Halt Empty) _) = .ok [2] := rfl
  obtain rfl := Except.ok.inj (hreturned.symm.trans hok)
  obtain ⟨i, hi, hr, hbefore, -⟩ := (List.forall₂_cons.mp hforall).1
  cases i with
  | zero =>
    have htip : (1 : BitVec 128) = 2 := hr
    exact absurd htip (by decide)
  | succ i => exact absurd (hbefore 0 (Nat.succ_pos i)) (by decide)

end FeeHistory

end Rpc

end MonadServices
