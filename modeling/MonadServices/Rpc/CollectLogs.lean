import MonadServices.Lib.Checked
import MonadServices.Rpc.GetLogsAtHash
import MonadServices.Rpc.JsonSerializedLen

/-!
# Collecting logs under a limit

The logs of a range of blocks are collected from a stream, block by block. The lengths that they
will have as JSON are added up, and a response that gets too long is refused: also early, when what
has been read lets expect that it will be too long, by a threshold that gets tighter as more is
read.

The products of this estimate are saturating. The sum of the lengths and the number of blocks are
not, and are kept in 64 bits. **If neither of them overflows, what is returned are the logs of all
blocks, within the limit, and what is on the way to it is never refused**
(`MonadServices.Rpc.CollectLogs.collectsWithin_iff`).
-/

namespace MonadServices

namespace Rpc

namespace CollectLogs

/-! ### The collector -/

/-- The length of a response from which it is extrapolated. -/
def extrapolationCheckMinResponseSize : UInt64 := 4194304

/-- The number of blocks from which a response is extrapolated. -/
def extrapolationCheckMinBlocks : UInt64 := 100

/-- What does not change while logs are collected. -/
structure Collector (Log : Type) where
  overflowChecks : Bool
  jsonSerializedLen : Log → ℕ
  maxResponseSize : UInt32
  numBlocksTotal : UInt64

/-- What has been collected. -/
structure State (Log : Type) where
  lastBlockNumberProcessed : Option UInt64
  numBlocksProcessed : UInt64
  heuristicResponseSize : UInt64
  responseLogs : List Log

variable {Log ε : Type}

namespace Collector

variable (c : Collector Log)

/-- Adds the length of a log. -/
def addLen (size : UInt64) (log : Log) : Except (Halt JsonRpcError) UInt64 := do
  addU64 c.overflowChecks size (← fitU64 c.overflowChecks (c.jsonSerializedLen log))

/-- The response that is expected is too long. -/
def checkExtrapolation (numBlocksProcessed size : UInt64) : Except (Halt JsonRpcError) Unit :=
  if extrapolationCheckMinResponseSize ≤ size ∧
      extrapolationCheckMinBlocks ≤ numBlocksProcessed then do
    let extrapolated ← divU64 (saturatingMulU64 size c.numBlocksTotal) numBlocksProcessed
    let double ← mulU64 c.overflowChecks c.maxResponseSize.toUInt64 2
    let scaled ← divU64 (saturatingMulU64 c.maxResponseSize.toUInt64 numBlocksProcessed)
      c.numBlocksTotal
    let limit ← subU64 c.overflowChecks double scaled
    if limit < extrapolated then .error (.error .maxResponseSizeExceeded) else .ok ()
  else .ok ()

/-- Adds a block. -/
def push (s : State Log) (block : UInt64 × List Log) : Except (Halt JsonRpcError) (State Log) :=
  if s.lastBlockNumberProcessed.any (block.1 ≤ ·) then
    .error (.error (.internalError "Logs out of order"))
  else do
    let numBlocksProcessed ← addU64 c.overflowChecks s.numBlocksProcessed 1
    if c.numBlocksTotal < numBlocksProcessed then
      .error (.error (.internalError "Logs out of range"))
    else do
      let size ← block.2.foldlM c.addLen s.heuristicResponseSize
      if c.maxResponseSize.toUInt64 < size then .error (.error .maxResponseSizeExceeded)
      else do
        c.checkExtrapolation numBlocksProcessed size
        return ⟨some block.1, numBlocksProcessed, size, s.responseLogs ++ block.2⟩

/-- The rest of a stream. -/
def collectFrom (s : State Log) : List (Except ε (UInt64 × List Log)) →
    Except (Halt JsonRpcError) (Except ε (List Log))
  | [] => .ok (.ok s.responseLogs)
  | .error e :: _ => .ok (.error e)
  | .ok block :: rest => do collectFrom (← c.push s block) rest

end Collector

/-- **`try_collect_logs_stream_with_heuristic_response_limit`.** -/
def tryCollectLogsStream (overflowChecks : Bool) (jsonSerializedLen : Log → ℕ)
    (maxResponseSize : UInt32) (fromBlock toBlock : UInt64)
    (stream : List (Except ε (UInt64 × List Log))) :
    Except (Halt JsonRpcError) (Except ε (List Log)) := do
  let next ← addU64 overflowChecks toBlock 1
  let numBlocksTotal ← subU64 overflowChecks next fromBlock
  Collector.collectFrom ⟨overflowChecks, jsonSerializedLen, maxResponseSize, numBlocksTotal⟩
    ⟨none, 0, 0, []⟩ stream

/-! ### What is accepted -/

section Accepted

variable (c : Collector Log)

/-- The length of the logs of some blocks. -/
def Collector.size (blocks : List (UInt64 × List Log)) : ℕ :=
  ((blocks.flatMap (·.2)).map c.jsonSerializedLen).sum

/-- The response that some blocks let expect is too long, by numbers without bound. -/
def Collector.exceeds (numBlocksProcessed size : ℕ) : Bool :=
  ResponseLimit.extrapolationExceeds ⟨fun _ => 0, c.maxResponseSize.toNat, c.numBlocksTotal.toNat⟩
    numBlocksProcessed size

/-- **The blocks that are accepted**: they are in order and in the range, and never too long. -/
structure Collector.Accepts (blocks : List (UInt64 × List Log)) : Prop where
  increasing : (blocks.map (·.1)).Pairwise (· < ·)
  inRange : blocks.length ≤ c.numBlocksTotal.toNat
  size_le : ∀ k ≤ blocks.length, c.size (blocks.take k) ≤ c.maxResponseSize.toNat
  not_exceeds : ∀ k ≤ blocks.length, c.exceeds k (c.size (blocks.take k)) = false

/-- The state after some blocks. -/
def Collector.after (blocks : List (UInt64 × List Log)) : State Log where
  lastBlockNumberProcessed := blocks.getLast?.map (·.1)
  numBlocksProcessed := UInt64.ofNat blocks.length
  heuristicResponseSize := UInt64.ofNat (c.size blocks)
  responseLogs := blocks.flatMap (·.2)

/-- **No count overflows**: whenever the next block is read, and is in order, there are fewer than
`2 ^ 64` blocks with it, and their logs are shorter than `2 ^ 64`. -/
def Collector.Fits (stream : List (Except ε (UInt64 × List Log))) : Prop :=
  ∀ blocks block rest, stream = blocks.map .ok ++ .ok block :: rest → c.Accepts blocks →
    (∀ b ∈ blocks, b.1 < block.1) → blocks.length + 1 < UInt64.size ∧
      (blocks.length + 1 ≤ c.numBlocksTotal.toNat → c.size (blocks ++ [block]) < UInt64.size)

end Accepted

section Push

variable {c : Collector Log} {blocks : List (UInt64 × List Log)} {block : UInt64 × List Log}

theorem size_append (c : Collector Log) (blocks : List (UInt64 × List Log))
    (block : UInt64 × List Log) :
    c.size (blocks ++ [block]) = c.size blocks + (block.2.map c.jsonSerializedLen).sum := by
  simp [Collector.size]

/-- **The lengths of the logs of a block are added**, if the sum fits. -/
theorem foldlM_addLen {logs : List Log} {n : ℕ}
    (h : n + (logs.map c.jsonSerializedLen).sum < UInt64.size) :
    logs.foldlM c.addLen (UInt64.ofNat n) =
      .ok (UInt64.ofNat (n + (logs.map c.jsonSerializedLen).sum)) := by
  induction logs generalizing n with
  | nil => rfl
  | cons log logs ih =>
    rw [List.map_cons, List.sum_cons] at h ⊢
    have hadd : c.addLen (UInt64.ofNat n) log =
        .ok (UInt64.ofNat (n + c.jsonSerializedLen log)) := by
      have hn : (UInt64.ofNat n).toNat = n := UInt64.toNat_ofNat_of_lt' (by omega)
      have hlog : (UInt64.ofNat (c.jsonSerializedLen log)).toNat = c.jsonSerializedLen log :=
        UInt64.toNat_ofNat_of_lt' (by omega)
      rw [Collector.addLen, fitU64_of_lt (by omega), ok_bind, addU64_of_lt (by omega),
        UInt64.ofNat_add]
    rw [List.foldlM_cons, hadd, ok_bind, ih (by omega), Nat.add_assoc]

/-- The lengths cannot be added where overflows are checked, if the sum does not fit. -/
theorem foldlM_addLen_of_overflow (hchecks : c.overflowChecks = true) (logs : List Log)
    (size : UInt64) (h : UInt64.size ≤ size.toNat + (logs.map c.jsonSerializedLen).sum) :
    ∃ message, logs.foldlM c.addLen size = .error (.panic message) := by
  induction logs generalizing size with
  | nil =>
    have := size.toNat_lt
    rw [List.map_nil, List.sum_nil] at h
    exact absurd h (Nat.not_le.mpr this)
  | cons log logs ih =>
    rw [List.map_cons, List.sum_cons] at h
    rw [List.foldlM_cons, Collector.addLen]
    by_cases hfit : c.jsonSerializedLen log < UInt64.size
    · rw [fitU64_of_lt hfit, ok_bind]
      have hlog := UInt64.toNat_ofNat_of_lt' hfit
      by_cases hadd : size.toNat + c.jsonSerializedLen log < UInt64.size
      · rw [addU64_of_lt (by rw [hlog]; exact hadd), ok_bind]
        refine ih _ ?_
        rw [toNat_add_of_lt (by rw [hlog]; exact hadd), hlog]
        omega
      · obtain ⟨message, hpanic⟩ := exists_addU64_eq_panic (ε := JsonRpcError) hchecks
          (a := size) (b := UInt64.ofNat (c.jsonSerializedLen log)) (by rw [hlog]; omega)
        rw [hpanic]
        exact ⟨message, rfl⟩
    · obtain ⟨message, hpanic⟩ := exists_checked_eq_panic (ε := JsonRpcError) hchecks
        (decide_eq_true (Nat.not_lt.mp hfit)) "add" (UInt64.ofNat (c.jsonSerializedLen log))
      rw [fitU64, hpanic]
      exact ⟨message, rfl⟩

/-- **The estimate is the one by numbers without bound.** The difference of the limits is not
negative. -/
theorem checkExtrapolation_eq {k n : ℕ} (hk : k ≤ c.numBlocksTotal.toNat) (hpos : 0 < k)
    (hn : n < UInt64.size) :
    c.checkExtrapolation (UInt64.ofNat k) (UInt64.ofNat n) =
      if c.exceeds k n then .error (.error .maxResponseSizeExceeded) else .ok () := by
  have htotal := c.numBlocksTotal.toNat_lt
  have hmax := c.maxResponseSize.toNat_lt
  have hk' : (UInt64.ofNat k).toNat = k := UInt64.toNat_ofNat_of_lt' (hk.trans_lt htotal)
  have hn' : (UInt64.ofNat n).toNat = n := UInt64.toNat_ofNat_of_lt' hn
  have hmax' : c.maxResponseSize.toUInt64.toNat = c.maxResponseSize.toNat := rfl
  have hsize : UInt64.size = 2 ^ 64 := rfl
  unfold Collector.checkExtrapolation Collector.exceeds ResponseLimit.extrapolationExceeds
  have hcond : extrapolationCheckMinResponseSize ≤ UInt64.ofNat n ∧
      extrapolationCheckMinBlocks ≤ UInt64.ofNat k ↔ 4 * 1024 * 1024 ≤ n ∧ 100 ≤ k := by
    rw [UInt64.le_iff_toNat_le, UInt64.le_iff_toNat_le, hk', hn']
    rfl
  by_cases hcheck : 4 * 1024 * 1024 ≤ n ∧ 100 ≤ k
  · rw [if_pos (hcond.mpr hcheck), divU64_of_pos (by rw [hk']; exact hpos), ok_bind,
      mulU64_of_lt (by rw [hmax']; change _ * 2 < _; omega), ok_bind,
      divU64_of_pos (hpos.trans_le hk), ok_bind]
    have hdouble : (c.maxResponseSize.toUInt64 * 2).toNat = c.maxResponseSize.toNat * 2 :=
      toNat_mul_of_lt (by rw [hmax']; change _ * 2 < _; omega)
    have hscaled : (saturatingMulU64 c.maxResponseSize.toUInt64 (UInt64.ofNat k) /
        c.numBlocksTotal).toNat =
          saturatingMul c.maxResponseSize.toNat k / c.numBlocksTotal.toNat := by
      rw [UInt64.toNat_div, toNat_saturatingMulU64, hmax', hk']
      rfl
    -- The scaled limit is at most the limit.
    have hle : saturatingMul c.maxResponseSize.toNat k / c.numBlocksTotal.toNat ≤
        c.maxResponseSize.toNat := by
      refine Nat.div_le_of_le_mul ((Nat.min_le_left _ _).trans ?_)
      rw [Nat.mul_comm]
      exact Nat.mul_le_mul_right _ hk
    rw [subU64_of_le (by rw [UInt64.le_iff_toNat_le, hdouble, hscaled]; omega), ok_bind]
    have hlimit : c.maxResponseSize.toUInt64 * 2 -
        saturatingMulU64 c.maxResponseSize.toUInt64 (UInt64.ofNat k) / c.numBlocksTotal <
          saturatingMulU64 (UInt64.ofNat n) c.numBlocksTotal / UInt64.ofNat k ↔
        c.maxResponseSize.toNat * 2 -
          saturatingMul c.maxResponseSize.toNat k / c.numBlocksTotal.toNat <
            saturatingMul n c.numBlocksTotal.toNat / k := by
      rw [UInt64.lt_iff_toNat_lt, UInt64.toNat_sub_of_le _ _
        (by rw [UInt64.le_iff_toNat_le, hdouble, hscaled]; omega), hdouble, hscaled,
        UInt64.toNat_div, toNat_saturatingMulU64, hk', hn']
      rfl
    simp only [hlimit, hcheck, decide_true, Bool.true_and, decide_eq_true_eq]
  · rw [if_neg fun h => hcheck (hcond.mp h), if_neg]
    rw [Bool.and_eq_true, Bool.and_eq_true, decide_eq_true_eq, decide_eq_true_eq]
    exact fun h => hcheck h.1

/-- The last number of a block is the largest. -/
theorem any_lastBlockNumberProcessed (h : (blocks.map (·.1)).Pairwise (· < ·)) (n : UInt64) :
    (c.after blocks).lastBlockNumberProcessed.any (n ≤ ·) = true ↔ ∃ b ∈ blocks, n ≤ b.1 := by
  rcases List.eq_nil_or_concat blocks with rfl | ⟨init, b, rfl⟩
  · simp [Collector.after]
  · rw [List.concat_eq_append] at h ⊢
    rw [List.map_append, List.pairwise_append] at h
    simp only [Collector.after, List.getLast?_append, List.getLast?_singleton, Option.some_or,
      Option.map_some, Option.any_some, decide_eq_true_eq]
    constructor
    · exact fun hle => ⟨b, by simp, hle⟩
    · rintro ⟨b', hmem, hle⟩
      rcases List.mem_append.mp hmem with hmem | hmem
      · have hlt : b'.1 < b.1 := h.2.2 b'.1 (List.mem_map_of_mem hmem) b.1 (by simp)
        exact UInt64.le_trans hle (UInt64.le_of_lt hlt)
      · rwa [List.mem_singleton.mp hmem] at hle

/-- **What is done with the next block.** -/
theorem push_after (h : (blocks.map (·.1)).Pairwise (· < ·))
    (hfits : (∀ b ∈ blocks, b.1 < block.1) → blocks.length + 1 < UInt64.size ∧
      (blocks.length + 1 ≤ c.numBlocksTotal.toNat →
        c.size (blocks ++ [block]) < UInt64.size)) :
    c.push (c.after blocks) block =
      if ∃ b ∈ blocks, block.1 ≤ b.1 then .error (.error (.internalError "Logs out of order"))
      else if c.numBlocksTotal.toNat < blocks.length + 1 then
        .error (.error (.internalError "Logs out of range"))
      else if c.maxResponseSize.toNat < c.size (blocks ++ [block]) ∨
          c.exceeds (blocks.length + 1) (c.size (blocks ++ [block])) then
        .error (.error .maxResponseSizeExceeded)
      else .ok (c.after (blocks ++ [block])) := by
  unfold Collector.push
  by_cases horder : ∃ b ∈ blocks, block.1 ≤ b.1
  · rw [if_pos ((any_lastBlockNumberProcessed h block.1).mpr horder), if_pos horder]
  · obtain ⟨hlen, hsize⟩ := hfits fun b hb => UInt64.not_le.mp fun hle => horder ⟨b, hb, hle⟩
    have hnum : (UInt64.ofNat blocks.length).toNat = blocks.length :=
      UInt64.toNat_ofNat_of_lt' (by omega)
    have hnum' : (UInt64.ofNat (blocks.length + 1)).toNat = blocks.length + 1 :=
      UInt64.toNat_ofNat_of_lt' hlen
    have hadd : addU64 (ε := JsonRpcError) c.overflowChecks (UInt64.ofNat blocks.length) 1 =
        .ok (UInt64.ofNat (blocks.length + 1)) := by
      rw [addU64_of_lt (by rw [hnum]; exact hlen), UInt64.ofNat_add]
      rfl
    rw [if_neg fun hany => horder ((any_lastBlockNumberProcessed h block.1).mp hany),
      if_neg horder]
    change (addU64 c.overflowChecks (UInt64.ofNat blocks.length) 1 >>= _) = _
    rw [hadd, ok_bind]
    by_cases hrange : c.numBlocksTotal.toNat < blocks.length + 1
    · rw [if_pos (UInt64.lt_iff_toNat_lt.mpr (by rw [hnum']; exact hrange)), if_pos hrange]
    · have hfits := hsize (Nat.not_lt.mp hrange)
      rw [if_neg fun hlt => hrange (by rw [← hnum']; exact UInt64.lt_iff_toNat_lt.mp hlt),
        if_neg hrange]
      change (block.2.foldlM c.addLen (UInt64.ofNat (c.size blocks)) >>= _) = _
      rw [size_append] at hfits
      rw [foldlM_addLen hfits, ok_bind, ← size_append]
      rw [← size_append] at hfits
      have hmax : c.maxResponseSize.toUInt64 < UInt64.ofNat (c.size (blocks ++ [block])) ↔
          c.maxResponseSize.toNat < c.size (blocks ++ [block]) := by
        rw [UInt64.lt_iff_toNat_lt, UInt64.toNat_ofNat_of_lt' hfits]
        rfl
      by_cases hlong : c.maxResponseSize.toNat < c.size (blocks ++ [block])
      · rw [if_pos (hmax.mpr hlong), if_pos (.inl hlong)]
      · rw [if_neg fun hlt => hlong (hmax.mp hlt),
          checkExtrapolation_eq (Nat.not_lt.mp hrange) (Nat.succ_pos _) hfits]
        by_cases hexceeds : c.exceeds (blocks.length + 1) (c.size (blocks ++ [block]))
        · rw [if_pos hexceeds, if_pos (.inr hexceeds)]
          rfl
        · rw [if_neg hexceeds, if_neg (not_or.mpr ⟨hlong, hexceeds⟩), ok_bind]
          simp [Collector.after, pure, Except.pure]

/-- **An overflow at the next block** is a panic, where it is checked. -/
theorem exists_push_eq_panic (hchecks : c.overflowChecks = true)
    (h : (blocks.map (·.1)).Pairwise (· < ·)) (hlen : blocks.length < UInt64.size)
    (hsize : c.size blocks < UInt64.size) (horder : ∀ b ∈ blocks, b.1 < block.1)
    (hfits : ¬(blocks.length + 1 < UInt64.size ∧
      (blocks.length + 1 ≤ c.numBlocksTotal.toNat →
        c.size (blocks ++ [block]) < UInt64.size))) :
    ∃ message, c.push (c.after blocks) block = .error (.panic message) := by
  have hnum : (UInt64.ofNat blocks.length).toNat = blocks.length := UInt64.toNat_ofNat_of_lt' hlen
  have hany : ¬(c.after blocks).lastBlockNumberProcessed.any (block.1 ≤ ·) = true := by
    rw [any_lastBlockNumberProcessed h]
    rintro ⟨b, hb, hle⟩
    exact UInt64.not_le.mpr (horder b hb) hle
  unfold Collector.push
  rw [if_neg hany]
  change ∃ message, (addU64 c.overflowChecks (UInt64.ofNat blocks.length) 1 >>= _) = _
  by_cases hnext : blocks.length + 1 < UInt64.size
  · have hnum' : (UInt64.ofNat blocks.length + 1).toNat = blocks.length + 1 := by
      rw [toNat_add_of_lt (by rw [hnum]; exact hnext), hnum]
      rfl
    rw [addU64_of_lt (by rw [hnum]; exact hnext), ok_bind]
    have hlong : blocks.length + 1 ≤ c.numBlocksTotal.toNat ∧
        UInt64.size ≤ c.size (blocks ++ [block]) := by
      by_contra hcon
      exact hfits ⟨hnext, fun hrange => Nat.not_le.mp fun hle => hcon ⟨hrange, hle⟩⟩
    rw [if_neg fun hlt => by
      have := UInt64.lt_iff_toNat_lt.mp hlt
      omega]
    have hsize' : (UInt64.ofNat (c.size blocks)).toNat = c.size blocks :=
      UInt64.toNat_ofNat_of_lt' hsize
    obtain ⟨message, hpanic⟩ := foldlM_addLen_of_overflow hchecks block.2
      (UInt64.ofNat (c.size blocks)) (by rw [hsize', ← size_append]; exact hlong.2)
    change ∃ message, (block.2.foldlM c.addLen (UInt64.ofNat (c.size blocks)) >>= _) = _
    rw [hpanic]
    exact ⟨message, rfl⟩
  · obtain ⟨message, hpanic⟩ := exists_addU64_eq_panic (ε := JsonRpcError) hchecks
      (a := UInt64.ofNat blocks.length) (b := 1) (by rw [hnum]; exact Nat.not_lt.mp hnext)
    rw [hpanic]
    exact ⟨message, rfl⟩

end Push

/-! ### Runs -/

section Run

variable {c : Collector Log} {blocks more : List (UInt64 × List Log)} {block : UInt64 × List Log}
  {rest : List (Except ε (UInt64 × List Log))}

/-- Nothing is counted wrong of blocks that are accepted. -/
theorem Collector.Accepts.size_lt (h : c.Accepts blocks) : c.size blocks < UInt64.size := by
  have hle := h.size_le blocks.length le_rfl
  rw [List.take_length] at hle
  have hmax := c.maxResponseSize.toNat_lt
  have hsize : UInt64.size = 2 ^ 64 := rfl
  omega

theorem Collector.Accepts.length_lt (h : c.Accepts blocks) : blocks.length < UInt64.size :=
  h.inRange.trans_lt c.numBlocksTotal.toNat_lt

/-- What comes before blocks that are accepted is accepted. -/
theorem Collector.Accepts.prefix (h : c.Accepts (blocks ++ more)) : c.Accepts blocks where
  increasing := by
    have hall := h.increasing
    rw [List.map_append, List.pairwise_append] at hall
    exact hall.1
  inRange := by
    have := h.inRange
    rw [List.length_append] at this
    omega
  size_le k hk := by
    have hle := h.size_le k (by rw [List.length_append]; omega)
    rwa [List.take_append_of_le_length hk] at hle
  not_exceeds k hk := by
    have hnot := h.not_exceeds k (by rw [List.length_append]; omega)
    rwa [List.take_append_of_le_length hk] at hnot

/-- **One more block is accepted** if it is in order, and within the limits. -/
theorem accepts_concat (h : c.Accepts blocks) (horder : ¬∃ b ∈ blocks, block.1 ≤ b.1)
    (hrange : ¬c.numBlocksTotal.toNat < blocks.length + 1)
    (hsize : ¬(c.maxResponseSize.toNat < c.size (blocks ++ [block]) ∨
      c.exceeds (blocks.length + 1) (c.size (blocks ++ [block])))) :
    c.Accepts (blocks ++ [block]) := by
  obtain ⟨hle, hnot⟩ := not_or.mp hsize
  have hcases : ∀ k ≤ (blocks ++ [block]).length, k ≤ blocks.length ∨ k = blocks.length + 1 := by
    intro k hk
    rw [List.length_append, List.length_singleton] at hk
    omega
  have hall : (blocks ++ [block]).take (blocks.length + 1) = blocks ++ [block] :=
    List.take_of_length_le (by simp)
  constructor
  · rw [List.map_append, List.pairwise_append]
    refine ⟨h.increasing, List.pairwise_singleton _ _, fun n hn m hm => ?_⟩
    obtain ⟨b, hb, rfl⟩ := List.mem_map.mp hn
    obtain rfl := List.mem_singleton.mp hm
    exact UInt64.not_le.mp fun hle => horder ⟨b, hb, hle⟩
  · rw [List.length_append, List.length_singleton]
    exact Nat.not_lt.mp hrange
  · intro k hk
    rcases hcases k hk with hk | rfl
    · rw [List.take_append_of_le_length hk]
      exact h.size_le k hk
    · rw [hall]
      exact Nat.not_lt.mp hle
  · intro k hk
    rcases hcases k hk with hk | rfl
    · rw [List.take_append_of_le_length hk]
      exact h.not_exceeds k hk
    · rw [hall]
      exact Bool.eq_false_iff.mpr hnot

/-- **Blocks that are accepted are collected.** -/
theorem collectFrom_append (blocks : List (UInt64 × List Log)) (h : c.Accepts (blocks ++ more)) :
    c.collectFrom (c.after blocks) (more.map .ok ++ rest) =
      c.collectFrom (c.after (blocks ++ more)) rest := by
  induction more generalizing blocks with
  | nil => rw [List.map_nil, List.nil_append, List.append_nil]
  | cons block more ih =>
    have hsplit : blocks ++ block :: more = blocks ++ [block] ++ more := by simp
    rw [hsplit] at h ⊢
    have hnext := h.prefix
    have hall := hnext.increasing
    rw [List.map_append, List.pairwise_append] at hall
    have hlen := hnext.length_lt
    have hrange := hnext.inRange
    rw [List.length_append, List.length_singleton] at hlen hrange
    have hle := hnext.size_le (blocks.length + 1) (by simp)
    have hnot := hnext.not_exceeds (blocks.length + 1) (by simp)
    rw [List.take_of_length_le (by simp)] at hle hnot
    have hpush : c.push (c.after blocks) block = .ok (c.after (blocks ++ [block])) := by
      rw [push_after hall.1 fun _ => ⟨hlen, fun _ => hnext.size_lt⟩, if_neg, if_neg, if_neg]
      · rintro (hlt | hexceeds)
        · omega
        · rw [hnot] at hexceeds
          cases hexceeds
      · omega
      · rintro ⟨b, hb, hle⟩
        exact UInt64.not_le.mpr (hall.2.2 b.1 (List.mem_map_of_mem hb) block.1 (by simp)) hle
    rw [List.map_cons, List.cons_append, Collector.collectFrom, hpush, ok_bind, ih _ h]

/-- **A run in which no count overflows** does not panic, and what it collects is accepted. -/
theorem collectFrom_after (h : c.Accepts blocks) (hfits : c.Fits (blocks.map .ok ++ rest)) :
    (∀ message, c.collectFrom (c.after blocks) rest ≠ .error (.panic message)) ∧
      ∀ logs, c.collectFrom (c.after blocks) rest = .ok (.ok logs) →
        ∃ more, rest = more.map .ok ∧ c.Accepts (blocks ++ more) ∧
          logs = (blocks ++ more).flatMap (·.2) := by
  induction rest generalizing blocks with
  | nil =>
    refine ⟨fun message hcon => (by cases hcon), fun logs hlogs => ⟨[], rfl, ?_, ?_⟩⟩
    · rw [List.append_nil]
      exact h
    · cases hlogs
      rw [List.append_nil]
      rfl
  | cons item rest ih =>
    cases item with
    | error e => exact ⟨fun message hcon => (by cases hcon), fun logs hlogs => (by cases hlogs)⟩
    | ok block =>
      rw [Collector.collectFrom, push_after h.increasing fun horder =>
        hfits blocks block rest rfl h horder]
      split_ifs with horder hrange hlong
      · exact ⟨fun message hcon => (by cases hcon), fun logs hlogs => (by cases hlogs)⟩
      · exact ⟨fun message hcon => (by cases hcon), fun logs hlogs => (by cases hlogs)⟩
      · exact ⟨fun message hcon => (by cases hcon), fun logs hlogs => (by cases hlogs)⟩
      · have hnext := accepts_concat h horder hrange hlong
        rw [ok_bind]
        obtain ⟨hpanic, hlogs⟩ := ih hnext (by simpa using hfits)
        refine ⟨hpanic, fun logs hok => ?_⟩
        obtain ⟨more, hrest, haccepts, hflat⟩ := hlogs logs hok
        refine ⟨block :: more, by rw [hrest, List.map_cons], ?_, ?_⟩
        · simpa using haccepts
        · simpa using hflat

/-- **A run that does not panic**, where overflows are checked, counts nothing wrong. -/
theorem fits_of_collectFrom {stream : List (Except ε (UInt64 × List Log))}
    (hchecks : c.overflowChecks = true)
    (h : ∀ message, c.collectFrom (c.after []) stream ≠ .error (.panic message)) :
    c.Fits stream := by
  rintro blocks block rest rfl haccepts horder
  by_contra hfits
  obtain ⟨message, hpush⟩ := exists_push_eq_panic hchecks haccepts.increasing
    haccepts.length_lt haccepts.size_lt horder hfits
  refine h message ?_
  rw [collectFrom_append [] (by simpa using haccepts), List.nil_append,
    Collector.collectFrom, hpush]
  rfl

/-- Counts fit where all blocks fit. -/
theorem fits_of_lt (all : List (UInt64 × List Log)) (hlen : all.length < UInt64.size)
    (hsize : c.size all < UInt64.size) :
    c.Fits (all.map .ok : List (Except ε (UInt64 × List Log))) := by
  intro blocks block rest hstream _ _
  obtain ⟨init, tail, rfl, hinit, htail⟩ := List.map_eq_append_iff.mp hstream
  obtain ⟨b, more, rfl, hb, -⟩ := List.map_eq_cons_iff.mp htail
  obtain rfl := Except.ok.inj hb
  obtain rfl : init = blocks := List.map_injective_iff.mpr (fun a b h => Except.ok.inj h) hinit
  have hsplit : init ++ b :: more = init ++ [b] ++ more := by simp
  rw [List.length_append, List.length_cons] at hlen
  rw [hsplit, Collector.size, List.flatMap_append, List.map_append, List.sum_append] at hsize
  exact ⟨by omega, fun _ => (Nat.le_add_right _ _).trans_lt hsize⟩

end Run

/-! ### What is promised -/

section Promise

variable {overflowChecks : Bool} {maxResponseSize : UInt32} {fromBlock toBlock : UInt64}
  {stream : List (Except ε (UInt64 × List AlloyLog))}

/-- The length of the logs of some blocks. -/
def sizeOfBlocks (blocks : List (UInt64 × List AlloyLog)) : ℕ :=
  ((blocks.flatMap (·.2)).map jsonSerializedLen).sum

/-- **What is promised of the logs that are collected**, in a build that checks overflows or in one
that does not. -/
structure CollectsWithin (overflowChecks : Bool) (maxResponseSize : UInt32)
    (fromBlock toBlock : UInt64) (stream : List (Except ε (UInt64 × List AlloyLog))) : Prop where
  /-- Nothing overflows. -/
  noOverflow : ∀ message, tryCollectLogsStream true jsonSerializedLen maxResponseSize fromBlock
    toBlock stream ≠ .error (.panic message)
  /-- What is returned is what was read. -/
  collected : ∀ logs, tryCollectLogsStream overflowChecks jsonSerializedLen maxResponseSize
    fromBlock toBlock stream = .ok (.ok logs) →
      ∃ blocks : List (UInt64 × List AlloyLog), stream = blocks.map .ok ∧
        (blocks.map (·.1)).Pairwise (· < ·) ∧
        blocks.length ≤ toBlock.toNat - fromBlock.toNat + 1 ∧
        logs = blocks.flatMap (·.2) ∧ (logs.map jsonSerializedLen).sum ≤ maxResponseSize.toNat
  /-- What is always in proportion to the limit is not refused. -/
  neverRejected : ∀ blocks : List (UInt64 × List AlloyLog), stream = blocks.map .ok →
    (blocks.map (·.1)).Pairwise (· < ·) → blocks.length ≤ toBlock.toNat - fromBlock.toNat + 1 →
    (∀ k ≤ blocks.length, sizeOfBlocks (blocks.take k) * (toBlock.toNat - fromBlock.toNat + 1) ≤
      maxResponseSize.toNat * k) →
    tryCollectLogsStream overflowChecks jsonSerializedLen maxResponseSize fromBlock toBlock
      stream = .ok (.ok (blocks.flatMap (·.2)))

/-- The collector of a request. -/
def collector (overflowChecks : Bool) (maxResponseSize : UInt32) (fromBlock toBlock : UInt64) :
    Collector AlloyLog :=
  ⟨overflowChecks, jsonSerializedLen, maxResponseSize, toBlock + 1 - fromBlock⟩

/-- What is accepted does not depend on the build. -/
theorem accepts_collector {checks : Bool} {blocks : List (UInt64 × List AlloyLog)}
    (h : (collector overflowChecks maxResponseSize fromBlock toBlock).Accepts blocks) :
    (collector checks maxResponseSize fromBlock toBlock).Accepts blocks :=
  ⟨h.increasing, h.inRange, h.size_le, h.not_exceeds⟩

theorem fits_collector (checks : Bool)
    (h : (collector overflowChecks maxResponseSize fromBlock toBlock).Fits stream) :
    (collector checks maxResponseSize fromBlock toBlock).Fits stream :=
  fun blocks block rest hstream haccepts =>
    h blocks block rest hstream (accepts_collector haccepts)

section Range

variable (hrange : fromBlock ≤ toBlock) (hmax : toBlock.toNat < 2 ^ 64 - 1)

include hrange hmax

variable (overflowChecks maxResponseSize) in
/-- The number of blocks of a range fits. -/
theorem numBlocksTotal_collector :
    (collector overflowChecks maxResponseSize fromBlock toBlock).numBlocksTotal.toNat =
      toBlock.toNat - fromBlock.toNat + 1 := by
  have hle := UInt64.le_iff_toNat_le.mp hrange
  have hnext : (toBlock + 1).toNat = toBlock.toNat + 1 := by
    refine toNat_add_of_lt ?_
    change toBlock.toNat + 1 < 2 ^ 64
    omega
  change (toBlock + 1 - fromBlock).toNat = _
  rw [UInt64.toNat_sub_of_le _ _ (by rw [UInt64.le_iff_toNat_le, hnext]; omega), hnext]
  omega

theorem tryCollectLogsStream_eq :
    tryCollectLogsStream overflowChecks jsonSerializedLen maxResponseSize fromBlock toBlock
      stream = (collector overflowChecks maxResponseSize fromBlock toBlock).collectFrom
        ((collector overflowChecks maxResponseSize fromBlock toBlock).after []) stream := by
  have hle := UInt64.le_iff_toNat_le.mp hrange
  have hfit : toBlock.toNat + (1 : UInt64).toNat < UInt64.size := by
    change toBlock.toNat + 1 < 2 ^ 64
    omega
  rw [tryCollectLogsStream, addU64_of_lt hfit, ok_bind, subU64_of_le, ok_bind]
  · rfl
  · rw [UInt64.le_iff_toNat_le, toNat_add_of_lt hfit]
    exact hle.trans (Nat.le_add_right _ _)

/-- **What is in proportion to the limit is accepted.** -/
theorem accepts_of_proportional {blocks : List (UInt64 × List AlloyLog)}
    (hincreasing : (blocks.map (·.1)).Pairwise (· < ·))
    (hlen : blocks.length ≤ toBlock.toNat - fromBlock.toNat + 1)
    (h : ∀ k ≤ blocks.length, sizeOfBlocks (blocks.take k) *
      (toBlock.toNat - fromBlock.toNat + 1) ≤ maxResponseSize.toNat * k) :
    (collector overflowChecks maxResponseSize fromBlock toBlock).Accepts blocks := by
  have htotal := numBlocksTotal_collector overflowChecks maxResponseSize hrange hmax
  set total := toBlock.toNat - fromBlock.toNat + 1
  have hscaled : ∀ k ≤ blocks.length, maxResponseSize.toNat * k ≤ total * maxResponseSize.toNat :=
    fun k hk => by
      rw [Nat.mul_comm total]
      exact Nat.mul_le_mul_left _ (hk.trans hlen)
  constructor
  · exact hincreasing
  · rw [htotal]
    exact hlen
  · intro k hk
    refine Nat.le_of_mul_le_mul_right (((h k hk).trans (hscaled k hk)).trans ?_)
      (Nat.succ_pos (toBlock.toNat - fromBlock.toNat))
    exact (Nat.mul_comm _ _).le
  · intro k hk
    rw [Collector.exceeds, htotal, ResponseLimit.extrapolationExceeds, Bool.and_eq_false_imp]
    intro hmin
    have hpos : 0 < k := by
      have hk := ((Bool.and_eq_true _ _).mp hmin).2
      have := of_decide_eq_true hk
      omega
    rw [decide_eq_false_iff_not, Nat.not_lt]
    -- What is expected is at most the limit, and the threshold at least.
    have hexpected : saturatingMul (sizeOfBlocks (blocks.take k)) total / k ≤
        maxResponseSize.toNat := by
      refine Nat.div_le_of_le_mul ((Nat.min_le_left _ _).trans ((h k hk).trans ?_))
      exact (Nat.mul_comm _ _).le
    have hlimit : saturatingMul maxResponseSize.toNat k / total ≤ maxResponseSize.toNat :=
      Nat.div_le_of_le_mul ((Nat.min_le_left _ _).trans (hscaled k hk))
    change saturatingMul (sizeOfBlocks (blocks.take k)) total / k ≤
      maxResponseSize.toNat * 2 - saturatingMul maxResponseSize.toNat k / total
    omega

variable (overflowChecks maxResponseSize) in
theorem accepts_nil :
    (collector overflowChecks maxResponseSize fromBlock toBlock).Accepts [] :=
  accepts_of_proportional hrange hmax List.Pairwise.nil (Nat.zero_le _) fun k hk => by
    rw [Nat.le_zero.mp hk]
    simp [sizeOfBlocks]

/-- Where nothing overflows, the counts fit. -/
theorem CollectsWithin.fits
    (h : CollectsWithin overflowChecks maxResponseSize fromBlock toBlock stream) :
    (collector overflowChecks maxResponseSize fromBlock toBlock).Fits stream := by
  refine fits_collector _ (fits_of_collectFrom (c := collector true maxResponseSize fromBlock
    toBlock) rfl fun message => ?_)
  rw [← tryCollectLogsStream_eq hrange hmax]
  exact h.noOverflow message

/-- **Logs are collected as promised** if and only if neither the lengths nor the blocks overflow
their counts. -/
theorem collectsWithin_iff :
    CollectsWithin overflowChecks maxResponseSize fromBlock toBlock stream ↔
      (collector overflowChecks maxResponseSize fromBlock toBlock).Fits stream := by
  constructor
  · exact fun h => h.fits hrange hmax
  · intro hfits
    have hrun := fun checks => collectFrom_after
      (accepts_nil checks maxResponseSize hrange hmax) (fits_collector checks hfits)
    refine ⟨fun message => ?_, fun logs hlogs => ?_, fun blocks hstream hincreasing hlen h => ?_⟩
    · rw [tryCollectLogsStream_eq hrange hmax]
      exact (hrun true).1 message
    · rw [tryCollectLogsStream_eq hrange hmax] at hlogs
      obtain ⟨blocks, hstream, haccepts, rfl⟩ := (hrun overflowChecks).2 logs hlogs
      rw [List.nil_append] at haccepts ⊢
      have hsize := haccepts.size_le blocks.length le_rfl
      rw [List.take_length] at hsize
      refine ⟨blocks, hstream, haccepts.increasing, ?_, rfl, hsize⟩
      rw [← numBlocksTotal_collector overflowChecks maxResponseSize hrange hmax]
      exact haccepts.inRange
    · have haccepts : (collector overflowChecks maxResponseSize fromBlock toBlock).Accepts blocks :=
        accepts_of_proportional hrange hmax hincreasing hlen h
      rw [tryCollectLogsStream_eq hrange hmax, hstream, ← List.append_nil (blocks.map Except.ok),
        collectFrom_append [] haccepts]
      rfl

end Range

end Promise

/-! ### A small and a large block -/

/-- A log without topics, with `n` bytes of data. -/
def sampleLog (n : ℕ) : AlloyLog where
  inner := ⟨⟨List.replicate 20 1, rfl⟩, [], List.replicate n 0⟩
  blockHash := none
  blockNumber := none
  blockTimestamp := none
  transactionHash := none
  transactionIndex := none
  logIndex := none
  removed := false

/-- Two blocks, with a log in the first. -/
def sampleStream : List (Except Unit (UInt64 × List AlloyLog)) :=
  [.ok (5, [sampleLog 0]), .ok (6, [])]

theorem collectsWithin_sampleStream : CollectsWithin false 1000 5 6 sampleStream :=
  (collectsWithin_iff (by decide) (by decide)).mpr
    (fits_of_lt [(5, [sampleLog 0]), (6, [])] (by decide) (by decide +kernel))

/-- `n` logs with `m` bytes of data each take more than their data, in hexadecimal. -/
theorem le_sizeOfBlocks_replicate (number : UInt64) (n m : ℕ) :
    n * (2 * m) ≤ sizeOfBlocks [(number, List.replicate n (sampleLog m))] := by
  have hlog : 2 * m ≤ jsonSerializedLen (sampleLog m) := by
    have hdata : (sampleLog m).inner.data.length = m := List.length_replicate
    change 2 * m ≤ _ + _ + _ + _ + 2 * (sampleLog m).inner.data.length + _ + _ + _ + _ + _
    omega
  rw [sizeOfBlocks]
  simp only [List.flatMap_singleton, List.map_replicate, List.sum_replicate, smul_eq_mul]
  exact Nat.mul_le_mul_left _ hlog

/-- A block with `2 ^ 28` logs, of `2 ^ 35` bytes of data each. -/
def hugeStream : List (Except Unit (UInt64 × List AlloyLog)) :=
  [.ok (0, List.replicate (2 ^ 28) (sampleLog (2 ^ 35)))]

/-- The sum of the lengths overflows. -/
theorem not_collectsWithin_hugeStream : ¬CollectsWithin false 1000 0 0 hugeStream := by
  intro h
  have hfits := (h.fits (by decide) (by decide) [] _ [] rfl
    (accepts_nil _ _ (by decide) (by decide))
    fun b hb => (by cases hb)).2 (by decide)
  have hle := le_sizeOfBlocks_replicate 0 (2 ^ 28) (2 ^ 35)
  exact absurd (hle.trans_lt hfits) (by decide)

end CollectLogs

end Rpc

end MonadServices
