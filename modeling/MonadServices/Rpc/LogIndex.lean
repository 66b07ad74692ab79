import MonadServices.Rpc.CallTree

/-!
# The indices of the logs of a trace

When the tree of the calls is built, its logs are collected by references, in the order in which
they were emitted, and each gets its place among them for its index. To see that this is the
right order we also collect the logs themselves (`MonadServices.Rpc.CallTree.emitted`): in the tree
that is returned, their indices are `0`, `1`, and so on
(`MonadServices.Rpc.CallTree.map_index_emitted_buildCallTree`), and every frame has its logs around
those of its calls, by their positions (`MonadServices.Rpc.CallTree.emittedFrom_split`).
-/

namespace MonadServices

namespace Rpc

namespace CallTree

/-! ### The logs as they were emitted -/

mutual

/-- The logs of a tree in the order in which they were emitted. -/
def emitted : MonadCallFrame → List MonadCallFrameLog
  | .node frame calls => emittedFrom 0 frame.logs calls

/-- Logs of a frame, and those of its calls from number `c` on. -/
def emittedFrom (c : ℕ) (logs : List MonadCallFrameLog) :
    List MonadCallFrame → List MonadCallFrameLog
  | [] => logs
  | call :: calls =>
    let n := logsBefore c logs
    logs.take n ++ emitted call ++ emittedFrom (c + 1) (logs.drop n) calls

end

/-- All logs of a tree, frame by frame. -/
def logsOf (t : MonadCallFrame) : List MonadCallFrameLog := t.preorder.flatMap Frame.logs

section Emitted

variable {c k n : ℕ} {logs : List MonadCallFrameLog} {calls : List MonadCallFrame}
  {t call : MonadCallFrame}

theorem take_logsBefore (c : ℕ) (logs : List MonadCallFrameLog) :
    logs.take (logsBefore c logs) = logs.takeWhile fun log => log.position.toNat ≤ c :=
  (List.prefix_iff_eq_take.mp (List.takeWhile_prefix _)).symm

theorem drop_logsBefore (c : ℕ) (logs : List MonadCallFrameLog) :
    logs.drop (logsBefore c logs) = logs.dropWhile fun log => log.position.toNat ≤ c := by
  have h := List.take_append_drop (logsBefore c logs) logs
  rw [take_logsBefore] at h
  exact List.append_cancel_left (h.trans List.takeWhile_append_dropWhile.symm)

/-- The logs before a call have small positions. -/
theorem position_le_of_mem_take {log : MonadCallFrameLog}
    (h : log ∈ logs.take (logsBefore c logs)) : log.position.toNat ≤ c := by
  rw [take_logsBefore] at h
  have hlog := List.mem_takeWhile_imp
    (p := fun l : MonadCallFrameLog => decide (l.position.toNat ≤ c)) h
  exact of_decide_eq_true hlog

/-- The positions of logs do not decrease. -/
def Nondecreasing (logs : List MonadCallFrameLog) : Prop :=
  (logs.map fun log => log.position.toNat).Pairwise (· ≤ ·)

/-- **If positions do not decrease**, the other logs have large ones. -/
theorem lt_position_of_mem_drop (h : Nondecreasing logs) {log : MonadCallFrameLog}
    (hmem : log ∈ logs.drop (logsBefore c logs)) : c < log.position.toNat := by
  rw [drop_logsBefore] at hmem
  induction logs with
  | nil => cases hmem
  | cons first logs ih =>
    obtain ⟨hfirst, htail⟩ := List.pairwise_cons.mp h
    rw [List.dropWhile_cons] at hmem
    split at hmem
    · exact ih htail hmem
    · rename_i hlarge
      have hlarge : c < first.position.toNat := by simpa using hlarge
      rcases List.mem_cons.mp hmem with rfl | hmem
      · exact hlarge
      · exact hlarge.trans_le (hfirst _ (List.mem_map_of_mem hmem))

theorem Nondecreasing.drop (h : Nondecreasing logs) (n : ℕ) : Nondecreasing (logs.drop n) :=
  h.sublist ((List.drop_sublist n logs).map _)

/-- A frame emits its logs in order. -/
theorem sublist_emittedFrom (c : ℕ) (logs : List MonadCallFrameLog)
    (calls : List MonadCallFrame) : logs.Sublist (emittedFrom c logs calls) := by
  induction calls generalizing c logs with
  | nil => exact .refl _
  | cons call calls ih =>
    conv_lhs => rw [← List.take_append_drop (logsBefore c logs) logs]
    rw [emittedFrom]
    exact (List.sublist_append_left _ _).append (ih _ _)

/-- The logs of a call are emitted in one go. -/
theorem emitted_sublist_emittedFrom (c : ℕ) (logs : List MonadCallFrameLog)
    (hmem : call ∈ calls) : (emitted call).Sublist (emittedFrom c logs calls) := by
  induction calls generalizing c logs with
  | nil => cases hmem
  | cons first calls ih =>
    rw [emittedFrom]
    rcases List.mem_cons.mp hmem with rfl | hmem
    · exact (List.sublist_append_right _ _).trans (List.sublist_append_left _ _)
    · exact (ih _ _ hmem).trans (List.sublist_append_right _ _)

theorem emitted_sublist_of_at? {path : List ℕ} {u : MonadCallFrame} (h : t.at? path = some u) :
    (emitted u).Sublist (emitted t) := by
  refine Tree.at?_induction (P := fun u t => (emitted u).Sublist (emitted t)) (fun t => .refl _)
    (fun frame calls call u hmem hsub => hsub.trans ?_) h
  rw [emitted]
  exact emitted_sublist_emittedFrom 0 frame.logs hmem

mutual

/-- **Every log is emitted once.** -/
theorem emitted_perm : ∀ t : MonadCallFrame, (emitted t).Perm (logsOf t)
  | .node frame calls => by
    rw [emitted, logsOf, Tree.preorder, List.flatMap_cons]
    exact emittedFrom_perm 0 frame.logs calls

theorem emittedFrom_perm (c : ℕ) (logs : List MonadCallFrameLog) :
    ∀ calls : List MonadCallFrame, (emittedFrom c logs calls).Perm
      (logs ++ (Tree.preorderAll calls).flatMap Frame.logs)
  | [] => by
    rw [emittedFrom, Tree.preorderAll, List.flatMap_nil, List.append_nil]
  | call :: calls => by
    rw [emittedFrom, Tree.preorderAll, List.flatMap_append]
    have hcall := emitted_perm call
    rw [logsOf] at hcall
    have hrest := emittedFrom_perm (c + 1) (logs.drop (logsBefore c logs)) calls
    -- The logs after the call are brought before it.
    refine ((hcall.append_left (logs.take (logsBefore c logs))).append hrest).trans ?_
    conv_rhs => rw [← List.take_append_drop (logsBefore c logs) logs]
    rw [List.append_assoc, List.append_assoc]
    exact (List.perm_append_comm_assoc _ _ _).append_left _

end

/-- **Where the logs of a call are**: the logs of the frame whose positions say so come before them,
and the others after. -/
theorem emittedFrom_split (hpositions : Nondecreasing logs) (hcall : calls[k]? = some call) :
    ∃ pre post, emittedFrom c logs calls = pre ++ emitted call ++ post ∧
      ∀ log ∈ logs, (log.position.toNat ≤ c + k → log ∈ pre) ∧
        (c + k < log.position.toNat → log ∈ post) := by
  induction calls generalizing c k logs with
  | nil => cases hcall
  | cons first calls ih =>
    rw [emittedFrom]
    have hmem : ∀ log ∈ logs, log ∈ logs.take (logsBefore c logs) ∨
        log ∈ logs.drop (logsBefore c logs) := by
      intro log hlog
      rw [← List.mem_append, List.take_append_drop]
      exact hlog
    cases k with
    | zero =>
      obtain rfl := Option.some.inj hcall
      refine ⟨_, _, rfl, fun log hlog => ⟨fun hle => ?_, fun hlt => ?_⟩⟩
      · refine (hmem log hlog).resolve_right fun hdrop => ?_
        exact Nat.not_lt.mpr hle (lt_position_of_mem_drop hpositions hdrop)
      · refine (sublist_emittedFrom _ _ _).subset ((hmem log hlog).resolve_left fun htake => ?_)
        exact Nat.not_lt.mpr (position_le_of_mem_take htake) hlt
    | succ k =>
      obtain ⟨pre, post, hsplit, hlogs⟩ := ih (c := c + 1) (hpositions.drop (logsBefore c logs))
        hcall
      refine ⟨logs.take (logsBefore c logs) ++ emitted first ++ pre, post, ?_,
        fun log hlog => ⟨fun hle => ?_, fun hlt => ?_⟩⟩
      · rw [hsplit]
        simp only [List.append_assoc]
      · rcases hmem log hlog with htake | hdrop
        · exact List.mem_append_left _ (List.mem_append_left _ htake)
        · exact List.mem_append_right _ ((hlogs log hdrop).1 (by omega))
      · refine (hlogs log ((hmem log hlog).resolve_left fun htake => ?_)).2 (by omega)
        have := position_le_of_mem_take htake
        omega

end Emitted

/-! ### The references to the logs -/

section References

variable {c k n : ℕ} {logs logs' : List MonadCallFrameLog}

theorem take_ownLogs (k : ℕ) {m : ℕ} (h : n ≤ m) : (ownLogs k m).take n = ownLogs k n := by
  rw [ownLogs, ← List.map_take, List.take_range'_of_length_ge h, ownLogs]

theorem drop_ownLogs (k m n : ℕ) : (ownLogs k m).drop n = ownLogs (k + n) (m - n) := by
  rw [ownLogs, ← List.map_drop, List.drop_range', Nat.mul_one, ownLogs]

theorem logsBefore_le (c : ℕ) (logs : List MonadCallFrameLog) : logsBefore c logs ≤ logs.length :=
  (List.takeWhile_prefix _).length_le

theorem logsBefore_congr
    (h : logs'.map MonadCallFrameLog.position = logs.map MonadCallFrameLog.position) :
    logsBefore c logs' = logsBefore c logs := by
  have hmap : ∀ logs : List MonadCallFrameLog, logsBefore c logs =
      ((logs.map MonadCallFrameLog.position).takeWhile fun p => p.toNat ≤ c).length := by
    intro logs
    rw [List.takeWhile_map, List.length_map]
    rfl
  rw [hmap, hmap, h]

theorem mem_ownLogs {ref : LogRef} :
    ref ∈ ownLogs k n ↔ ref.path = [] ∧ k ≤ ref.log ∧ ref.log < k + n := by
  obtain ⟨path, log⟩ := ref
  rw [ownLogs, List.mem_map]
  constructor
  · rintro ⟨i, hi, h⟩
    rw [LogRef.mk.injEq] at h
    obtain ⟨rfl, rfl⟩ := h
    exact ⟨rfl, List.mem_range'_1.mp hi⟩
  · rintro ⟨rfl, hlog⟩
    exact ⟨log, List.mem_range'_1.mpr hlog, rfl⟩

theorem nodup_ownLogs (k n : ℕ) : (ownLogs k n).Nodup := by
  refine List.Nodup.map (fun i j h => ?_) List.nodup_range'
  exact (LogRef.mk.inj h).2

theorem under_injective (c : ℕ) : Function.Injective (LogRef.under c) := by
  rintro ⟨path, log⟩ ⟨path', log'⟩ h
  obtain ⟨hpath, hlog⟩ := LogRef.mk.inj h
  exact LogRef.mk.injEq _ _ _ _ ▸ ⟨(List.cons.inj hpath).2, hlog⟩

/-- What is collected from a frame are its own logs, and those of its calls. -/
theorem path_of_mem_extendCalls {ref : LogRef} {calls : List MonadCallFrame}
    (h : ref ∈ extendCalls c k logs calls) :
    (ref.path = [] ∧ k ≤ ref.log) ∨ ∃ c' path, c ≤ c' ∧ ref.path = c' :: path := by
  have hown : ∀ {n}, ref ∈ ownLogs k n → ref.path = [] ∧ k ≤ ref.log := fun hmem =>
    ⟨(mem_ownLogs.mp hmem).1, (mem_ownLogs.mp hmem).2.1⟩
  induction calls generalizing c k logs with
  | nil => exact .inl (hown h)
  | cons call calls ih =>
    rw [extendCalls, List.mem_append, List.mem_append] at h
    rcases h with (h | h) | h
    · exact .inl (hown h)
    · obtain ⟨ref, -, rfl⟩ := List.mem_map.mp h
      exact .inr ⟨c, ref.path, le_rfl, rfl⟩
    · rcases ih h fun hmem => ⟨(mem_ownLogs.mp hmem).1, (mem_ownLogs.mp hmem).2.1⟩ with
        ⟨hpath, hlog⟩ | ⟨c', path, hc, hpath⟩
      · exact .inl ⟨hpath, by omega⟩
      · exact .inr ⟨c', path, by omega, hpath⟩

mutual

/-- **No log is collected twice.** -/
theorem nodup_extendLogsByEmitOrder : ∀ t : MonadCallFrame, (extendLogsByEmitOrder t).Nodup
  | .node frame calls => by
    rw [extendLogsByEmitOrder]
    exact nodup_extendCalls 0 0 frame.logs calls

theorem nodup_extendCalls (c k : ℕ) (logs : List MonadCallFrameLog) :
    ∀ calls : List MonadCallFrame, (extendCalls c k logs calls).Nodup
  | [] => nodup_ownLogs k logs.length
  | call :: calls => by
    have hcall : ((extendLogsByEmitOrder call).map (LogRef.under c)).Nodup :=
      (nodup_extendLogsByEmitOrder call).map (under_injective c)
    have hpath : ∀ ref ∈ (extendLogsByEmitOrder call).map (LogRef.under c),
        ∃ path, ref.path = c :: path := by
      intro ref hmem
      obtain ⟨ref, -, rfl⟩ := List.mem_map.mp hmem
      exact ⟨ref.path, rfl⟩
    rw [extendCalls]
    refine ((nodup_ownLogs k _).append hcall fun ref hown hmem => ?_).append
      (nodup_extendCalls (c + 1) _ _ calls) fun ref hfirst hrest => ?_
    · obtain ⟨path, hpath⟩ := hpath ref hmem
      rw [(mem_ownLogs.mp hown).1] at hpath
      cases hpath
    · rcases List.mem_append.mp hfirst with hown | hmem
      · obtain ⟨hnil, -, hlt⟩ := mem_ownLogs.mp hown
        rcases path_of_mem_extendCalls hrest with ⟨-, hge⟩ | ⟨c', path, -, hcons⟩
        · omega
        · rw [hnil] at hcons
          cases hcons
      · obtain ⟨path, hpath⟩ := hpath ref hmem
        rcases path_of_mem_extendCalls hrest with ⟨hnil, -⟩ | ⟨c', path', hc, hcons⟩
        · rw [hnil] at hpath
          cases hpath
        · rw [hpath, List.cons.injEq] at hcons
          omega

end

mutual

/-- **The logs of a tree with its indices** are emitted in the order of the references to them. -/
theorem map_index_emitted (index : LogRef → ℕ) : ∀ t : MonadCallFrame,
    (emitted (setIndices index t)).map MonadCallFrameLog.index =
      (extendLogsByEmitOrder t).map index
  | .node frame calls => by
    rw [setIndices, emitted, extendLogsByEmitOrder]
    refine map_index_emittedFrom index 0 0 frame.logs _ ?_ ?_ calls
    · refine List.ext_getElem? fun i => ?_
      rw [List.getElem?_map, List.getElem?_mapIdx, List.getElem?_map, Option.map_map]
      rfl
    · refine List.ext_getElem (by simp [ownLogs]) fun i hi hi' => ?_
      rw [List.getElem_map, List.getElem_mapIdx]
      simp [ownLogs]

theorem map_index_emittedFrom (index : LogRef → ℕ) (c k : ℕ)
    (logs logs' : List MonadCallFrameLog)
    (hposition : logs'.map MonadCallFrameLog.position = logs.map MonadCallFrameLog.position)
    (hindex : logs'.map MonadCallFrameLog.index = (ownLogs k logs.length).map index) :
    ∀ calls : List MonadCallFrame,
      (emittedFrom c logs' (setIndicesFrom index c calls)).map MonadCallFrameLog.index =
        (extendCalls c k logs calls).map index
  | [] => hindex
  | call :: calls => by
    have hcall := map_index_emitted (fun ref => index (ref.under c)) call
    have hn := logsBefore_congr (c := c) hposition
    have hrest := map_index_emittedFrom index (c + 1) (k + logsBefore c logs)
      (logs.drop (logsBefore c logs)) (logs'.drop (logsBefore c logs))
      (by rw [List.map_drop, hposition, List.map_drop])
      (by rw [List.map_drop, hindex, ← List.map_drop, drop_ownLogs, List.length_drop]) calls
    rw [setIndicesFrom, emittedFrom, extendCalls, hn, List.map_append, List.map_append,
      List.map_append, List.map_append, hcall, hrest, List.map_take, hindex, ← List.map_take,
      take_ownLogs k (logsBefore_le c logs), List.map_map]
    rfl

end

end References

/-! ### The order of the indices -/

/-- Whether the positions of the logs of each frame do not decrease. -/
def NondecreasingPositions (root : MonadCallFrame) : Prop :=
  ∀ frame ∈ root.preorder, Nondecreasing frame.logs

instance (logs : List MonadCallFrameLog) : Decidable (Nondecreasing logs) :=
  inferInstanceAs (Decidable (List.Pairwise (· ≤ ·) _))

instance (root : MonadCallFrame) : Decidable (NondecreasingPositions root) :=
  inferInstanceAs (Decidable (∀ frame ∈ root.preorder, Nondecreasing frame.logs))

/-- **What is expected of the indices of the logs of a tree.** -/
structure FollowEmitOrder (root : MonadCallFrame) : Prop where
  /-- The logs have the indices from `0` on, each once. -/
  bijection : ((logsOf root).map (·.index)).Perm (List.range (logsOf root).length)
  /-- The indices in a frame increase. -/
  earlier : ∀ path frame calls, root.at? path = some (.node frame calls) →
    (frame.logs.map (·.index)).Pairwise (· < ·)
  /-- A log of a frame is before one of a call from it if its position says so. -/
  call : ∀ path frame calls c call, root.at? path = some (.node frame calls) →
    calls[c]? = some call → ∀ log ∈ frame.logs, ∀ log' ∈ logsOf call,
      (log.index < log'.index ↔ log.position.toNat ≤ c)

section Order

variable {env : Env} {frames : List Archive.CallFrame} {root : MonadCallFrame}

/-- **The logs of a tree that is built are indexed as they were emitted.** -/
theorem map_index_emitted_buildCallTree (h : buildCallTree env frames = some root) :
    (emitted root).map (·.index) = List.range (logsOf root).length := by
  obtain ⟨t, -, rfl⟩ := Option.map_eq_some_iff.mp h
  set refs := extendLogsByEmitOrder t
  have hindex := map_index_emitted (fun ref => refs.idxOf ref) t
  have hlen : (logsOf (setIndices (fun ref => refs.idxOf ref) t)).length = refs.length := by
    rw [← (emitted_perm _).length_eq, ← List.length_map, hindex, List.length_map]
  rw [hlen, hindex]
  refine List.ext_getElem (by simp [refs]) fun i hi hi' => ?_
  rw [List.getElem_map, List.getElem_range]
  exact (nodup_extendLogsByEmitOrder t).idxOf_getElem i _

/-- The logs that are emitted from a frame and its calls have increasing indices. -/
theorem pairwise_emitted_of_at? (h : buildCallTree env frames = some root) {path : List ℕ}
    {t : MonadCallFrame} (hpath : root.at? path = some t) :
    ((emitted t).map (·.index)).Pairwise (· < ·) := by
  have hroot : ((emitted root).map (·.index)).Pairwise (· < ·) := by
    rw [map_index_emitted_buildCallTree h]
    exact List.pairwise_lt_range
  exact hroot.sublist ((emitted_sublist_of_at? hpath).map _)

/-- **The logs of a tree of calls have the numbers in the order in which they were emitted.** -/
theorem followEmitOrder_of_buildCallTree (h : buildCallTree env frames = some root)
    (hpositions : NondecreasingPositions root) : FollowEmitOrder root where
  bijection := by
    rw [← map_index_emitted_buildCallTree h]
    exact ((emitted_perm root).map _).symm
  earlier path frame calls hpath := by
    have hincreasing := pairwise_emitted_of_at? h hpath
    rw [emitted] at hincreasing
    exact hincreasing.sublist ((sublist_emittedFrom 0 frame.logs calls).map _)
  call path frame calls c call hpath hcall log hlog log' hlog' := by
    have hframe : Nondecreasing frame.logs :=
      hpositions frame ((Tree.preorder_sublist_of_at? hpath).subset (List.mem_cons_self ..))
    obtain ⟨pre, post, hsplit, hsides⟩ := emittedFrom_split (c := 0) hframe hcall
    have hincreasing := pairwise_emitted_of_at? h hpath
    rw [emitted, hsplit, List.map_append, List.map_append, List.pairwise_append,
      List.pairwise_append] at hincreasing
    obtain ⟨⟨-, -, hbefore⟩, -, hafter⟩ := hincreasing
    have hmem : log' ∈ emitted call := (emitted_perm call).mem_iff.mpr hlog'
    obtain ⟨hpre, hpost⟩ := hsides log hlog
    rw [Nat.zero_add] at hpre hpost
    constructor
    · intro hlt
      by_contra hgt
      -- The log would be emitted after the call.
      have := hafter _ (List.mem_append_right _ (List.mem_map_of_mem hmem)) _
        (List.mem_map_of_mem (hpost (Nat.not_le.mp hgt)))
      omega
    · intro hle
      exact hbefore _ (List.mem_map_of_mem (hpre hle)) _ (List.mem_map_of_mem hmem)

end Order

/-! ### Frames with logs -/

/-- A frame with logs at some positions. -/
def makeFrameWithPositions (depth : UInt64) (positions : List UInt64) : Archive.CallFrame :=
  { sampleCall depth with
    logs := some (positions.map fun position => ⟨⟨(sampleCall depth).caller, [], []⟩, position⟩) }

/-- A call with a call, and a further call. -/
def nestedCalls : List Archive.CallFrame :=
  [makeFrameWithPositions 1 [0, 2], makeFrameWithPositions 2 [0, 1, 1],
    makeFrameWithPositions 3 [0], makeFrameWithPositions 2 [0, 0]]

/-- The indices of `nestedCalls`, frame by frame. -/
example : (buildCallTree sampleEnv nestedCalls).map (fun root =>
    root.preorder.map fun frame => frame.logs.map (·.index)) =
      some [[0, 7], [1, 3, 4], [2], [5, 6]] := by
  decide

theorem followEmitOrder_nestedCalls :
    ∃ root, buildCallTree sampleEnv nestedCalls = some root ∧ FollowEmitOrder root := by
  obtain ⟨root, hroot⟩ : ∃ root, buildCallTree sampleEnv nestedCalls = some root := ⟨_, rfl⟩
  have hpositions : (buildCallTree sampleEnv nestedCalls).all
      (fun root => decide (NondecreasingPositions root)) = true := by
    decide
  rw [hroot, Option.all_some, decide_eq_true_eq] at hpositions
  exact ⟨root, hroot, followEmitOrder_of_buildCallTree hroot hpositions⟩

/-- A log after a call that has no logs: its index is smaller than all of those, but its position
is not before the call. -/
theorem not_iff_of_silentCall : ∃ root,
    buildCallTree sampleEnv [makeFrameWithPositions 1 [1], makeFrameWithPositions 2 []] =
      some root ∧ NondecreasingPositions root ∧
    ¬∀ path frame calls c call, root.at? path = some (.node frame calls) →
      calls[c]? = some call → ∀ log ∈ frame.logs,
        ((∀ log' ∈ logsOf call, log.index < log'.index) ↔ log.position.toNat ≤ c) := by
  refine ⟨_, rfl, by decide, fun h => ?_⟩
  have hle := (h [] _ _ 0 _ rfl rfl _ (List.mem_singleton_self _)).mp fun log' hlog' => by
    cases hlog'
  exact absurd hle (by decide)

end CallTree

end Rpc

end MonadServices
