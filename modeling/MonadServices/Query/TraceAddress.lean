import MonadServices.Lib.DepthList
import MonadServices.Lib.Result
import MonadServices.Query.Tables

/-!
# Trace addresses

The frames of a transaction are stored in the order in which they were called, each with its
depth. When a block is indexed, `compute_trace_addresses` works out for each frame the path that
leads to it from the top: it keeps the path of the last frame, and for each level a counter of
the siblings so far.

What it gives are the addresses of a tree that is listed by depth
(`MonadServices.DepthList.address`). The counters are of 32 bits, and one is incremented for
every frame, also for the last one: **a frame with too many siblings before it** makes it panic
in one build, and in the other has the address of an earlier frame. Otherwise it succeeds exactly
on the lists of depths that list a forest, with the addresses in it
(`MonadServices.Query.computeTraceAddresses_exact_iff`).
-/

namespace MonadServices

namespace Query

open DepthList

/-! ### The computation -/

/-- The state of the fold over the depths. -/
structure AddressState where
  path : List UInt32
  siblingCounters : List UInt32
  addresses : List (List UInt32)
  seenRoot : Bool

/-- Adds one to a counter. The build decides whether an overflow is checked. -/
def increment (overflowChecks : Bool) (counter : UInt32) : Except Stop UInt32 :=
  if overflowChecks ∧ counter = 0xffffffff then .error (.panic "attempt to add with overflow")
  else .ok (counter + 1)

/-- One frame. -/
def AddressState.push (overflowChecks : Bool) (s : AddressState) (depth : UInt32) :
    Except Stop AddressState :=
  let depth := depth.toNat
  if depth = 0 then
    .ok ⟨[], [], s.addresses ++ [[]], true⟩
  else if !s.seenRoot then
    .error (.error (.invalidBlock "trace_address: first frame must have depth 0"))
  else if s.path.length + 1 < depth then
    .error (.error (.invalidBlock "trace_address: depth skipped a level"))
  else
    let path := s.path.take (depth - 1)
    let counters := s.siblingCounters.take depth
    -- Resized, if it is shorter, to the depth, so that there is a counter for it.
    let counters := counters ++ List.replicate (depth - counters.length) 0
    let counter := counters.getD (depth - 1) 0
    (increment overflowChecks counter).map fun next =>
      ⟨path ++ [counter], counters.set (depth - 1) next, s.addresses ++ [path ++ [counter]],
        s.seenRoot⟩

/-- **`compute_trace_addresses`**. -/
def computeTraceAddresses (overflowChecks : Bool) (depths : List UInt32) :
    Except Stop (List (List UInt32)) :=
  (depths.foldlM (AddressState.push overflowChecks) ⟨[], [], [], false⟩).map
    AddressState.addresses

/-! ### The run of the fold -/

section Fold

variable {overflowChecks : Bool} {d : ℕ → ℕ} {i : ℕ}

/-- An address, as the code stores it. -/
def stored (a : List ℕ) : List UInt32 := a.map UInt32.ofNat

/-- The state after frame `i`. -/
def AddressState.after (d : ℕ → ℕ) (i : ℕ) : AddressState where
  path := stored (address d i)
  siblingCounters := stored ((address d i).map (· + 1))
  addresses := (List.range (i + 1)).map fun k => stored (address d k)
  seenRoot := true

/-- The last component of an address is the largest that a counter can hold. -/
def Exhausted (a : List ℕ) : Prop := ∃ c ∈ a.getLast?, UInt32.ofNat c = 0xffffffff

/-- Frame `i + 1` is taken: it is not too deep, and its counter can be incremented. -/
def Taken (overflowChecks : Bool) (d : ℕ → ℕ) (i : ℕ) : Prop :=
  d (i + 1) ≤ (address d i).length + 1 ∧
    ¬(overflowChecks = true ∧ Exhausted (address d (i + 1)))

@[simp] theorem length_stored (a : List ℕ) : (stored a).length = a.length := List.length_map _

theorem stored_append (a b : List ℕ) : stored (a ++ b) = stored a ++ stored b :=
  List.map_append

theorem stored_take (a : List ℕ) (m : ℕ) : stored (a.take m) = (stored a).take m :=
  List.map_take

/-- The counter of a frame is the last component of its address. -/
theorem counter_eq {a : List ℕ} {m : ℕ} (hm : m ≤ a.length) :
    (stored (a.map (· + 1))).take (m + 1) ++
        List.replicate (m + 1 - ((stored (a.map (· + 1))).take (m + 1)).length) 0 =
      stored ((a.take m).map (· + 1)) ++
        [UInt32.ofNat (if m < a.length then a.getD m 0 + 1 else 0)] := by
  split_ifs with hlt
  · have htake : a.take (m + 1) = a.take m ++ [a.getD m 0] := by
      rw [List.take_add_one, List.getD_eq_getElem _ _ hlt, List.getElem?_eq_getElem hlt]
      rfl
    have hlen : ((stored (a.map (· + 1))).take (m + 1)).length = m + 1 := by
      rw [List.length_take, length_stored, List.length_map]
      omega
    rw [hlen, Nat.sub_self, List.replicate_zero, List.append_nil, ← stored_take, ← List.map_take,
      htake, List.map_append, stored_append]
    rfl
  · obtain rfl : m = a.length := by omega
    rw [List.take_of_length_le (by simp), List.take_length]
    simp

theorem not_exhausted_nil : ¬Exhausted [] := by
  rintro ⟨c, hc, -⟩
  cases hc

theorem exhausted_append_singleton {a : List ℕ} {c : ℕ} :
    Exhausted (a ++ [c]) ↔ UInt32.ofNat c = 0xffffffff := by
  simp [Exhausted]

theorem increment_eq_ok {counter next : UInt32} : increment overflowChecks counter = .ok next ↔
    ¬(overflowChecks = true ∧ counter = 0xffffffff) ∧ next = counter + 1 := by
  unfold increment
  split_ifs with h
  · simp [h]
  · rw [Except.ok.injEq, and_iff_right h, eq_comm]

/-- The address of a frame that is not on top. -/
theorem address_succ {m : ℕ} (hd : d (i + 1) = m + 1) (hm : m ≤ (address d i).length) :
    address d (i + 1) = (address d i).take m ++
      [if m < (address d i).length then (address d i).getD m 0 + 1 else 0] := by
  rw [address, hd, next, if_neg (Nat.succ_ne_zero m)]
  split_ifs with hle hlt hlt
  · rfl
  · omega
  · omega
  · rw [List.take_of_length_le (by omega)]

theorem AddressState.after_succ (d : ℕ → ℕ) (i : ℕ) : AddressState.after d (i + 1) =
    ⟨stored (address d (i + 1)), stored ((address d (i + 1)).map (· + 1)),
      (AddressState.after d i).addresses ++ [stored (address d (i + 1))], true⟩ := by
  rw [after, List.range_succ, List.map_append]
  rfl

/-- **One step of the fold** goes to the next address, if it goes on. -/
theorem push_after_eq_ok {depth : UInt32} {s : AddressState} (hd : depth.toNat = d (i + 1)) :
    (AddressState.after d i).push overflowChecks depth = .ok s ↔
      Taken overflowChecks d i ∧ s = AddressState.after d (i + 1) := by
  unfold AddressState.push
  rw [hd, AddressState.after_succ]
  cases hm : d (i + 1) with
  | zero =>
    have hnil : address d (i + 1) = [] := by rw [address, hm, next, if_pos rfl]
    have htaken : Taken overflowChecks d i := by
      refine ⟨by omega, fun h => not_exhausted_nil ?_⟩
      rw [← hnil]
      exact h.2
    rw [if_pos rfl, Except.ok.injEq, and_iff_right htaken, hnil, eq_comm]
    rfl
  | succ m =>
    rw [if_neg (Nat.succ_ne_zero m), if_neg (by simp [AddressState.after])]
    by_cases hle : m ≤ (address d i).length
    · -- The counter is the last component of the new address.
      have haddress := address_succ hm hle
      generalize hc : (if m < (address d i).length then (address d i).getD m 0 + 1 else 0) = c
        at haddress
      have hcounters := counter_eq hle
      rw [hc] at hcounters
      have hlen : (stored (((address d i).take m).map (· + 1))).length = m := by
        rw [length_stored, List.length_map, List.length_take]
        omega
      have hpath : (stored (address d i)).take m ++ [UInt32.ofNat c] =
          stored (address d (i + 1)) := by
        rw [haddress, stored_append, stored_take]
        rfl
      have htaken : Taken overflowChecks d i ↔
          ¬(overflowChecks = true ∧ UInt32.ofNat c = 0xffffffff) := by
        rw [Taken, haddress, exhausted_append_singleton, hm]
        exact and_iff_right (Nat.succ_le_succ hle)
      have hshallow : ¬(AddressState.after d i).path.length + 1 < m + 1 := by
        rw [AddressState.after, length_stored]
        omega
      have hcounter : (stored (((address d i).take m).map (· + 1)) ++ [UInt32.ofNat c]).getD m 0 =
          UInt32.ofNat c := by
        rw [List.getD_eq_getElem?_getD, List.getElem?_append_right hlen.le, hlen, Nat.sub_self]
        rfl
      have hset : (stored (((address d i).take m).map (· + 1)) ++ [UInt32.ofNat c]).set m
          (UInt32.ofNat c + 1) = stored ((address d (i + 1)).map (· + 1)) := by
        rw [haddress, List.map_append, stored_append, List.set_append_right _ _ hlen.le, hlen,
          Nat.sub_self]
        simp [stored, UInt32.ofNat_add]
      rw [if_neg hshallow, map_eq_ok, htaken]
      simp only [AddressState.after, Nat.add_sub_cancel, hcounters, hcounter, hpath]
      constructor
      · rintro ⟨next, hnext, rfl⟩
        obtain ⟨hsafe, rfl⟩ := increment_eq_ok.mp hnext
        exact ⟨hsafe, by rw [hset]⟩
      · rintro ⟨hsafe, rfl⟩
        exact ⟨_, increment_eq_ok.mpr ⟨hsafe, rfl⟩, by rw [hset]⟩
    · -- The frame is too deep.
      have hdeep : (AddressState.after d i).path.length + 1 < m + 1 := by
        rw [AddressState.after, length_stored]
        omega
      rw [if_pos hdeep]
      constructor
      · intro h
        cases h
      · rintro ⟨⟨hshallow, -⟩, -⟩
        omega

/-- **A run of the fold** from the state after a frame. -/
theorem foldlM_after_eq_ok {rest : List UInt32} {s : AddressState}
    (hrest : ∀ k < rest.length, (rest.getD k 0).toNat = d (i + 1 + k)) :
    rest.foldlM (AddressState.push overflowChecks) (AddressState.after d i) = .ok s ↔
      (∀ k < rest.length, Taken overflowChecks d (i + k)) ∧
        s = AddressState.after d (i + rest.length) := by
  induction rest generalizing i with
  | nil =>
    rw [List.foldlM_nil]
    simp only [pure, Except.pure, Except.ok.injEq, List.length_nil, Nat.not_lt_zero, false_imp_iff,
      implies_true, true_and, Nat.add_zero]
    exact eq_comm
  | cons depth rest ih =>
    have hdepth : depth.toNat = d (i + 1) := hrest 0 (by simp)
    have htail : ∀ k < rest.length, (rest.getD k 0).toNat = d (i + 1 + 1 + k) := by
      intro k hk
      have hk' := hrest (k + 1) (by simpa using hk)
      rw [show i + 1 + 1 + k = i + 1 + (k + 1) by omega]
      exact hk'
    have hend : i + (depth :: rest).length = i + 1 + rest.length := by
      rw [List.length_cons]
      omega
    rw [List.foldlM_cons, bind_eq_ok, hend]
    constructor
    · rintro ⟨s', hpush, hfold⟩
      obtain ⟨htaken, rfl⟩ := (push_after_eq_ok hdepth).mp hpush
      obtain ⟨hall, hs⟩ := (ih htail).mp hfold
      refine ⟨fun k hk => ?_, hs⟩
      cases k with
      | zero => exact htaken
      | succ k =>
        rw [show i + (k + 1) = i + 1 + k by omega]
        exact hall k (by simpa using hk)
    · rintro ⟨hall, hs⟩
      refine ⟨_, (push_after_eq_ok hdepth).mpr ⟨hall 0 (by simp), rfl⟩, (ih htail).mpr ⟨?_, hs⟩⟩
      intro k hk
      rw [show i + 1 + k = i + (k + 1) by omega]
      exact hall (k + 1) (by simpa using hk)

end Fold

/-! ### The addresses of a list of depths -/

section Depths

variable {overflowChecks : Bool} {depths : List UInt32} {addresses : List (List UInt32)}

/-- The depth of a frame. -/
def depthAt (depths : List UInt32) (i : ℕ) : ℕ := (depths.getD i 0).toNat

/-- The first frame has to be on top. -/
theorem push_first_eq_ok {depth : UInt32} {s : AddressState} (rest : List UInt32) :
    AddressState.push overflowChecks ⟨[], [], [], false⟩ depth = .ok s ↔
      depth.toNat = 0 ∧ s = AddressState.after (depthAt (depth :: rest)) 0 := by
  unfold AddressState.push
  by_cases h : depth.toNat = 0
  · rw [if_pos h, Except.ok.injEq, and_iff_right h, eq_comm]
    rfl
  · rw [if_neg h, if_pos (show (!false) = true from rfl)]
    constructor
    · intro hs
      cases hs
    · rintro ⟨h0, -⟩
      exact absurd h0 h

/-- **When the computation succeeds**, and with what. -/
theorem computeTraceAddresses_eq_ok : computeTraceAddresses overflowChecks depths = .ok addresses ↔
    (0 < depths.length → depthAt depths 0 = 0) ∧
      (∀ i, i + 1 < depths.length → Taken overflowChecks (depthAt depths) i) ∧
      addresses = (List.range depths.length).map fun i => stored (address (depthAt depths) i) := by
  rw [computeTraceAddresses, map_eq_ok]
  cases depths with
  | nil => simp [pure, Except.pure, eq_comm]
  | cons depth rest =>
    have hrest : ∀ k < rest.length,
        (rest.getD k 0).toNat = depthAt (depth :: rest) (0 + 1 + k) := by
      intro k _
      rw [Nat.zero_add, Nat.add_comm 1 k]
      rfl
    rw [List.foldlM_cons]
    constructor
    · rintro ⟨s, hs, rfl⟩
      obtain ⟨s', hfirst, hfold⟩ := bind_eq_ok.mp hs
      obtain ⟨h0, rfl⟩ := (push_first_eq_ok rest).mp hfirst
      obtain ⟨hall, rfl⟩ := (foldlM_after_eq_ok hrest).mp hfold
      refine ⟨fun _ => h0, fun i hi => ?_, ?_⟩
      · have htaken := hall i (by simpa using hi)
        rwa [Nat.zero_add] at htaken
      · rw [Nat.zero_add]
        rfl
    · rintro ⟨h0, hall, rfl⟩
      refine ⟨_, bind_eq_ok.mpr ⟨_, (push_first_eq_ok rest).mpr ⟨h0 (by simp), rfl⟩,
        (foldlM_after_eq_ok hrest).mpr ⟨fun k hk => ?_, rfl⟩⟩, ?_⟩
      · rw [Nat.zero_add]
        exact hall k (by simpa using hk)
      · rw [Nat.zero_add]
        rfl

/-- **A list of depths lists a forest** when it is empty or its first depth is `0`, and each later
depth is at most the one before it plus one. -/
def WellFormed (depths : List UInt32) : Prop := Listing (depthAt depths) depths.length

/-- What is promised of the addresses. -/
structure AreAddresses (depths : List UInt32) (addresses : List (List UInt32)) : Prop where
  length : addresses.length = depths.length
  depth : ∀ i < depths.length, (addresses.getD i []).length = depthAt depths i
  parent : ∀ i < depths.length, 0 < depthAt depths i → ∃ j, Parent (depthAt depths) j i ∧
    (addresses.getD i []).map UInt32.toNat = (addresses.getD j []).map UInt32.toNat ++
      [childrenBefore (depthAt depths) j i]
  distinct : ∀ i k, i < k → k < depths.length → (∀ m ≤ k, i < m → 0 < depthAt depths m) →
    addresses.getD i [] ≠ addresses.getD k []
  increasing : ∀ i k, i < k → k < depths.length → (∀ m ≤ k, i < m → 0 < depthAt depths m) →
    addresses.getD i [] < addresses.getD k []

/-- **What is expected of the computation**: it succeeds exactly on the lists of depths of a forest,
and gives the addresses in it. -/
def ComputesAddresses (overflowChecks : Bool) (depths : List UInt32) : Prop :=
  ((∃ addresses, computeTraceAddresses overflowChecks depths = .ok addresses) ↔
    WellFormed depths) ∧
  ∀ addresses, computeTraceAddresses overflowChecks depths = .ok addresses →
    AreAddresses depths addresses

/-- No frame of a forest has too many siblings before it, for a counter of 32 bits: the build
that checks overflows also counts the frame itself. -/
def FewSiblings (overflowChecks : Bool) (depths : List UInt32) : Prop :=
  WellFormed depths → ∀ j i, i < depths.length → Parent (depthAt depths) j i →
    childrenBefore (depthAt depths) j i + overflowChecks.toNat < 2 ^ 32

/-- **Too many siblings before a frame** show in the last component of its address. -/
theorem exhausted_of_parent {d : ℕ → ℕ} {n i j : ℕ} (h : Listing d n) (hi : i < n)
    (hpar : Parent d j i) :
    Exhausted (address d i) ↔ UInt32.ofNat (childrenBefore d j i) = 0xffffffff := by
  rw [h.address_of_parent hi hpar, exhausted_append_singleton]

/-- **The computation succeeds** on the lists of depths of a forest in which no counter runs out,
and then gives the addresses as they are stored. -/
theorem computeTraceAddresses_eq_ok_iff :
    computeTraceAddresses overflowChecks depths = .ok addresses ↔
      WellFormed depths ∧
      (overflowChecks = true → ∀ i < depths.length, ¬Exhausted (address (depthAt depths) i)) ∧
      addresses = (List.range depths.length).map fun i => stored (address (depthAt depths) i) := by
  rw [computeTraceAddresses_eq_ok, WellFormed, listing_iff_length]
  constructor
  · rintro ⟨hroot, hall, haddresses⟩
    refine ⟨⟨hroot, fun i hi => (hall i hi).1⟩, fun hchecks i hi => ?_, haddresses⟩
    cases i with
    | zero => exact not_exhausted_nil
    | succ i => exact fun hcon => (hall i hi).2 ⟨hchecks, hcon⟩
  · rintro ⟨⟨hroot, hstep⟩, hall, haddresses⟩
    exact ⟨hroot, fun i hi => ⟨hstep i hi, fun hcon => hall hcon.1 (i + 1) hi hcon.2⟩, haddresses⟩

/-- The components of an address are counted exactly when they fit. -/
theorem toNat_stored {a : List ℕ} (h : ∀ c ∈ a, c < 2 ^ 32) : (stored a).map UInt32.toNat = a := by
  rw [stored, List.map_map, List.map_congr_left (g := id), List.map_id]
  intro c hc
  exact UInt32.toNat_ofNat_of_lt' (h c hc)

/-- Addresses are ordered as their components are. -/
theorem lt_of_toNat_lt {a b : List UInt32} (h : a.map UInt32.toNat < b.map UInt32.toNat) :
    a < b := by
  by_contra hcon
  have hle := List.map_le (f := UInt32.toNat) (fun _ _ hxy => hxy) (List.not_lt.mp hcon)
  exact List.not_lt.mpr hle h

/-- With few siblings all components fit. -/
theorem FewSiblings.lt (hfew : FewSiblings overflowChecks depths) (h : WellFormed depths) {i : ℕ}
    (hi : i < depths.length) : ∀ c ∈ address (depthAt depths) i, c < 2 ^ 32 := by
  induction i using Nat.strong_induction_on with
  | _ i ih =>
    rcases Nat.eq_zero_or_pos (depthAt depths i) with hzero | hpos
    · have hnil : address (depthAt depths) i = [] := by
        rw [← List.length_eq_zero_iff, h.length_address hi, hzero]
      simp [hnil]
    · obtain ⟨j, hpar⟩ := h.exists_parent hi hpos
      rw [h.address_of_parent hi hpar]
      intro c hc
      rcases List.mem_append.mp hc with hc | hc
      · exact ih j hpar.1 (hpar.1.trans hi) c hc
      · obtain rfl := List.mem_singleton.mp hc
        have := hfew h j i hi hpar
        omega

/-- With few siblings no counter runs out. -/
theorem FewSiblings.not_exhausted (hfew : FewSiblings overflowChecks depths)
    (h : WellFormed depths) (hchecks : overflowChecks = true) {i : ℕ} (hi : i < depths.length) :
    ¬Exhausted (address (depthAt depths) i) := by
  rcases Nat.eq_zero_or_pos (depthAt depths i) with hzero | hpos
  · have hnil : address (depthAt depths) i = [] := by
      rw [← List.length_eq_zero_iff, h.length_address hi, hzero]
    rw [hnil]
    exact not_exhausted_nil
  · obtain ⟨j, hpar⟩ := h.exists_parent hi hpos
    have hlt := hfew h j i hi hpar
    rw [hchecks, Bool.toNat_true] at hlt
    rw [exhausted_of_parent h hi hpar]
    intro hcon
    have hval := congrArg UInt32.toNat hcon
    rw [UInt32.toNat_ofNat_of_lt' (by rw [UInt32.size]; omega)] at hval
    have hmax : (0xffffffff : UInt32).toNat = 2 ^ 32 - 1 := rfl
    omega

/-- **The addresses of a forest** are as promised, when their components fit. -/
theorem areAddresses_of_lt (h : WellFormed depths)
    (hlt : ∀ i < depths.length, ∀ c ∈ address (depthAt depths) i, c < 2 ^ 32) :
    AreAddresses depths
      ((List.range depths.length).map fun i => stored (address (depthAt depths) i)) := by
  have hget : ∀ i < depths.length,
      ((List.range depths.length).map fun i => stored (address (depthAt depths) i)).getD i [] =
        stored (address (depthAt depths) i) := by
    intro i hi
    rw [List.getD_eq_getElem _ _ (by simpa using hi)]
    simp
  have hval : ∀ i < depths.length, (stored (address (depthAt depths) i)).map UInt32.toNat =
      address (depthAt depths) i := fun i hi => toNat_stored (hlt i hi)
  have hincreasing : ∀ i k, i < k → k < depths.length →
      (∀ m ≤ k, i < m → 0 < depthAt depths m) →
      stored (address (depthAt depths) i) < stored (address (depthAt depths) k) := by
    intro i k hik hk htree
    refine lt_of_toNat_lt ?_
    rw [hval i (hik.trans hk), hval k hk]
    exact address_lt hik htree
  constructor
  · simp
  · intro i hi
    rw [hget i hi, length_stored, h.length_address hi]
  · intro i hi hpos
    obtain ⟨j, hpar⟩ := h.exists_parent hi hpos
    have hj := hpar.1.trans hi
    refine ⟨j, hpar, ?_⟩
    rw [hget i hi, hget j hj, hval i hi, hval j hj]
    exact h.address_of_parent hi hpar
  · intro i k hik hk htree heq
    rw [hget i (hik.trans hk), hget k hk] at heq
    exact List.lt_irrefl _ (heq ▸ hincreasing i k hik hk htree)
  · intro i k hik hk htree
    rw [hget i (hik.trans hk), hget k hk]
    exact hincreasing i k hik hk htree

/-- **When the computation does what is expected**, the siblings before a frame fit its counter. -/
theorem ComputesAddresses.childrenBefore_lt (hexact : ComputesAddresses overflowChecks depths)
    (h : WellFormed depths) {j i : ℕ} (hi : i < depths.length)
    (hpar : Parent (depthAt depths) j i) :
    childrenBefore (depthAt depths) j i + overflowChecks.toNat < 2 ^ 32 := by
  obtain ⟨addresses, hok⟩ := hexact.1.mpr h
  have hpos : 0 < depthAt depths i := by
    have := hpar.2.1
    omega
  -- The last component of the address counts the siblings, and it has 32 bits.
  obtain ⟨j', hpar', haddress⟩ := (hexact.2 addresses hok).parent i hi hpos
  obtain rfl := hpar'.unique hpar
  have hlt : childrenBefore (depthAt depths) j' i < 2 ^ 32 := by
    have hmem : childrenBefore (depthAt depths) j' i ∈ (addresses.getD i []).map UInt32.toNat := by
      rw [haddress]
      exact List.mem_append_right _ (List.mem_singleton_self _)
    obtain ⟨c, -, hc⟩ := List.mem_map.mp hmem
    rw [← hc]
    exact c.toNat_lt
  cases overflowChecks with
  | false => exact hlt
  | true =>
    have hnot := (computeTraceAddresses_eq_ok_iff.mp hok).2.1 rfl i hi
    rw [exhausted_of_parent h hi hpar] at hnot
    rw [Bool.toNat_true]
    by_contra hcon
    have hmax : childrenBefore (depthAt depths) j' i = 0xffffffff := by omega
    refine hnot ?_
    rw [hmax]
    rfl

/-- **The computation does what is expected of it** if and only if there are few siblings. -/
theorem computeTraceAddresses_exact_iff (overflowChecks : Bool) (depths : List UInt32) :
    ComputesAddresses overflowChecks depths ↔ FewSiblings overflowChecks depths := by
  constructor
  · intro hexact h j i hi hpar
    exact hexact.childrenBefore_lt h hi hpar
  · intro hfew
    refine ⟨⟨?_, fun h => ?_⟩, fun addresses hok => ?_⟩
    · rintro ⟨addresses, hok⟩
      exact (computeTraceAddresses_eq_ok_iff.mp hok).1
    · exact ⟨_, computeTraceAddresses_eq_ok_iff.mpr
        ⟨h, fun hchecks i hi => hfew.not_exhausted h hchecks hi, rfl⟩⟩
    · obtain ⟨h, -, rfl⟩ := computeTraceAddresses_eq_ok_iff.mp hok
      exact areAddresses_of_lt h fun i hi => hfew.lt h hi

/-! ### A root with many children -/

/-- A root with `n` children. -/
def star (n : ℕ) : List UInt32 := 0 :: List.replicate n 1

theorem depthAt_star {n i : ℕ} (hi : i < n) : depthAt (star n) (i + 1) = 1 := by
  rw [depthAt, star, List.getD_cons_succ, List.getD_replicate _ hi]
  rfl

theorem parent_star {n i : ℕ} (hi : i < n) : Parent (depthAt (star n)) 0 (i + 1) := by
  refine ⟨Nat.succ_pos i, ?_, fun k hk hpos => ?_⟩
  · rw [depthAt_star hi]
    rfl
  · obtain ⟨k, rfl⟩ := Nat.exists_eq_succ_of_ne_zero hpos.ne'
    rw [depthAt_star hi, depthAt_star (by omega)]

theorem wellFormed_star (n : ℕ) : WellFormed (star n) := by
  refine ⟨fun _ => rfl, fun i hi => ?_⟩
  have hlen : (star n).length = n + 1 := by simp [star]
  rw [depthAt_star (by omega)]
  exact Nat.le_add_left 1 _

theorem childrenBefore_star {n i : ℕ} (hi : i ≤ n) :
    childrenBefore (depthAt (star n)) 0 (i + 1) = i := by
  induction i with
  | zero => exact childrenBefore_self _ 0 le_rfl
  | succ i ih => rw [childrenBefore_succ, ih (by omega), if_pos (parent_star hi)]

theorem ComputesAddresses.lt_of_star {n : ℕ} (h : ComputesAddresses false (star (n + 1))) :
    n < 2 ^ 32 := by
  have hlen : n + 1 < (star (n + 1)).length := by simp [star]
  have hlt := h.childrenBefore_lt (wellFormed_star _) hlen (parent_star (Nat.lt_succ_self n))
  rwa [childrenBefore_star (Nat.le_succ n)] at hlt

/-- A root with one child more than a counter of 32 bits can tell apart: the last child has the
address of the first. -/
theorem not_computesAddresses_star : ¬ComputesAddresses false (star (2 ^ 32 + 1)) := by
  intro h
  exact Nat.lt_irrefl _ h.lt_of_star

end Depths

end Query

end MonadServices
