import MonadServices.Archive.Scanner

/-!
# When the offset scanner is safe

What the scanner does on three arbitrary byte strings. It always ends: a round of its loop
reads a head, which it can only do before the end of the data, and moves forward. It may
however be led out of the data, or out of `usize`, by a head that declares too much, and it
may return a last range that ends past the end of its list.

The condition under which nothing of the kind happens is
`MonadServices.Archive.Fits`. It speaks of the inputs only, by means of the walk over their
heads (`MonadServices.Rlp.Walk`), and it is exact
(`MonadServices.Archive.scanner_safe_iff`). It is asked of a list only when the scan gets
there: a malformed head in an earlier list makes the scanner return an error first.
-/

namespace MonadServices

namespace Archive

open Rlp (extent Walk)

/-! ### Calls that return -/

/-- A call returns: it gives a value or an error. -/
def Returns {α : Type} (x : Except Fault α) : Prop := ∀ f, x = .error f → ∃ m, f = .error m

section Returns

variable {α β : Type}

theorem returns_ok (a : α) : Returns (.ok a) := nofun

theorem returns_error (m : String) : Returns (.error (.error m) : Except Fault α) := by
  rintro f ⟨⟩
  exact ⟨m, rfl⟩

theorem not_returns {x : Except Fault α} {f : Fault} (h : x = .error f) (hf : ∀ m, f ≠ .error m) :
    ¬Returns x := by
  intro hx
  obtain ⟨m, hm⟩ := hx f h
  exact hf m hm

theorem not_returns_outOfBounds {x : Except Fault α} (h : x = .error .outOfBounds) :
    ¬Returns x := by
  refine not_returns h fun m hm => ?_
  cases hm

theorem not_returns_overflow {x : Except Fault α} (h : x = .error .overflow) : ¬Returns x := by
  refine not_returns h fun m hm => ?_
  cases hm

theorem Returns.of_bind {x : Except Fault α} {g : α → Except Fault β} (h : Returns (x >>= g)) :
    Returns x := by
  intro f hf
  refine h f ?_
  rw [hf]
  rfl

theorem Returns.bind {x : Except Fault α} {g : α → Except Fault β} (hx : Returns x)
    (hg : ∀ a, x = .ok a → Returns (g a)) : Returns (x >>= g) := by
  intro f hf
  cases hxa : x with
  | error f' =>
    rw [hxa] at hf
    cases hf
    exact hx f hxa
  | ok a =>
    rw [hxa] at hf
    exact hg a hxa f hf

end Returns

/-! ### The loop -/

/-- The walk from `p` stays below `2 ^ 64`, and in the data as long as it has not passed
`stop`. -/
def Steady (d : Bytes) (stop p : ℕ) : Prop :=
  ∀ n q, Walk d stop p n q → q < 2 ^ 64 ∧ (q < stop → q ≤ d.length)

section Loop

variable {d : Bytes} {stop fuel p q n c t : ℕ} {rs : List RangeRlp}

theorem Steady.next (h : Steady d stop p) (hp : p < stop)
    (hext : extent (d.drop p) = some (c, t)) : Steady d stop (p + t) :=
  fun n q hw => h (n + 1) q (.next hp hext hw)

/-- A walk that is at its end, or that cannot go on. -/
theorem steady_stuck (hp : p < 2 ^ 64) (hin : p < stop → p ≤ d.length)
    (h : ∀ c t, p < stop → extent (d.drop p) ≠ some (c, t)) : Steady d stop p := by
  intro n q hw
  cases hw with
  | here => exact ⟨hp, hin⟩
  | next hlt hext _ => exact absurd hext (h _ _ hlt)

theorem steady_next_iff (hp : p < stop) (hin : p ≤ d.length) (h64 : p < 2 ^ 64)
    (hext : extent (d.drop p) = some (c, t)) : Steady d stop p ↔ Steady d stop (p + t) := by
  refine ⟨fun h => h.next hp hext, fun h n q hw => ?_⟩
  cases hw with
  | here => exact ⟨h64, fun _ => hin⟩
  | next _ hext' hw =>
    rw [hext] at hext'
    cases hext'
    exact h _ _ hw

theorem scanItems_done (hp : stop ≤ p) : scanItems d stop (fuel + 1) p = .ok [] :=
  if_neg (by omega)

theorem scanItems_next (hp : p < stop) (hext : extent (d.drop p) = some (c, t))
    (h64 : p + t < 2 ^ 64) : scanItems d stop (fuel + 1) p =
      (scanItems d stop fuel (p + t) >>= fun rs => .ok (⟨p, p + t⟩ :: rs)) := by
  rw [scanItems, if_pos hp, decodeLength_of_extent hext, if_pos (by omega)]
  simp only [bind, Except.bind]
  rw [add_eq h64]
  rfl

/-- **What the loop returns** is what a walk that passes the end finds. -/
theorem scanItems_ok (h : scanItems d stop fuel p = .ok rs) :
    ∃ q, Walk d stop p rs.length q ∧ stop ≤ q ∧ Tiles p q rs := by
  induction fuel generalizing p rs with
  | zero => cases h
  | succ fuel ih =>
    by_cases hp : p < stop
    · rw [scanItems, if_pos hp] at h
      obtain ⟨⟨c, t⟩, hhead, h⟩ := bind_eq_ok.mp h
      obtain ⟨next, hadd, h⟩ := bind_eq_ok.mp h
      obtain ⟨ranges, hranges, h⟩ := bind_eq_ok.mp h
      obtain rfl := Except.ok.inj h
      have hin : p ≤ d.length := by
        by_contra hin
        rw [decodeLength_past (by omega)] at hhead
        cases hhead
      -- A head was read, so it is the one that is there.
      have hext : extent (d.drop p) = some (c, t) := by
        cases hext : extent (d.drop p) with
        | none =>
          obtain ⟨m, hm⟩ := decodeLength_of_none hin hext
          rw [hm] at hhead
          cases hhead
        | some e =>
          obtain ⟨c', t'⟩ := e
          rw [decodeLength_of_extent hext] at hhead
          split at hhead
          · rw [Except.ok.inj hhead]
          · cases hhead
      have hnext : next = p + t := by
        unfold add at hadd
        split at hadd
        · exact (Except.ok.inj hadd).symm
        · cases hadd
      subst hnext
      obtain ⟨q, hw, hq, htiles⟩ := ih hranges
      exact ⟨q, .next hp hext hw, hq, rfl, Nat.le_add_right _ _, htiles⟩
    · rw [scanItems_done (by omega)] at h
      obtain rfl := Except.ok.inj h
      exact ⟨p, .here p, by omega, rfl⟩

/-- **The loop returns exactly on steady walks**; a number of rounds larger than the rest of
the data is enough. -/
theorem returns_scanItems_iff (h64 : p < 2 ^ 64) (hin : p < stop → p ≤ d.length)
    (hfuel : d.length - p < fuel) : Returns (scanItems d stop fuel p) ↔ Steady d stop p := by
  induction fuel generalizing p with
  | zero => omega
  | succ fuel ih =>
    by_cases hp : p < stop
    · cases hext : extent (d.drop p) with
      | none =>
        obtain ⟨m, hm⟩ := decodeLength_of_none (hin hp) hext
        refine iff_of_true ?_ (steady_stuck h64 hin fun c t _ => by simp [hext])
        rw [scanItems, if_pos hp, hm]
        exact returns_error m
      | some e =>
        obtain ⟨c, t⟩ := e
        have hlt := Rlp.lt_of_extent hext
        have hpos := (Rlp.extent_bounds hext).2.1
        by_cases hsum : p + t < 2 ^ 64
        · rw [steady_next_iff hp (hin hp) h64 hext, scanItems_next hp hext hsum]
          by_cases hnext : p + t < stop → p + t ≤ d.length
          · rw [← ih hsum hnext (by omega)]
            exact ⟨Returns.of_bind, fun h => h.bind fun rs _ => returns_ok _⟩
          · -- the next head would be read past the end of the data
            rw [Classical.not_imp] at hnext
            obtain ⟨fuel, rfl⟩ : ∃ k, fuel = k + 1 := ⟨fuel - 1, by omega⟩
            refine iff_of_false ?_ fun h => hnext.2 ((h 0 _ (.here _)).2 hnext.1)
            refine not_returns_outOfBounds ?_
            rw [scanItems, if_pos hnext.1, decodeLength_past (by omega)]
            rfl
        · refine iff_of_false ?_ fun h => hsum ((h.next hp hext) 0 _ (.here _)).1
          refine not_returns_overflow ?_
          rw [scanItems, if_pos hp, decodeLength_of_extent hext]
          split
          · simp only [bind, Except.bind]
            rw [add_overflow (by omega)]
          · rfl
    · rw [scanItems_done (by omega)]
      exact iff_of_true (returns_ok _) (steady_stuck h64 hin fun c t h => absurd h hp)

/-- A steady walk that passes the end is followed to it. -/
theorem exists_scanItems (hw : Walk d stop p n q) (hq : stop ≤ q) (hs : Steady d stop p)
    (hfuel : d.length - p < fuel) : ∃ rs, scanItems d stop fuel p = .ok rs := by
  induction hw generalizing fuel with
  | here p =>
    obtain ⟨fuel, rfl⟩ : ∃ k, fuel = k + 1 := ⟨fuel - 1, by omega⟩
    exact ⟨[], scanItems_done hq⟩
  | @next p c t n q hp hext hw ih =>
    obtain ⟨fuel, rfl⟩ : ∃ k, fuel = k + 1 := ⟨fuel - 1, by omega⟩
    have hlt := Rlp.lt_of_extent hext
    have hpos := (Rlp.extent_bounds hext).2.1
    have hs' := hs.next hp hext
    obtain ⟨rs, hrs⟩ := ih hq hs' (show d.length - (p + t) < fuel by omega)
    rw [scanItems_next hp hext (hs' 0 _ (.here _)).1, hrs]
    exact ⟨_, rfl⟩

end Loop

/-! ### Lists -/

/-- The place where the head at a position declares its item to end. -/
def stopOf (d : Bytes) (p : ℕ) : Option ℕ := (extent (d.drop p)).map fun e => p + e.2

/-- The scan of the list at `p` is led neither out of `usize` nor out of the data. -/
def ListSteady (d : Bytes) (p : ℕ) : Prop :=
  ∀ c t, extent (d.drop p) = some (c, t) →
    p + t < 2 ^ 64 ∧ Steady d (p + t) (p + (t - c))

/-- The walk over the `n` items of the list at `p` passes the end of the list, at `q`. -/
def Lands (d : Bytes) (p n q : ℕ) : Prop :=
  ∃ c t, extent (d.drop p) = some (c, t) ∧ Walk d (p + t) (p + (t - c)) n q ∧ p + t ≤ q

section Lists

variable {d : Bytes} {p n q c t : ℕ} {rs : List RangeRlp}

theorem scanList_none (hp : p ≤ d.length) (h : extent (d.drop p) = none) :
    ∃ m, scanList d p = .error (.error m) := by
  obtain ⟨m, hm⟩ := decodeLength_of_none hp h
  refine ⟨m, ?_⟩
  rw [scanList, hm]
  rfl

theorem scanList_eq (h : extent (d.drop p) = some (c, t)) (h64 : p + t < 2 ^ 64) :
    scanList d p = scanItems d (p + t) (d.length + 1) (p + (t - c)) := by
  have hle := (Rlp.extent_bounds h).1
  rw [scanList, decodeLength_of_extent h, if_pos (by omega)]
  simp only [bind, Except.bind]
  rw [sub_eq hle]
  simp only
  rw [add_eq (show p + (t - c) < 2 ^ 64 by omega)]
  simp only
  rw [add_eq (show p + (t - c) + c < 2 ^ 64 by omega), Nat.add_assoc, Nat.sub_add_cancel hle]

/-- The items of a list start in the data. -/
theorem start_le (h : extent (d.drop p) = some (c, t)) : p + (t - c) ≤ d.length := by
  have hp := Rlp.lt_of_extent h
  have hle := (Rlp.extent_bounds h).2.2
  rw [List.length_drop] at hle
  omega

theorem returns_scanList_iff (hp : p ≤ d.length) (hd : d.length < 2 ^ 63) :
    Returns (scanList d p) ↔ ListSteady d p := by
  cases hext : extent (d.drop p) with
  | none =>
    obtain ⟨m, hm⟩ := scanList_none hp hext
    rw [hm]
    refine iff_of_true (returns_error m) fun c t h => ?_
    rw [hext] at h
    cases h
  | some e =>
    obtain ⟨c, t⟩ := e
    have hstart := start_le hext
    by_cases hsum : p + t < 2 ^ 64
    · rw [scanList_eq hext hsum,
        returns_scanItems_iff (by omega) (fun _ => hstart) (by omega)]
      refine ⟨fun h c' t' h' => ?_, fun h => (h c t hext).2⟩
      rw [hext] at h'
      cases h'
      exact ⟨hsum, h⟩
    · refine iff_of_false ?_ fun h => hsum (h c t hext).1
      refine not_returns_overflow ?_
      have hle := (Rlp.extent_bounds hext).1
      rw [scanList, decodeLength_of_extent hext]
      split
      · simp only [bind, Except.bind]
        rw [sub_eq hle]
        simp only
        rw [add_eq (show p + (t - c) < 2 ^ 64 by omega)]
        simp only
        rw [add_overflow (show 2 ^ 64 ≤ p + (t - c) + c by omega)]
      · rfl

/-- What the scan of a list returns. -/
theorem scanList_ok (hp : p ≤ d.length) (hs : ListSteady d p) (h : scanList d p = .ok rs) :
    ∃ c t q, extent (d.drop p) = some (c, t) ∧ Walk d (p + t) (p + (t - c)) rs.length q ∧
      p + t ≤ q ∧ Tiles (p + (t - c)) q rs := by
  cases hext : extent (d.drop p) with
  | none =>
    obtain ⟨m, hm⟩ := scanList_none hp hext
    rw [hm] at h
    cases h
  | some e =>
    obtain ⟨c, t⟩ := e
    rw [scanList_eq hext (hs c t hext).1] at h
    obtain ⟨q, hw, hq, htiles⟩ := scanItems_ok h
    exact ⟨c, t, q, rfl, hw, hq, htiles⟩

/-- The scan of a list whose walk lands. -/
theorem Lands.scanList (h : Lands d p n q) (hs : ListSteady d p) :
    ∃ c t rs, scanList d p = .ok rs ∧ rs.length = n ∧ extent (d.drop p) = some (c, t) ∧
      p + t ≤ q ∧ Tiles (p + (t - c)) q rs := by
  obtain ⟨c, t, hext, hw, hq⟩ := h
  obtain ⟨hsum, hsteady⟩ := hs c t hext
  have hstart := start_le hext
  obtain ⟨rs, hrs⟩ := exists_scanItems hw hq hsteady
    (show d.length - (p + (t - c)) < d.length + 1 by omega)
  obtain ⟨q', hw', hq', htiles⟩ := scanItems_ok hrs
  obtain ⟨rfl, rfl⟩ := hw.landing_unique hq hw' hq'
  exact ⟨c, t, rs, by rw [scanList_eq hext hsum, hrs], rfl, hext, hq, htiles⟩

/-! ### Good ranges -/

/-- **What the ranges of the items of a list must be**: in the data, each after the one
before, and the last one up to the end of the list. -/
structure GoodRanges (d : Bytes) (stop : ℕ) (rs : List RangeRlp) : Prop where
  within : ∀ r ∈ rs, r.start ≤ r.stop ∧ r.stop ≤ d.length
  adjacent : rs.IsChain fun r r' => r.stop = r'.start
  last : ∀ r ∈ rs.getLast?, r.stop = stop

theorem Tiles.stop_le {lo hi : ℕ} (h : Tiles lo hi rs) :
    ∀ r ∈ rs, r.start ≤ r.stop ∧ r.stop ≤ hi := by
  induction rs generalizing lo with
  | nil => simp
  | cons r rs ih =>
    obtain ⟨rfl, hle, hrest⟩ := h
    rw [List.forall_mem_cons]
    exact ⟨⟨hle, hrest.le⟩, ih hrest⟩

theorem Tiles.isChain {lo hi : ℕ} (h : Tiles lo hi rs) :
    rs.IsChain fun r r' => r.stop = r'.start := by
  induction rs generalizing lo with
  | nil => exact .nil
  | cons r rs ih =>
    obtain ⟨-, -, hrest⟩ := h
    cases rs with
    | nil => exact .singleton r
    | cons r' rs => exact .cons_cons hrest.1.symm (ih hrest)

theorem Tiles.getLast {lo hi : ℕ} (h : Tiles lo hi rs) : ∀ r ∈ rs.getLast?, r.stop = hi := by
  induction rs generalizing lo with
  | nil => simp
  | cons r rs ih =>
    obtain ⟨-, -, hrest⟩ := h
    cases rs with
    | nil =>
      rintro r' ⟨⟩
      exact hrest
    | cons r' rs =>
      rw [List.getLast?_cons_cons]
      exact ih hrest

/-- A tiling that passes the end of the list is good when it passes it at the end. -/
theorem Tiles.good_iff {lo hi stop : ℕ} (h : Tiles lo hi rs) (hlo : lo ≤ stop)
    (hstop : stop ≤ hi) (hin : lo ≤ d.length) :
    GoodRanges d stop rs ↔ hi = stop ∧ hi ≤ d.length := by
  constructor
  · intro hgood
    cases hlast : rs.getLast? with
    | none =>
      rw [List.getLast?_eq_none_iff] at hlast
      subst hlast
      have heq : lo = hi := h
      omega
    | some r =>
      have hr := h.getLast r hlast
      have hmem := hgood.within r (List.mem_of_getLast? hlast)
      have := hgood.last r hlast
      omega
  · rintro ⟨rfl, hhi⟩
    exact ⟨fun r hr => (h.stop_le r hr).imp id fun h' => h'.trans hhi, h.isChain, h.getLast⟩

end Lists

/-! ### Blocks -/

/-- The position of the transactions of a block, after its head and its header. -/
def txsAt (block : Bytes) : Option ℕ := do
  let (c, t) ← extent block
  let (_, t') ← extent (block.drop (t - c))
  return t - c + t'

/-- **A block that leads the scanner nowhere else**: the length it declares is below
`2 ^ 64`, its header and its list of transactions end in it, and no transaction ends past
the end of the list. -/
structure BlockFits (block : Bytes) : Prop where
  length : ∀ c t, extent block = some (c, t) → t < 2 ^ 64
  header : ∀ p, txsAt block = some p → p ≤ block.length
  list : ∀ p c t, txsAt block = some p → extent (block.drop p) = some (c, t) →
    p + t ≤ block.length
  items : ∀ p c t n q, txsAt block = some p → extent (block.drop p) = some (c, t) →
    Walk block (p + t) (p + (t - c)) n q → q ≤ p + t

section Block

variable {block : Bytes} {p c t : ℕ}

theorem skipHeader_of_none (hlen : ∀ c t, extent block = some (c, t) → t < 2 ^ 64)
    (h : txsAt block = none) : ∃ m, skipHeader block = .error (.error m) := by
  cases hext : extent block with
  | none =>
    obtain ⟨m, hm⟩ := decodeLength_of_none (d := block) (p := 0) (Nat.zero_le _) hext
    refine ⟨m, ?_⟩
    rw [skipHeader, hm]
    rfl
  | some e =>
    obtain ⟨c, t⟩ := e
    have hle := (Rlp.extent_bounds hext).1
    have hstart := start_le (d := block) (p := 0) hext
    rw [Nat.zero_add] at hstart
    have hext' : extent (block.drop (t - c)) = none := by
      rw [Option.eq_none_iff_forall_ne_some]
      rintro ⟨c', t'⟩ hext'
      simp [txsAt, hext, hext'] at h
    obtain ⟨m, hm⟩ := decodeLength_of_none hstart hext'
    refine ⟨m, ?_⟩
    have ht := hlen c t hext
    rw [skipHeader, decodeLength_of_extent (d := block) (p := 0) hext, if_pos ht]
    simp only [bind, Except.bind]
    rw [sub_eq hle]
    simp only
    rw [add_eq (by omega)]
    simp only [Nat.zero_add]
    rw [hm]

theorem skipHeader_of_some (hlen : ∀ c t, extent block = some (c, t) → t < 2 ^ 64)
    (h : txsAt block = some p) :
    skipHeader block = if p < 2 ^ 64 then .ok p else .error .overflow := by
  obtain ⟨⟨c, t⟩, hext, h⟩ := Option.bind_eq_some_iff.mp h
  obtain ⟨⟨c', t'⟩, hext', h⟩ := Option.bind_eq_some_iff.mp h
  obtain rfl := Option.some.inj h
  have hle := (Rlp.extent_bounds hext).1
  have ht := hlen c t hext
  rw [skipHeader, decodeLength_of_extent (d := block) (p := 0) hext, if_pos ht]
  simp only [bind, Except.bind]
  rw [sub_eq hle]
  simp only
  rw [add_eq (by omega)]
  simp only [Nat.zero_add]
  rw [decodeLength_of_extent hext']
  by_cases ht' : t' < 2 ^ 64
  · rw [if_pos ht']
    rfl
  · rw [if_neg ht', if_neg (by omega)]

theorem skipHeader_overflow (hext : extent block = some (c, t)) (ht : ¬t < 2 ^ 64) :
    skipHeader block = .error .overflow := by
  rw [skipHeader, decodeLength_of_extent (d := block) (p := 0) hext, if_neg ht]
  rfl

/-- **The transactions of a block that fits** are scanned safely. -/
theorem BlockFits.listSteady (hb : BlockFits block) (hd : block.length < 2 ^ 63)
    (h : txsAt block = some p) : ListSteady block p := by
  intro c t hext
  have hlist := hb.list p c t h hext
  refine ⟨by omega, fun n q hw => ?_⟩
  have hq := hb.items p c t n q h hext hw
  exact ⟨by omega, fun _ => by omega⟩

theorem getTransactionRanges_eq (hb : BlockFits block) (hd : block.length < 2 ^ 63)
    (h : txsAt block = some p) : getTransactionRanges block = scanList block p := by
  have hp := hb.header p h
  rw [getTransactionRanges, skipHeader_of_some hb.length h, if_pos (by omega)]
  rfl

theorem getTransactionRanges_none (hlen : ∀ c t, extent block = some (c, t) → t < 2 ^ 64)
    (h : txsAt block = none) : ∃ m, getTransactionRanges block = .error (.error m) := by
  obtain ⟨m, hm⟩ := skipHeader_of_none hlen h
  refine ⟨m, ?_⟩
  rw [getTransactionRanges, hm]
  rfl

/-- The end of the list of transactions of a block. -/
def TxsStop (block : Bytes) (stop : ℕ) : Prop :=
  ∃ p, txsAt block = some p ∧ stopOf block p = some stop

theorem stopOf_eq (h : extent (block.drop p) = some (c, t)) : stopOf block p = some (p + t) := by
  rw [stopOf, h]
  rfl

theorem BlockFits.getTransactionRanges (hb : BlockFits block) (hd : block.length < 2 ^ 63) :
    Returns (getTransactionRanges block) ∧ ∀ rs, getTransactionRanges block = .ok rs →
      ∃ stop, TxsStop block stop ∧ GoodRanges block stop rs := by
  cases h : txsAt block with
  | none =>
    obtain ⟨m, hm⟩ := getTransactionRanges_none hb.length h
    rw [hm]
    exact ⟨returns_error m, nofun⟩
  | some p =>
    have hp := hb.header p h
    have hs := hb.listSteady hd h
    rw [getTransactionRanges_eq hb hd h]
    refine ⟨(returns_scanList_iff hp hd).mpr hs, fun rs hrs => ?_⟩
    obtain ⟨c, t, q, hext, hw, hq, htiles⟩ := scanList_ok hp hs hrs
    have hlist := hb.list p c t h hext
    have hitems := hb.items p c t _ q h hext hw
    refine ⟨p + t, ⟨p, h, stopOf_eq hext⟩, ?_⟩
    exact (htiles.good_iff (by omega) hq (start_le hext)).mpr ⟨by omega, by omega⟩

/-- A block on which the scanner returns, with good ranges, fits. -/
theorem blockFits_of_safe (receipts traces : Bytes) (hd : block.length < 2 ^ 63)
    (hret : Returns (getTransactionRanges block))
    (hgood : ∀ rs, getTransactionRanges block = .ok rs →
      ∃ stop, TxsStop block stop ∧ GoodRanges block stop rs)
    (hoff : Returns (getAllTxOffsets block receipts traces)) : BlockFits block := by
  have hlen : ∀ c t, extent block = some (c, t) → t < 2 ^ 64 := by
    intro c t hext
    by_contra ht
    have hskip := (show getTransactionRanges block = _ from
      congrArg (· >>= scanList block) (skipHeader_overflow hext ht))
    exact not_returns_overflow hskip hret
  have hskip : ∀ p, txsAt block = some p → skipHeader block = .ok p := by
    intro p h
    have hskip := skipHeader_of_some hlen h
    by_cases hp : p < 2 ^ 64
    · rw [hskip, if_pos hp]
    · rw [if_neg hp] at hskip
      exact absurd hret (not_returns_overflow (show getTransactionRanges block = _ from
        congrArg (· >>= scanList block) hskip))
  have hranges : ∀ p, txsAt block = some p → getTransactionRanges block = scanList block p := by
    intro p h
    rw [getTransactionRanges, hskip p h]
    rfl
  have hheader : ∀ p, txsAt block = some p → p ≤ block.length := by
    intro p h
    by_contra hp
    rw [hranges p h] at hret
    refine not_returns_outOfBounds ?_ hret
    rw [scanList, decodeLength_past (by omega)]
    rfl
  have hlist : ∀ p c t, txsAt block = some p → extent (block.drop p) = some (c, t) →
      p + t ≤ block.length := by
    intro p c t h hext
    by_contra hout
    by_cases hsum : p + t < 2 ^ 64
    · refine not_returns_outOfBounds ?_ hoff
      rw [getAllTxOffsets, hskip p h]
      simp only [bind, Except.bind]
      rw [decodeLength_of_extent hext, if_pos (by omega)]
      simp only
      rw [add_eq hsum]
      simp only
      rw [slice, if_neg (by omega)]
    · refine not_returns_overflow ?_ hoff
      rw [getAllTxOffsets, hskip p h]
      simp only [bind, Except.bind]
      rw [decodeLength_of_extent hext]
      by_cases ht : t < 2 ^ 64
      · rw [if_pos ht]
        simp only
        rw [add_overflow (by omega)]
      · rw [if_neg ht]
  refine ⟨hlen, hheader, hlist, fun p c t n q h hext hw => ?_⟩
  by_contra hq
  -- The walk passes the end of the list, and the last range with it.
  have hs : ListSteady block p := by
    rw [← returns_scanList_iff (hheader p h) hd, ← hranges p h]
    exact hret
  have hl := hlist p c t h hext
  obtain ⟨c', t', rs, hrs, -, hext', hq', htiles⟩ :=
    Lands.scanList ⟨c, t, hext, hw, by omega⟩ hs
  rw [hext] at hext'
  cases hext'
  obtain ⟨stop, ⟨p', h', hstop⟩, hgood⟩ := hgood rs (by rw [hranges p h, hrs])
  rw [h] at h'
  cases h'
  rw [stopOf_eq hext] at hstop
  cases hstop
  have := (htiles.good_iff (by omega) hq' (start_le hext)).mp hgood
  omega

end Block

/-! ### The three lists together -/

/-- The walk over the `n` transactions of a block passes the end of their list. -/
def TxsLand (block : Bytes) (n : ℕ) : Prop := ∃ p q, txsAt block = some p ∧ Lands block p n q

/-- What the receipts and the traces have to satisfy, if there are `n` transactions. -/
def ListsFit (receipts traces : Bytes) (n : ℕ) : Prop :=
  ListSteady receipts 0 ∧ ∀ m q, Lands receipts 0 m q →
    ListSteady traces 0 ∧ ∀ k r, Lands traces 0 k r → m = n → k = n →
      (stopOf receipts 0 = some q ∧ q ≤ receipts.length) ∧
        (stopOf traces 0 = some r ∧ r ≤ traces.length)

/-- The rest of the scan, once the ranges of the transactions are known. -/
def scanRest (receipts traces : Bytes) (txs : List RangeRlp) :
    Except Fault (List TxByteOffsets) :=
  getRlpListRanges receipts >>= fun receiptRanges =>
    getRlpListRanges traces >>= fun traceRanges => combine txs receiptRanges traceRanges

section Rest

variable {receipts traces : Bytes} {txs : List RangeRlp}

theorem returns_combine (txs receipts traces : List RangeRlp) :
    Returns (combine txs receipts traces) := by
  unfold combine
  simp only
  split
  · exact returns_error _
  · exact returns_ok _

/-- The ranges of a list are good if and only if its walk lands at its end. -/
theorem good_iff_of_lands {d : Bytes} {p c t q : ℕ} {rs : List RangeRlp}
    (hext : extent (d.drop p) = some (c, t)) (hq : p + t ≤ q)
    (htiles : Tiles (p + (t - c)) q rs) :
    (∃ stop, stopOf d p = some stop ∧ GoodRanges d stop rs) ↔
      stopOf d p = some q ∧ q ≤ d.length := by
  rw [stopOf_eq hext]
  have hgood := htiles.good_iff (by omega) hq (start_le hext)
  constructor
  · rintro ⟨stop, hstop, h⟩
    cases hstop
    obtain ⟨rfl, hle⟩ := hgood.mp h
    exact ⟨rfl, hle⟩
  · rintro ⟨hstop, hle⟩
    cases hstop
    exact ⟨p + t, rfl, hgood.mpr ⟨rfl, hle⟩⟩

/-- **The scan of the receipts and the traces is safe exactly when they fit.** -/
theorem scanRest_safe_iff (txs : List RangeRlp) (hr : receipts.length < 2 ^ 63)
    (ht : traces.length < 2 ^ 63) :
    (Returns (scanRest receipts traces txs) ∧ ∀ os, scanRest receipts traces txs = .ok os →
      (∃ stop, stopOf receipts 0 = some stop ∧ GoodRanges receipts stop (os.map (·.receipt))) ∧
        ∃ stop, stopOf traces 0 = some stop ∧ GoodRanges traces stop (os.map (·.trace))) ↔
      ListsFit receipts traces txs.length := by
  have hreceipts := returns_scanList_iff (Nat.zero_le _) hr
  have htraces := returns_scanList_iff (Nat.zero_le _) ht
  constructor
  · rintro ⟨hret, hgood⟩
    have hsr := hreceipts.mp hret.of_bind
    refine ⟨hsr, fun m q hm => ?_⟩
    obtain ⟨c, t, rr, hrr, rfl, hext, hq, htiles⟩ := hm.scanList hsr
    have hrest : scanRest receipts traces txs =
        (getRlpListRanges traces >>= fun traceRanges => combine txs rr traceRanges) := by
      rw [scanRest, getRlpListRanges, hrr]
      rfl
    rw [hrest] at hret hgood
    have hst := htraces.mp hret.of_bind
    refine ⟨hst, fun k r hk hm hk' => ?_⟩
    obtain ⟨c', t', tt, htt, rfl, hext', hr', htiles'⟩ := hk.scanList hst
    obtain ⟨os, hos, -, hrec, htra⟩ := combine_eq txs rr tt hm hk'
    obtain ⟨hgr, hgt⟩ := hgood os (by rw [getRlpListRanges, htt]; exact hos)
    rw [hrec] at hgr
    rw [htra] at hgt
    exact ⟨(good_iff_of_lands hext hq htiles).mp hgr,
      (good_iff_of_lands hext' hr' htiles').mp hgt⟩
  · rintro ⟨hsr, hfit⟩
    have hland : ∀ rr, getRlpListRanges receipts = .ok rr → ∃ c t q,
        extent (receipts.drop 0) = some (c, t) ∧ 0 + t ≤ q ∧ Tiles (0 + (t - c)) q rr ∧
        Lands receipts 0 rr.length q := by
      intro rr hrr
      obtain ⟨c, t, q, hext, hw, hq, htiles⟩ := scanList_ok (Nat.zero_le _) hsr hrr
      exact ⟨c, t, q, hext, hq, htiles, c, t, hext, hw, hq⟩
    constructor
    · refine (hreceipts.mpr hsr).bind fun rr hrr => ?_
      obtain ⟨-, -, q, -, -, -, hm⟩ := hland rr hrr
      exact (htraces.mpr (hfit _ q hm).1).bind fun tt _ => returns_combine _ _ _
    · intro os hos
      obtain ⟨rr, hrr, hos⟩ := bind_eq_ok.mp hos
      obtain ⟨tt, htt, hos⟩ := bind_eq_ok.mp hos
      obtain ⟨hlr, hlt, -, hrec, htra⟩ := combine_eq_ok hos
      obtain ⟨c, t, q, hext, hq, htiles, hm⟩ := hland rr hrr
      obtain ⟨hst, hfit⟩ := hfit _ q hm
      obtain ⟨c', t', r, hext', hw', hr', htiles'⟩ := scanList_ok (Nat.zero_le _) hst htt
      obtain ⟨hgr, hgt⟩ := hfit _ r ⟨c', t', hext', hw', hr'⟩ hlr hlt
      rw [hrec, htra]
      exact ⟨(good_iff_of_lands hext hq htiles).mpr hgr,
        (good_iff_of_lands hext' hr' htiles').mpr hgt⟩

end Rest

/-! ### The transactions in their slice -/

section Txs

variable {block receipts traces : Bytes} {p c t n : ℕ}

/-- The bytes of the list of transactions. -/
def txsRlp (block : Bytes) (p t : ℕ) : Bytes := (block.take (p + t)).drop p

theorem length_txsRlp (h : p + t ≤ block.length) : (txsRlp block p t).length = t := by
  rw [txsRlp, List.length_drop, List.length_take]
  omega

theorem length_take_txs (h : p + t ≤ block.length) : (block.take p).length = p := by
  rw [List.length_take]
  omega

theorem block_eq (block : Bytes) (p t : ℕ) :
    block = block.take p ++ (txsRlp block p t ++ block.drop (p + t)) := by
  have htake : (block.take (p + t)).take p = block.take p := by
    rw [List.take_take, Nat.min_eq_left (Nat.le_add_right p t)]
  rw [← List.append_assoc, txsRlp, ← htake, List.take_append_drop, List.take_append_drop]

theorem drop_txs (h : p + t ≤ block.length) :
    block.drop p = txsRlp block p t ++ block.drop (p + t) := by
  have hdrop := congrArg (List.drop (block.take p).length) (block_eq block p t)
  rw [List.drop_left, length_take_txs h] at hdrop
  exact hdrop

theorem extent_txsRlp (hle : p + t ≤ block.length)
    (hext : extent (block.drop p) = some (c, t)) : extent (txsRlp block p t) = some (c, t) := by
  rw [drop_txs hle] at hext
  exact Rlp.extent_of_append hext (length_txsRlp hle).ge

/-- A walk over the slice is a walk over the block. -/
theorem walk_block {a q : ℕ} (hle : p + t ≤ block.length)
    (hw : Walk (txsRlp block p t) t a n q) : Walk block (p + t) (p + a) n (p + q) := by
  have h := hw.within (block.take p) (block.drop (p + t))
  rw [length_take_txs hle, ← block_eq block p t] at h
  exact h

theorem walk_txsRlp {a q : ℕ} (hle : p + t ≤ block.length)
    (hw : Walk block (p + t) (p + a) n q) (hq : q ≤ p + t) :
    Walk (txsRlp block p t) t a n (q - p) := by
  have h : Walk (block.take p ++ (txsRlp block p t ++ block.drop (p + t)))
      ((block.take p).length + t) (p + a) n q := by
    rw [length_take_txs hle, ← block_eq block p t]
    exact hw
  have h' := h.restrict (a := a) (by rw [length_take_txs hle])
    (by rw [length_take_txs hle, length_txsRlp hle]; exact hq)
  rw [length_take_txs hle] at h'
  exact h'

variable (hb : BlockFits block) (hd : block.length < 2 ^ 63) (h : txsAt block = some p)
  (hext : extent (block.drop p) = some (c, t))

include hb hd h hext

theorem listSteady_txsRlp : ListSteady (txsRlp block p t) 0 := by
  have hle := hb.list p c t h hext
  intro c' t' hext'
  rw [List.drop_zero, extent_txsRlp hle hext] at hext'
  cases hext'
  refine ⟨by omega, fun n q hw => ?_⟩
  rw [Nat.zero_add, Nat.zero_add] at hw
  have hq := hb.items p c t n (p + q) h hext (walk_block hle hw)
  rw [length_txsRlp hle]
  omega

/-- What the scan of the transactions in their slice returns. -/
theorem scan_txsRlp_ok {rs : List RangeRlp} (hrs : getRlpListRanges (txsRlp block p t) = .ok rs) :
    TxsLand block rs.length ∧ Tiles (t - c) t rs := by
  have hle := hb.list p c t h hext
  obtain ⟨c', t', q, hext', hw, hq, htiles⟩ :=
    scanList_ok (Nat.zero_le _) (listSteady_txsRlp hb hd h hext) hrs
  rw [List.drop_zero, extent_txsRlp hle hext] at hext'
  cases hext'
  simp only [Nat.zero_add] at hw hq htiles
  have hwb := walk_block hle hw
  have hitems := hb.items p c t _ _ h hext hwb
  obtain rfl : q = t := by omega
  exact ⟨⟨p, p + q, h, c, q, hext, hwb, le_rfl⟩, htiles⟩

/-- The slice is scanned to its end when the walk over the block lands. -/
theorem exists_scan_txsRlp (hn : TxsLand block n) :
    ∃ rs, getRlpListRanges (txsRlp block p t) = .ok rs ∧ rs.length = n := by
  have hle := hb.list p c t h hext
  obtain ⟨p', q, h', c', t', hext', hw, hq⟩ := hn
  rw [h] at h'
  cases h'
  rw [hext] at hext'
  cases hext'
  have hitems := hb.items p c t n q h hext hw
  have hwt := walk_txsRlp hle hw hitems
  obtain ⟨-, -, rs, hrs, hlen, -⟩ := Lands.scanList (d := txsRlp block p t) (p := 0)
    ⟨c, t, by rw [List.drop_zero]; exact extent_txsRlp hle hext,
      by simpa only [Nat.zero_add] using hwt, by omega⟩ (listSteady_txsRlp hb hd h hext)
  exact ⟨rs, hrs, hlen⟩

theorem getAllTxOffsets_eq : getAllTxOffsets block receipts traces =
    (getRlpListRanges (txsRlp block p t) >>= fun rs =>
      scanRest receipts traces (rs.map (·.moved p))) := by
  have hle := hb.list p c t h hext
  have hp := hb.header p h
  have hslice : slice block p (p + t) = .ok (txsRlp block p t) := if_pos ⟨by omega, hle⟩
  rw [getAllTxOffsets, skipHeader_of_some hb.length h, if_pos (by omega)]
  simp only [bind, Except.bind]
  rw [decodeLength_of_extent hext, if_pos (by omega)]
  simp only
  rw [add_eq (show p + t < 2 ^ 64 by omega)]
  simp only
  rw [hslice]
  simp only
  cases hrs : getRlpListRanges (txsRlp block p t) with
  | error f => rfl
  | ok rs =>
    have htiles := (scan_txsRlp_ok hb hd h hext hrs).2
    simp only [scanRest, mapM_shift htiles (show t + p < 2 ^ 64 by omega)]
    rfl

end Txs

/-! ### The safety of the scanner -/

/-- A byte slice: its length fits `isize`. -/
abbrev Slice := {d : Bytes // d.length < 2 ^ 63}

/-- **What one asks of the scanner**: both functions return, and the ranges they return are
good. -/
structure ScannerSafe (block receipts traces : Bytes) : Prop where
  ranges_return : Returns (getTransactionRanges block)
  ranges_good : ∀ rs, getTransactionRanges block = .ok rs →
    ∃ stop, TxsStop block stop ∧ GoodRanges block stop rs
  offsets_return : Returns (getAllTxOffsets block receipts traces)
  offsets_good : ∀ os, getAllTxOffsets block receipts traces = .ok os →
    (∃ stop, TxsStop block stop ∧ GoodRanges block stop (os.map (·.tx))) ∧
      (∃ stop, stopOf receipts 0 = some stop ∧ GoodRanges receipts stop (os.map (·.receipt))) ∧
      ∃ stop, stopOf traces 0 = some stop ∧ GoodRanges traces stop (os.map (·.trace))

/-- **The inputs no head of which leads the scan astray.** The receipts are looked at only
if the transactions could be walked to the end of their list, the traces only if the
receipts could, and whether the last items end at the end of their lists matters only if
the three counts agree. -/
def Fits (block receipts traces : Bytes) : Prop :=
  BlockFits block ∧ ∀ n, TxsLand block n → ListsFit receipts traces n

theorem getAllTxOffsets_error {block : Bytes} (receipts traces : Bytes) (hb : BlockFits block)
    (hd : block.length < 2 ^ 63) (hn : ∀ p c t, txsAt block = some p →
      extent (block.drop p) ≠ some (c, t)) :
    ∃ m, getAllTxOffsets block receipts traces = .error (.error m) := by
  cases h : txsAt block with
  | none =>
    obtain ⟨m, hm⟩ := skipHeader_of_none hb.length h
    refine ⟨m, ?_⟩
    rw [getAllTxOffsets, hm]
    rfl
  | some p =>
    have hp := hb.header p h
    have hext : extent (block.drop p) = none := by
      rw [Option.eq_none_iff_forall_ne_some]
      rintro ⟨c, t⟩
      exact hn p c t h
    obtain ⟨m, hm⟩ := decodeLength_of_none hp hext
    refine ⟨m, ?_⟩
    rw [getAllTxOffsets, skipHeader_of_some hb.length h, if_pos (by omega)]
    simp only [bind, Except.bind]
    rw [hm]

/-- The offsets of a block that fits. -/
theorem offsets_safe_iff {block receipts traces : Bytes} (hb : BlockFits block)
    (hd : block.length < 2 ^ 63) (hr : receipts.length < 2 ^ 63) (ht : traces.length < 2 ^ 63) :
    (Returns (getAllTxOffsets block receipts traces) ∧
      ∀ os, getAllTxOffsets block receipts traces = .ok os →
        (∃ stop, TxsStop block stop ∧ GoodRanges block stop (os.map (·.tx))) ∧
          (∃ stop, stopOf receipts 0 = some stop ∧
            GoodRanges receipts stop (os.map (·.receipt))) ∧
          ∃ stop, stopOf traces 0 = some stop ∧ GoodRanges traces stop (os.map (·.trace))) ↔
      ∀ n, TxsLand block n → ListsFit receipts traces n := by
  by_cases hn : ∃ p c t, txsAt block = some p ∧ extent (block.drop p) = some (c, t)
  · obtain ⟨p, c, t, h, hext⟩ := hn
    have hle := hb.list p c t h hext
    have hc := (Rlp.extent_bounds hext).1
    rw [getAllTxOffsets_eq hb hd h hext]
    cases hrs : getRlpListRanges (txsRlp block p t) with
    | error f =>
      have hret := (returns_scanList_iff (Nat.zero_le _)
        (by rw [length_txsRlp hle]; omega)).mpr (listSteady_txsRlp hb hd h hext)
      refine iff_of_true ⟨fun f' hf' => ?_, nofun⟩ fun n hn => ?_
      · cases hf'
        exact hret f hrs
      · obtain ⟨rs, hrs', -⟩ := exists_scan_txsRlp hb hd h hext hn
        rw [hrs] at hrs'
        cases hrs'
    | ok rs =>
      obtain ⟨hland, htiles⟩ := scan_txsRlp_ok hb hd h hext hrs
      have hunique : ∀ n, TxsLand block n → n = rs.length := by
        intro n hn
        obtain ⟨rs', hrs', hlen⟩ := exists_scan_txsRlp hb hd h hext hn
        rw [hrs] at hrs'
        cases hrs'
        exact hlen.symm
      have hgood : GoodRanges block (p + t) (rs.map (·.moved p)) := by
        have hmoved := htiles.moved p
        rw [Nat.add_comm t p] at hmoved
        have hstart := start_le hext
        exact (hmoved.good_iff (by omega) le_rfl (by omega)).mpr ⟨rfl, hle⟩
      have hrest := scanRest_safe_iff (rs.map (·.moved p)) hr ht
      rw [List.length_map] at hrest
      constructor
      · rintro ⟨hret, hok⟩ n hn
        rw [hunique n hn, ← hrest]
        exact ⟨hret, fun os hos => (hok os hos).2⟩
      · intro hfit
        obtain ⟨hret, hok⟩ := hrest.mpr (hfit _ hland)
        refine ⟨hret, fun os hos => ⟨⟨p + t, ⟨p, h, stopOf_eq hext⟩, ?_⟩, hok os hos⟩⟩
        obtain ⟨rr, -, hos⟩ := bind_eq_ok.mp (show scanRest receipts traces _ = .ok os from hos)
        obtain ⟨tt, -, hos⟩ := bind_eq_ok.mp hos
        rw [(combine_eq_ok hos).2.2.1]
        exact hgood
  · obtain ⟨m, hm⟩ := getAllTxOffsets_error receipts traces hb hd
      fun p c t h hext => hn ⟨p, c, t, h, hext⟩
    rw [hm]
    refine iff_of_true ⟨returns_error m, nofun⟩ ?_
    rintro n ⟨p, q, h, c, t, hext, -⟩
    exact absurd ⟨p, c, t, h, hext⟩ hn

/-- **The scanner is safe exactly on the inputs that fit.** -/
theorem scanner_safe_iff (block receipts traces : Slice) :
    ScannerSafe block.1 receipts.1 traces.1 ↔ Fits block.1 receipts.1 traces.1 := by
  constructor
  · intro hsafe
    have hb := blockFits_of_safe receipts.1 traces.1 block.2 hsafe.ranges_return
      hsafe.ranges_good hsafe.offsets_return
    exact ⟨hb, (offsets_safe_iff hb block.2 receipts.2 traces.2).mp
      ⟨hsafe.offsets_return, hsafe.offsets_good⟩⟩
  · rintro ⟨hb, hfit⟩
    obtain ⟨hret, hgood⟩ := hb.getTransactionRanges block.2
    obtain ⟨hoff, hok⟩ := (offsets_safe_iff hb block.2 receipts.2 traces.2).mpr hfit
    exact ⟨hret, hgood, hoff, hok⟩

/-- A block of two bytes whose header is declared to be 56 bytes long: the scanner looks for
the transactions past the end of the block. -/
theorem short_block_out_of_bounds : ¬ScannerSafe [0xc1, 0xb7] [0xc0] [0xc0] := by
  intro h
  exact not_returns_outOfBounds
    (show getTransactionRanges [0xc1, 0xb7] = .error .outOfBounds by decide)
    h.ranges_return

end Archive

end MonadServices
