import MonadServices.Query.Writer.Recovery

/-!
# Page statistics

Next to each page of the bitmap index the writer stores how many ids it lists. The page and its
count are written one after the other, and a failure may leave either of them behind.

A count is that of the view at some frontier which is at the committed one or beyond it, hence
**it never counts too few** of the committed ids, and as long as no flush has failed all counts
are those of the committed frontier (`MonadServices.Query.pageStats_bound`). Beyond it they may
count too many (`MonadServices.Query.stats_ahead_after_failed_flush`).
-/

namespace MonadServices

namespace Query

/-! ### Runs whose flushes succeed -/

section FlushesSucceed

variable (ext : Externals) (chain : Chain)

/-- Whether an operation is not a flush that fails. -/
def flushSucceeds (s : System) : Op → Bool
  | .flush faults =>
    match s.writer with
    | none => true
    | some w => (w.flush ext faults s.tables).1.toBool
  | .openWriter _ | .startAt | .append _ => true

/-- Whether no flush of a run fails. -/
def flushesSucceed (s : System) : List Op → Bool
  | [] => true
  | op :: ops => flushSucceeds ext s op && flushesSucceed (step ext chain s op) ops

end FlushesSucceed

variable {ext : Externals} {chain : Chain}

/-- **No flush has tried to go further** than the stored frontier, as long as none has failed. -/
theorem consistent_of_flushesSucceed {ops : List Op}
    (h : flushesSucceed ext chain ⟨none, Tables.empty⟩ ops = true) :
    ∃ n, Consistent chain ext (run ext chain ops) n n := by
  have hfold : ∀ (ops : List Op) (s : System), flushesSucceed ext chain s ops = true →
      (∃ n, Consistent chain ext s n n) →
        ∃ n, Consistent chain ext (ops.foldl (Query.step ext chain) s) n n := by
    intro ops
    induction ops with
    | nil => exact fun s _ hs => hs
    | cons op ops ih =>
      rintro s hops ⟨n, hc⟩
      rw [flushesSucceed, Bool.and_eq_true] at hops
      refine ih _ hops.2 ?_
      cases op with
      | openWriter faults => exact ⟨n, hc.openWriter faults⟩
      | startAt => exact ⟨n, hc.step_local rfl⟩
      | append i => exact ⟨n, hc.step_local rfl⟩
      | flush faults => exact hc.step_of_succeeds hops.1
  exact hfold ops _ h ⟨0, consistent_empty⟩

/-! ### The counts -/

/-- The stored count of a page; one that is absent is zero. -/
def storedCount (t : Tables) (key : BitmapIndexKey) : Except QueryError ℕ :=
  (rowValue (t (.pageStats key))).map fun row => row.getD 0

/-- The committed ids of a page: they are on the page, and their records carry the filter. -/
def committedOn (ext : Externals) (chain : Chain) (state : StateIndex) (key : BitmapIndexKey) :
    Set ℕ :=
  {id | state.Committed key.family id ∧ pageOf id = key.page ∧
    ∃ r values, chain.recordAt key.family id = some r ∧ r.bitmapFilters ext = .ok values ∧
      key.filter ∈ values}

theorem storedCount_view {key : BitmapIndexKey} {t : Tables} {j : ℕ}
    (h : t (.pageStats key) = chain.view ext j (.pageStats key)) :
    storedCount t key = .ok (chain.bits ext key j).card := by
  unfold storedCount
  rw [h]
  simp only [Chain.view]
  split_ifs with hempty
  · rw [hempty]
    rfl
  · rw [Nat.mod_eq_of_lt (Chain.card_bits_lt key)]
    rfl

/-- **The committed ids of a page** are at the positions of the view. -/
theorem WriterAt.ncard_committedOn {w : QueryWriter} {n : ℕ} (hat : WriterAt chain ext w n n)
    (key : BitmapIndexKey) :
    (committedOn ext chain w.state key).ncard = (chain.bits ext key n).card := by
  have himage : committedOn ext chain w.state key =
      (fun x => key.page + x) '' (chain.bits ext key n : Set ℕ) := by
    ext id
    constructor
    · rintro ⟨hcommitted, hpage, hrecord⟩
      have hle := Chain.pageOf_le id
      obtain ⟨x, rfl⟩ := Nat.exists_eq_add_of_le (hpage ▸ hle)
      exact ⟨x, (hat.mem_bits hcommitted).mpr ⟨hpage, hrecord⟩, rfl⟩
    · rintro ⟨x, hx, rfl⟩
      obtain ⟨-, r, hmem, -⟩ := Chain.mem_bits.mp hx
      have hcommitted : w.state.Committed key.family (key.page + x) :=
        hat.committed_iff.mpr ⟨(Chain.mem_entries.mp hmem).1, Chain.lt_frontier hmem⟩
      exact ⟨hcommitted, (hat.mem_bits hcommitted).mp hx⟩
  rw [himage, Set.ncard_image_of_injective _ (add_right_injective key.page), Set.ncard_coe_finset]

/-- **Page statistics never count too few**: after a successful flush at the end of any run, the
stored count of a page is at least the number of the committed ids on it, and it is that number
if no flush of the run has failed. -/
theorem pageStats_bound (ext : Externals) (chain : Chain) (ops : List Op) (faults : List Fault)
    (w w' : QueryWriter) (t' : Tables) (hw : (run ext chain ops).writer = some w)
    (hflush : w.flush ext faults (run ext chain ops).tables = (.ok (), w', t'))
    (key : BitmapIndexKey) :
    ∃ count, storedCount t' key = .ok count ∧
      (committedOn ext chain w'.state key).ncard ≤ count ∧
      (flushesSucceed ext chain ⟨none, Tables.empty⟩ ops = true →
        (committedOn ext chain w'.state key).ncard = count) := by
  obtain ⟨n, hi, hat, hc⟩ := consistent_flush hw hflush
  obtain ⟨j, hnj, -, hj⟩ := hc.stored.between (.pageStats key)
  refine ⟨_, storedCount_view hj, ?_, fun hops => ?_⟩
  · rw [hat.ncard_committedOn]
    exact Finset.card_le_card (Chain.bits_subset hnj key)
  · -- The run ends at one frontier, and so does the flush.
    obtain ⟨lo, hlo⟩ := consistent_of_flushesSucceed hops
    obtain ⟨m, k, hm, hle, hge⟩ := hlo.writer w hw
    obtain ⟨hat', hc'⟩ := hlo.flush_ok hm hle hge hflush
    rw [max_eq_right hge] at hc'
    have hview : t' = chain.view ext k := hc'.stored.between.eq_view
    have hcount := (storedCount_view hj).symm.trans (storedCount_view (congrFun hview _))
    rw [hat'.ncard_committedOn, Except.ok.inj hcount]

theorem pageStats_bound_sample :
    (∃ count, storedCount sampleFlush.2.2 sampleKey = .ok count ∧
      (committedOn Externals.sample sampleChain sampleFlush.2.1.state sampleKey).ncard ≤ count ∧
      (committedOn Externals.sample sampleChain sampleFlush.2.1.state sampleKey).ncard = count) ∧
    ∃ count, storedCount failedFlush.2.2 sampleKey = .ok count ∧
      (committedOn Externals.sample sampleChain failedFlush.2.1.state sampleKey).ncard ≤ count := by
  obtain ⟨count, hcount, hle, heq⟩ := pageStats_bound Externals.sample sampleChain sampleOps []
    sampleWriter sampleFlush.2.1 sampleFlush.2.2 sampleOps_writer sampleFlush_eq sampleKey
  obtain ⟨count', hcount', hle', -⟩ := pageStats_bound Externals.sample sampleChain failedOps []
    sampleWriter failedFlush.2.1 failedFlush.2.2 failedOps_writer failedFlush_eq sampleKey
  exact ⟨⟨count, hcount, hle, heq (by decide +kernel)⟩, count', hcount', hle'⟩

end Query

end MonadServices
