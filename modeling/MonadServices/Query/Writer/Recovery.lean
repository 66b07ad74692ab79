import MonadServices.Query.Writer.Exactness

/-!
# After a failed flush

A flush that returns an error has not changed the writer, so it can be called again,
after more blocks have been appended or on a writer that is opened anew. What the
tables hold at the next successful flush is compared with what **a run in which
nothing failed** has left for the same blocks (`MonadServices.Query.retry_safe`).

As long as the writer lives, the two tables are the same. A writer that is opened
anew may commit fewer blocks than the failed flush was about to, and then rows of
blocks that are not committed stay behind: they are beyond the frontier everywhere but
in one table. The statistics of a page count all positions of the page, the committed
ones and the others (`MonadServices.Query.stats_ahead_after_failed_flush`), and are right
again when the page is next written.
-/

namespace MonadServices

namespace Query

/-! ### Runs without failures -/

section NeverFails

variable (ext : Externals) (chain : Chain)

/-- Whether an operation on the tables returns without an error. -/
def opSucceeds (s : System) : Op → Bool
  | .openWriter faults => (openWriter faults s.tables).1.toBool
  | .flush faults =>
    match s.writer with
    | none => true
    | some w => (w.flush ext faults s.tables).1.toBool
  | .startAt | .append _ => true

/-- Whether every operation on the tables of a run returns without an error. -/
def neverFails (s : System) : List Op → Bool
  | [] => true
  | op :: ops => opSucceeds ext s op && neverFails (step ext chain s op) ops

/-- An operation that does not open a writer. -/
def Op.keepsWriter : Op → Bool
  | .openWriter _ => false
  | _ => true

end NeverFails

variable {ext : Externals} {chain : Chain}

/-- The stored frontier is the furthest one, and the writer is at it or behind it. -/
theorem Consistent.step_of_succeeds {s : System} {n : ℕ} (hc : Consistent chain ext s n n)
    {op : Op} (hop : opSucceeds ext s op = true) :
    ∃ n', Consistent chain ext (Query.step ext chain s op) n' n' := by
  cases op with
  | openWriter faults => exact ⟨n, hc.openWriter faults⟩
  | startAt => exact ⟨n, hc.step_local rfl⟩
  | append i => exact ⟨n, hc.step_local rfl⟩
  | flush faults =>
    rcases hw : s.writer with _ | w
    · exact ⟨n, by simpa [Query.step, hw] using hc⟩
    · obtain ⟨m, k, hat, hm, hk⟩ := hc.writer w hw
      rcases hflush : w.flush ext faults s.tables with ⟨r, w', t'⟩
      obtain ⟨⟨⟩, rfl⟩ := toBool_eq_true (r := r) (by simpa [opSucceeds, hw, hflush] using hop)
      obtain ⟨-, hc'⟩ := hc.flush_ok hat hm hk hflush
      rw [max_eq_right hk] at hc'
      exact ⟨k, by simpa [Query.step, hw, hflush] using hc'⟩

/-- **A run without failures leaves a view.** -/
theorem consistent_of_neverFails {ops : List Op}
    (h : neverFails ext chain ⟨none, Tables.empty⟩ ops = true) :
    ∃ n, Consistent chain ext (run ext chain ops) n n := by
  have hfold : ∀ (ops : List Op) (s : System), neverFails ext chain s ops = true →
      (∃ n, Consistent chain ext s n n) →
        ∃ n, Consistent chain ext (ops.foldl (Query.step ext chain) s) n n := by
    intro ops
    induction ops with
    | nil => exact fun s _ hs => hs
    | cons op ops ih =>
      rintro s hops ⟨n, hc⟩
      rw [neverFails, Bool.and_eq_true] at hops
      exact ih _ hops.2 (hc.step_of_succeeds hops.1)
  exact hfold ops _ h ⟨0, consistent_empty⟩

theorem tables_eq_view {ops : List Op}
    (h : neverFails ext chain ⟨none, Tables.empty⟩ ops = true) :
    ∃ n, n ≤ chain.blocks.length ∧ (run ext chain ops).tables = chain.view ext n := by
  obtain ⟨n, hc⟩ := consistent_of_neverFails h
  exact ⟨n, hc.le_length, hc.stored.between.eq_view⟩

/-! ### Runs of one writer -/

/-- No flush has tried to reach beyond the blocks the writer holds. -/
def WithinWriter (chain : Chain) (ext : Externals) (s : System) : Prop :=
  ∃ lo hi, Consistent chain ext s lo hi ∧ ∀ w, s.writer = some w →
    ∃ m n, WriterAt chain ext w m n ∧ m ≤ lo ∧ lo ≤ n ∧ hi ≤ n

theorem Consistent.withinWriter {s : System} {n : ℕ} (hc : Consistent chain ext s n n) :
    WithinWriter chain ext s := by
  refine ⟨n, n, hc, fun w hw => ?_⟩
  obtain ⟨m, k, hat, hm, hk⟩ := hc.writer w hw
  exact ⟨m, k, hat, hm, hk, hk⟩

/-- **A writer that is kept stays ahead of its failed flushes.** -/
theorem WithinWriter.step {s : System} (h : WithinWriter chain ext s) {op : Op}
    (hop : op.keepsWriter = true) : WithinWriter chain ext (Query.step ext chain s op) := by
  obtain ⟨lo, hi, hc, hwithin⟩ := h
  rcases hw : s.writer with _ | w
  · rw [step_of_no_writer hw (by rintro faults rfl; cases hop)]
    exact ⟨lo, hi, hc, hwithin⟩
  obtain ⟨m, n, hat, hm, hn, hhi⟩ := hwithin w hw
  have hlocal : op.isLocal = true → WithinWriter chain ext (Query.step ext chain s op) := by
    intro hloc
    obtain ⟨w', n', hstep, hat', hle⟩ := hat.step hw hloc
    refine ⟨lo, hi, hc.step_local hloc, fun w'' hw'' => ?_⟩
    rw [hstep] at hw''
    obtain rfl := Option.some.inj hw''
    exact ⟨m, n', hat', hm, by omega, by omega⟩
  cases op with
  | openWriter faults => cases hop
  | startAt => exact hlocal rfl
  | append i => exact hlocal rfl
  | flush faults =>
    rcases hflush : w.flush ext faults s.tables with ⟨r, w', t'⟩
    rcases r with (e | message) | ⟨⟩
    · obtain ⟨lo', hi', hlo, hhi', hc'⟩ := hc.flush_error hat hm hn hflush
      obtain rfl := QueryWriter.flush_error hflush
      rw [max_eq_right hhi] at hhi'
      simp only [Query.step, hw, hflush]
      refine ⟨lo', hi', hc'.withWriter hat (by omega) (by omega), ?_⟩
      rintro w'' ⟨⟩
      exact ⟨m, n, hat, by omega, by omega, hhi'⟩
    · obtain ⟨lo', hi', -, -, hc'⟩ := hc.flush_error hat hm hn hflush
      simp only [Query.step, hw, hflush]
      refine ⟨lo', hi', hc', fun w'' hw'' => ?_⟩
      cases hw''
    · obtain ⟨hat', hc'⟩ := hc.flush_ok hat hm hn hflush
      rw [max_eq_right hhi] at hc'
      simp only [Query.step, hw, hflush]
      exact hc'.withinWriter

theorem withinWriter_run {ops₁ ops₂ : List Op}
    (h₁ : neverFails ext chain ⟨none, Tables.empty⟩ ops₁ = true)
    (h₂ : ops₂.all Op.keepsWriter = true) :
    WithinWriter chain ext (run ext chain (ops₁ ++ ops₂)) := by
  have hfold : ∀ (ops : List Op) (s : System), ops.all Op.keepsWriter = true →
      WithinWriter chain ext s → WithinWriter chain ext (ops.foldl (Query.step ext chain) s) := by
    intro ops
    induction ops with
    | nil => exact fun s _ hs => hs
    | cons op ops ih =>
      intro s hops hs
      rw [List.all_cons, Bool.and_eq_true] at hops
      exact ih _ hops.2 (hs.step hops.1)
  obtain ⟨n, hc⟩ := consistent_of_neverFails h₁
  rw [run, List.foldl_append]
  exact hfold ops₂ _ h₂ hc.withinWriter

/-! ### The committed part -/

/-- **Two tables agree on what a state has committed**: the state row, the rows of
committed blocks and ids, the committed part of a blob and of a page. The first one
may count more in the statistics of a page. -/
structure SameCommitted (state : StateIndex) (t u : Tables) : Prop where
  stateIndex : t .stateIndex = u .stateIndex
  blockHash : ∀ height, state.Committed .blockHeader height →
    t (.blockHash height) = u (.blockHash height)
  family : ∀ family height, state.Committed .blockHeader height →
    t (.family family height) = u (.family family height)
  familyBlockIndex : ∀ family id, state.Committed family id →
    t (.familyBlockIndex family id) = u (.familyBlockIndex family id)
  payloadLocation : ∀ family id, state.Committed family id →
    t (.payloadLocation family id) = u (.payloadLocation family id)
  payload : ∀ family id offset, state.Committed family id →
    u (.payloadLocation family id) = some (.ok offset) → ∃ blob blob',
      t (.payload (PayloadKey.fromId family id)) = some (.ok blob) ∧
      u (.payload (PayloadKey.fromId family id)) = some (.ok blob') ∧
      blob.take offset = blob'.take offset
  bitmapIndex : ∀ key, ∃ bitmap bitmap', storedBitmap t key = .ok bitmap ∧
    storedBitmap u key = .ok bitmap' ∧
    ∀ x, state.Committed key.family (key.page + x) → (x ∈ bitmap ↔ x ∈ bitmap')
  page : ∀ key value, u (.bitmapIndex key) = some (.ok value) → ∃ value',
    t (.bitmapIndex key) = some (.ok value') ∧ value'.idStart = value.idStart ∧
      value'.idEnd = value.idEnd
  pageStats : ∀ key count, u (.pageStats key) = some (.ok count) → ∃ count',
    t (.pageStats key) = some (.ok count') ∧ count ≤ count'

section Committed

variable {w : QueryWriter} {t : Tables} {n hi j : ℕ}

theorem Chain.bits_subset (hnj : n ≤ j) (key : BitmapIndexKey) :
    chain.bits ext key n ⊆ chain.bits ext key j :=
  fun _ hx => ((Chain.mem_bits_iff hnj).mp hx).1

theorem Chain.card_bits_lt (key : BitmapIndexKey) : (chain.bits ext key j).card < 2 ^ 32 := by
  have hsub : chain.bits ext key j ⊆ Finset.range pageSpan := fun x hx =>
    Finset.mem_range.mpr (Chain.lt_pageSpan_of_mem_bits hx)
  have hcard := Finset.card_le_card hsub
  rw [Finset.card_range] at hcard
  unfold pageSpan at hcard
  omega

/-- A page row of a view, and the row of a later view. -/
theorem Chain.view_bitmapIndex_mono (hnj : n ≤ j) {key : BitmapIndexKey} {value : BitmapIndexValue}
    (h : chain.view ext n (.bitmapIndex key) = some (.ok value)) :
    ∃ value', chain.view ext j (.bitmapIndex key) = some (.ok value') ∧
      value'.idStart = value.idStart ∧ value'.idEnd = value.idEnd := by
  simp only [Chain.view] at h ⊢
  split_ifs at h with hempty
  obtain rfl := Except.ok.inj (Option.some.inj h)
  have hne : chain.bits ext key j ≠ ∅ := fun hcon =>
    hempty (Finset.subset_empty.mp (hcon ▸ Chain.bits_subset hnj key))
  exact ⟨_, if_neg hne, rfl, rfl⟩

theorem Chain.view_pageStats_mono (hnj : n ≤ j) {key : BitmapIndexKey} {count : ℕ}
    (h : chain.view ext n (.pageStats key) = some (.ok count)) :
    ∃ count', chain.view ext j (.pageStats key) = some (.ok count') ∧ count ≤ count' := by
  simp only [Chain.view] at h ⊢
  split_ifs at h with hempty
  obtain rfl := Except.ok.inj (Option.some.inj h)
  have hne : chain.bits ext key j ≠ ∅ := fun hcon =>
    hempty (Finset.subset_empty.mp (hcon ▸ Chain.bits_subset hnj key))
  refine ⟨_, if_neg hne, ?_⟩
  rw [Nat.mod_eq_of_lt (Chain.card_bits_lt key), Nat.mod_eq_of_lt (Chain.card_bits_lt key)]
  exact Finset.card_le_card (Chain.bits_subset hnj key)

theorem Chain.view_payload {key : PayloadKey} (h : chain.blobEntries key j ≠ []) :
    chain.view ext j (.payload key) = some (.ok (blobOf ext (chain.blobEntries key j))) := if_neg h

/-- **The committed part is that of the view.** -/
theorem Consistent.sameCommitted (hc : Consistent chain ext ⟨some w, t⟩ n hi)
    (hat : WriterAt chain ext w n n) : SameCommitted w.state t (chain.view ext n) where
  stateIndex := hc.stored.state
  blockHash height hheight := by
    obtain ⟨i, hin, rfl⟩ := hat.committed_block.mp hheight
    obtain ⟨block, hb⟩ : ∃ block, chain.blocks[i]? = some block :=
      ⟨_, List.getElem?_eq_getElem (by have := hat.le_length; omega)⟩
    exact (hc.blockHash_row hin hb).trans (Chain.view_blockHash hin hb).symm
  family family height hheight := by
    obtain ⟨i, hin, rfl⟩ := hat.committed_block.mp hheight
    obtain ⟨block, hb⟩ : ∃ block, chain.blocks[i]? = some block :=
      ⟨_, List.getElem?_eq_getElem (by have := hat.le_length; omega)⟩
    obtain ⟨j, hnj, -, hj⟩ := hc.stored.between (.family family (chain.start + i))
    exact hj.trans ((Chain.view_family family (by omega) hb).trans
      (Chain.view_family family hin hb).symm)
  familyBlockIndex family id hid := by
    obtain ⟨-, hlt⟩ := hat.committed_iff.mp hid
    obtain ⟨j, hnj, -, hj⟩ := hc.stored.between (.familyBlockIndex family id)
    refine hj.trans ?_
    simp only [Chain.view]
    rw [Chain.blockOfFirst_eq_of_untouched hnj fun i hni _ hcon => ?_]
    have := chain.frontier_mono family hni
    omega
  payloadLocation family id hid := by
    obtain ⟨hbase, hlt⟩ := hat.committed_iff.mp hid
    refine (hc.location_eq hbase hlt).trans ?_
    simp only [Chain.view]
    rw [if_pos ⟨hbase, hlt⟩]
  payload family id offset hid hoffset := by
    obtain ⟨hbase, hlt⟩ := hat.committed_iff.mp hid
    obtain ⟨r, hr⟩ := Chain.exists_mem_entries hbase hlt
    obtain ⟨j, hnj, -, hj⟩ := hc.stored.between (.payload (PayloadKey.fromId family id))
    have hn : chain.blobEntries (PayloadKey.fromId family id) n ≠ [] :=
      List.ne_nil_of_mem (Chain.mem_blobEntries.mpr ⟨hr, rfl⟩)
    have hblob := @Chain.blobEntries_append chain n j (PayloadKey.fromId family id) hnj
    have hjne : chain.blobEntries (PayloadKey.fromId family id) j ≠ [] :=
      hblob ▸ List.append_ne_nil_of_left_ne_nil hn _
    refine ⟨_, _, hj.trans (Chain.view_payload hjne), Chain.view_payload hn, ?_⟩
    have hle := (Chain.payload_slice ext hr).2.1
    simp only [Chain.view] at hoffset
    rw [if_pos ⟨hbase, hlt⟩] at hoffset
    obtain rfl := Except.ok.inj (Option.some.inj hoffset)
    rw [hblob, Chain.blobOf_append, List.take_append_of_le_length hle]
  bitmapIndex key := by
    obtain ⟨j, hnj, -, hj⟩ := hc.stored.between (.bitmapIndex key)
    refine ⟨_, _, storedBitmap_view hj, storedBitmap_view rfl, fun x hx => ?_⟩
    rw [Chain.mem_bits_iff hnj, and_iff_left (hat.committed_iff.mp hx).2]
  page key value hvalue := by
    obtain ⟨j, hnj, -, hj⟩ := hc.stored.between (.bitmapIndex key)
    obtain ⟨value', hvalue', hids⟩ := Chain.view_bitmapIndex_mono hnj hvalue
    exact ⟨value', hj.trans hvalue', hids⟩
  pageStats key count hcount := by
    obtain ⟨j, hnj, -, hj⟩ := hc.stored.between (.pageStats key)
    obtain ⟨count', hcount', hle⟩ := Chain.view_pageStats_mono hnj hcount
    exact ⟨count', hj.trans hcount', hle⟩

end Committed

/-- A view is told by its state row. -/
theorem Chain.eq_of_view_stateIndex {m n : ℕ}
    (h : chain.view ext m .stateIndex = chain.view ext n .stateIndex) : m = n := by
  simp only [Chain.view] at h
  split_ifs at h with hm hn hn
  · rw [hm, hn]
  · have hrow := congrArg StateIndexRow.nextBlockId (Except.ok.inj (Option.some.inj h))
    simpa [StateIndex.columns, Chain.stateAt] using hrow

/-- **A failed flush can be retried.** An error leaves the writer as it was. At a later
successful flush of any run, the tables agree on all that is committed with those of
a run without failures that has committed the same blocks; and they are the same
tables if no writer was opened since the last point up to which nothing had failed. -/
theorem retry_safe (ext : Externals) (chain : Chain) :
    (∀ (w w' : QueryWriter) (faults : List Fault) (t t' : Tables) (e : QueryError),
      w.flush ext faults t = (.error (.error e), w', t') →
        w'.state = w.state ∧ w'.lastBlockHash = w.lastBlockHash ∧ w'.pending = w.pending) ∧
    (∀ (ops ops₀ : List Op) (faults : List Fault) (w w' : QueryWriter) (t' : Tables),
      (run ext chain ops).writer = some w →
      w.flush ext faults (run ext chain ops).tables = (.ok (), w', t') →
      neverFails ext chain ⟨none, Tables.empty⟩ ops₀ = true →
      (run ext chain ops₀).tables .stateIndex = t' .stateIndex →
        SameCommitted w'.state t' (run ext chain ops₀).tables) ∧
    ∀ (ops₁ ops₂ ops₀ : List Op) (faults : List Fault) (w w' : QueryWriter) (t' : Tables),
      neverFails ext chain ⟨none, Tables.empty⟩ ops₁ = true →
      ops₂.all Op.keepsWriter = true →
      (run ext chain (ops₁ ++ ops₂)).writer = some w →
      w.flush ext faults (run ext chain (ops₁ ++ ops₂)).tables = (.ok (), w', t') →
      neverFails ext chain ⟨none, Tables.empty⟩ ops₀ = true →
      (run ext chain ops₀).tables .stateIndex = t' .stateIndex →
        t' = (run ext chain ops₀).tables := by
  refine ⟨fun w w' faults t t' e h => ?_, ?_, ?_⟩
  · obtain rfl := QueryWriter.flush_error h
    exact ⟨rfl, rfl, rfl⟩
  · intro ops ops₀ faults w w' t' hw hflush h₀ hstate
    obtain ⟨n, hi, hat, hc⟩ := consistent_flush hw hflush
    obtain ⟨n₀, -, hview⟩ := tables_eq_view h₀
    rw [hview] at hstate ⊢
    obtain rfl := Chain.eq_of_view_stateIndex (hstate.trans hc.stored.state)
    exact hc.sameCommitted hat
  · intro ops₁ ops₂ ops₀ faults w w' t' h₁ h₂ hw hflush h₀ hstate
    obtain ⟨lo, hi, hc, hwithin⟩ := withinWriter_run h₁ h₂
    obtain ⟨m, n, hat, hm, hn, hhi⟩ := hwithin w hw
    obtain ⟨-, hc'⟩ := hc.flush_ok hat hm hn hflush
    rw [max_eq_right hhi] at hc'
    obtain ⟨n₀, -, hview⟩ := tables_eq_view h₀
    rw [hview] at hstate ⊢
    obtain rfl := Chain.eq_of_view_stateIndex (hstate.trans hc'.stored.state)
    exact hc'.stored.between.eq_view

/-- A run that fails after the statistics of three blocks are written, and opens a new
writer that holds only the second block. -/
def failedOps : List Op :=
  [.openWriter [], .append 0, .flush [], .append 1, .append 2,
    .flush (List.replicate 11 none ++ [some fun _ => false]), .openWriter [], .append 1]

/-- What the next flush of this run leaves. -/
def failedFlush : Except Stop Unit × QueryWriter × Tables :=
  sampleWriter.flush Externals.sample [] (run Externals.sample sampleChain failedOps).tables

theorem failedOps_writer :
    (run Externals.sample sampleChain failedOps).writer = some sampleWriter := by
  decide +kernel

theorem failedFlush_ok : failedFlush.1 = .ok () := by decide +kernel

theorem failedFlush_eq : failedFlush = (.ok (), failedFlush.2.1, failedFlush.2.2) := by
  rw [← failedFlush_ok]

/-- The run without failures that commits the same two blocks. -/
def cleanOps : List Op := sampleOps ++ [.flush []]

theorem cleanOps_neverFails :
    neverFails Externals.sample sampleChain ⟨none, Tables.empty⟩ cleanOps = true := by
  decide +kernel

/-- A run whose writer is kept after its flush has failed. -/
def retriedOps : List Op := [.flush (List.replicate 11 none ++ [some fun _ => false])]

/-- What the retried flush leaves. -/
def retriedFlush : Except Stop Unit × QueryWriter × Tables :=
  sampleWriter.flush Externals.sample []
    (run Externals.sample sampleChain (sampleOps ++ retriedOps)).tables

theorem retriedFlush_ok : retriedFlush.1 = .ok () := by decide +kernel

theorem retriedFlush_eq : retriedFlush = (.ok (), retriedFlush.2.1, retriedFlush.2.2) := by
  rw [← retriedFlush_ok]

theorem retry_safe_sample :
    SameCommitted failedFlush.2.1.state failedFlush.2.2
      (run Externals.sample sampleChain cleanOps).tables ∧
    retriedFlush.2.2 = (run Externals.sample sampleChain cleanOps).tables :=
  have h := retry_safe Externals.sample sampleChain
  ⟨h.2.1 failedOps cleanOps [] sampleWriter failedFlush.2.1 failedFlush.2.2 failedOps_writer
      failedFlush_eq cleanOps_neverFails (by decide +kernel),
    h.2.2 sampleOps retriedOps cleanOps [] sampleWriter retriedFlush.2.1 retriedFlush.2.2
      (by decide +kernel) rfl (by decide +kernel) retriedFlush_eq cleanOps_neverFails
      (by decide +kernel)⟩

/-- **The statistics of a page may run ahead** of what is committed: after a failed
flush and a new writer, the page of the miner of the first and the third block counts
both of them while only the first is committed. -/
theorem stats_ahead_after_failed_flush :
    (run Externals.sample sampleChain failedOps).writer = some sampleWriter ∧
    failedFlush.1 = .ok () ∧
    neverFails Externals.sample sampleChain ⟨none, Tables.empty⟩ cleanOps = true ∧
    (run Externals.sample sampleChain cleanOps).tables .stateIndex = failedFlush.2.2 .stateIndex ∧
    failedFlush.2.2 (.pageStats ⟨.blockHeader, .miner ⟨toBe 20 0, length_toBe 20 0⟩, 0⟩) =
      some (.ok 2) ∧
    (run Externals.sample sampleChain cleanOps).tables
      (.pageStats ⟨.blockHeader, .miner ⟨toBe 20 0, length_toBe 20 0⟩, 0⟩) = some (.ok 1) := by
  refine ⟨failedOps_writer, failedFlush_ok, cleanOps_neverFails, ?_, ?_, ?_⟩
  · decide +kernel
  · decide +kernel
  · decide +kernel

end Query

end MonadServices
