import MonadServices.Query.Writer.PayloadStage

/-!
# The bitmap stage

The stage collects the positions of the records of the batch, page by page, and
merges each page with what is committed of the stored one: the positions before the
first id of the batch. A stored page may hold more than that – positions of records
that a failed flush was about to commit – and it may come from any frontier; what
is merged is the page at the writer's frontier in every case
(`MonadServices.Query.Chain.committedBitmap_meets`), and so what is written is **the page
of the view** (`MonadServices.Query.Chain.flushBitmap_meets`).
-/

namespace MonadServices

namespace Query

/-! ### The positions of records -/

section Lists

variable {ext : Externals}

/-- The positions `adds` are those of the records `es`, family by family, and the
filters of all of them are known. -/
structure Lists (ext : Externals) (es : Family → List (Record × ℕ)) (adds : List BitmapAdd) :
    Prop where
  known : ∀ family, ∀ e ∈ es family, ∃ values, e.1.bitmapFilters ext = .ok values
  mem : ∀ family filter id, (family, filter, id) ∈ adds ↔
    ∃ r, (r, id) ∈ es family ∧ filter ∈ r.filters ext

theorem Lists.nil : Lists ext (fun _ => []) [] := ⟨by simp, by simp⟩

theorem Lists.append {es es' : Family → List (Record × ℕ)} {adds adds' : List BitmapAdd}
    (h : Lists ext es adds) (h' : Lists ext es' adds') :
    Lists ext (fun family => es family ++ es' family) (adds ++ adds') where
  known family e he := by
    rcases List.mem_append.mp he with he | he
    · exact h.known family e he
    · exact h'.known family e he
  mem family filter id := by
    rw [List.mem_append, h.mem, h'.mem]
    simp only [List.mem_append, or_and_right, exists_or]

/-- The records of one family only. -/
def only (family : Family) (es : List (Record × ℕ)) : Family → List (Record × ℕ) :=
  fun family' => if family' = family then es else []

theorem mem_only {family family' : Family} {es : List (Record × ℕ)} {e : Record × ℕ} :
    e ∈ only family es family' ↔ family' = family ∧ e ∈ es := by
  unfold only
  split_ifs with h <;> simp [h]

theorem Lists.values (family : Family) {r : Record} {values : List BitmapFilterValue}
    (h : r.bitmapFilters ext = .ok values) (id : ℕ) :
    Lists ext (only family [(r, id)]) (values.map fun filter => (family, filter, id)) where
  known family' e he := by
    obtain ⟨-, he⟩ := mem_only.mp he
    rw [List.mem_singleton] at he
    exact ⟨values, by rw [he]; exact h⟩
  mem family' filter id' := by
    simp only [mem_only, List.mem_map, List.mem_singleton, Prod.mk.injEq]
    constructor
    · rintro ⟨filter', hmem, rfl, rfl, rfl⟩
      exact ⟨r, ⟨rfl, rfl, rfl⟩, by rwa [Record.filters_eq h]⟩
    · rintro ⟨r', ⟨rfl, rfl, rfl⟩, hmem⟩
      rw [Record.filters_eq h] at hmem
      exact ⟨filter, hmem, rfl, rfl, rfl⟩

/-- The records matter only through their members. -/
theorem Lists.congr {es es' : Family → List (Record × ℕ)} {adds : List BitmapAdd}
    (h : Lists ext es adds) (heq : ∀ family, es family = es' family) : Lists ext es' adds := by
  obtain rfl : es = es' := funext heq
  exact h

theorem lists_addsFrom {α : Type} {family : Family}
    {filters : α → Except QueryError (List BitmapFilterValue)} (record : α → Record)
    (hrec : ∀ a, (record a).bitmapFilters ext = filters a) {id : ℕ} {l : List α}
    {adds : List BitmapAdd} (h : addsFrom family filters id l = .ok adds) :
    Lists ext (only family ((l.map record).zipIdx id)) adds := by
  induction l generalizing id adds with
  | nil =>
    obtain rfl : [] = adds := Except.ok.inj h
    exact Lists.nil.congr fun family' => by simp [only]
  | cons a l ih =>
    simp only [addsFrom, bind_eq_ok] at h
    obtain ⟨values, hvalues, rest, hrest, hadds⟩ := h
    obtain rfl := Except.ok.inj hadds
    refine ((Lists.values family ((hrec a).trans hvalues) id).append (ih hrest)).congr
      fun family' => ?_
    unfold only
    split_ifs <;> simp

/-- The records of a family in transactions. -/
def txRecords (txs : List QueryWriterTx) : Family → List Record
  | .blockHeader => []
  | .transaction => txs.map fun tx => .transaction tx.envelope
  | .log => txs.flatMap fun tx => tx.logs.map .log
  | .trace => txs.flatMap fun tx => (fromTraces tx.traces).map .trace

theorem lists_txAdds {ids : Family → ℕ} {txs : List QueryWriterTx} {adds : List BitmapAdd}
    (h : txAdds ext (ids .transaction) (ids .log) (ids .trace) txs = .ok adds) :
    Lists ext (fun family => (txRecords txs family).zipIdx (ids family)) adds := by
  induction txs generalizing ids adds with
  | nil =>
    obtain rfl : [] = adds := Except.ok.inj h
    exact Lists.nil.congr fun family => by cases family <;> simp [txRecords]
  | cons tx txs ih =>
    simp only [txAdds, bind_eq_ok] at h
    obtain ⟨values, hvalues, logs, hlogs, traces, htraces, rest, hrest, hadds⟩ := h
    obtain rfl := Except.ok.inj hadds
    have htail := @ih (fun family => ids family + (txRecords [tx] family).length) rest
      (by simpa [txRecords, length_fromTraces] using hrest)
    have hhead := ((Lists.values .transaction (r := .transaction tx.envelope) hvalues
      (ids .transaction)).append (lists_addsFrom Record.log (fun _ => rfl) hlogs)).append
      (lists_addsFrom Record.trace (fun _ => rfl) htraces)
    refine (hhead.append htail).congr fun family => ?_
    cases family <;> simp [only, txRecords, List.zipIdx_append]

end Lists

namespace Chain

variable {chain : Chain} {ext : Externals} {m n lo hi : ℕ} {D : TableKey → Prop}

theorem records_eq_txRecords (block : QueryWriterBlock) (family : Family) :
    block.records family = (match family with
      | .blockHeader => [.blockHeader block.header]
      | _ => []) ++ txRecords block.txs family := by
  cases family with
  | log => simp [QueryWriterBlock.records, QueryWriterBlock.logs, txRecords, List.map_flatMap]
  | blockHeader => simp [QueryWriterBlock.records, txRecords]
  | transaction => simp [QueryWriterBlock.records, txRecords]
  | trace => simp [QueryWriterBlock.records, txRecords]

/-- **The positions of a batch** are those of its records. -/
theorem lists_batchAdds (hmn : m ≤ n) (hn : n ≤ chain.blocks.length) {adds : List BitmapAdd}
    (h : batchAdds ext (chain.assignedSegment m n) = .ok adds) :
    Lists ext (fun family => chain.newEntries family m n) adds := by
  induction hk : n - m generalizing m adds with
  | zero =>
    rw [assignedSegment_of_le (by omega)] at h
    obtain rfl : [] = adds := Except.ok.inj h
    exact Lists.nil.congr fun family => (newEntries_of_le family (by omega)).symm
  | succ k ih =>
    have hlt : m < n := by omega
    obtain ⟨block, hb⟩ : ∃ block, chain.blocks[m]? = some block :=
      ⟨_, List.getElem?_eq_getElem (by omega)⟩
    rw [assignedSegment_cons hlt hb] at h
    simp only [batchAdds, bind_eq_ok] at h
    obtain ⟨values, hvalues, txs, htxs, rest, hrest, hadds⟩ := h
    obtain rfl := Except.ok.inj hadds
    have hnumber : (chain.assigned m block).block.blockNumber = chain.frontier .blockHeader m := by
      rw [frontier_blockHeader (by omega)]
      exact chain.number_eq m block hb
    have hvalues' : (Record.blockHeader block.header).bitmapFilters ext = .ok values := hvalues
    have hheader := Lists.values .blockHeader hvalues' (chain.frontier .blockHeader m)
    have htx := @lists_txAdds ext (fun family => chain.frontier family m) block.txs txs htxs
    rw [hnumber]
    refine ((hheader.append htx).append (ih hlt hrest (by omega))).congr fun family => ?_
    rw [newEntries_cons family hlt hb, records_eq_txRecords, List.zipIdx_append]
    cases family <;> simp [only, txRecords]

/-! ### The pages of a batch -/

/-- The positions that a batch adds to a page. -/
def newBits (chain : Chain) (ext : Externals) (m n : ℕ) (key : BitmapIndexKey) : Finset ℕ :=
  (((chain.newEntries key.family m n).filter fun e =>
    pageOf e.2 = key.page ∧ key.filter ∈ e.1.filters ext).map fun e => e.2 - key.page).toFinset

theorem bits_eq_union (hmn : m ≤ n) (key : BitmapIndexKey) :
    chain.bits ext key n = chain.bits ext key m ∪ chain.newBits ext m n key := by
  unfold bits newBits
  rw [entries_append_new key.family hmn, List.filter_append, List.map_append,
    List.toFinset_append]

/-- A page on which a new record is listed. -/
def PageTouched (chain : Chain) (ext : Externals) (m n : ℕ) (key : BitmapIndexKey) : Prop :=
  ∃ e ∈ chain.newEntries key.family m n, pageOf e.2 = key.page ∧ key.filter ∈ e.1.filters ext

theorem PageTouched.bits_ne_empty (hmn : m ≤ n) {key : BitmapIndexKey}
    (h : chain.PageTouched ext m n key) : chain.bits ext key n ≠ ∅ := by
  obtain ⟨⟨r, id⟩, he, hpage, hfilter⟩ := h
  refine Finset.ne_empty_of_mem (a := id - key.page) (mem_bits.mpr ?_)
  have hid : key.page + (id - key.page) = id := by
    have := pageOf_le id
    dsimp only at hpage
    omega
  rw [hid]
  exact ⟨hpage, r, ((mem_newEntries hmn).mp he).1, hfilter⟩

/-- **The pages of a batch**, one for each page that it adds to. -/
theorem bitmapPages_eq {adds : List BitmapAdd}
    (h : Lists ext (fun family => chain.newEntries family m n) adds) :
    ∃ keys : List BitmapIndexKey, (∀ key, key ∈ keys ↔ chain.PageTouched ext m n key) ∧
      bitmapPages adds = keys.map fun key => (key, chain.newBits ext m n key) := by
  have hadd : ∀ key x, (∃ add ∈ adds, keyOf add = key ∧ x = add.2.2 - key.page) ↔
      ∃ e ∈ chain.newEntries key.family m n,
        (pageOf e.2 = key.page ∧ key.filter ∈ e.1.filters ext) ∧ e.2 - key.page = x := by
    intro key x
    constructor
    · rintro ⟨⟨family, filter, id⟩, hadd, rfl, rfl⟩
      obtain ⟨r, hr, hfilter⟩ := (h.mem family filter id).mp hadd
      exact ⟨(r, id), hr, ⟨rfl, hfilter⟩, rfl⟩
    · rintro ⟨⟨r, id⟩, hr, ⟨hpage, hfilter⟩, rfl⟩
      refine ⟨(key.family, key.filter, id), (h.mem _ _ _).mpr ⟨r, hr, hfilter⟩, ?_, rfl⟩
      dsimp only at hpage
      rw [keyOf, hpage]
  have htouched : ∀ key, (∃ add ∈ adds, keyOf add = key) ↔ chain.PageTouched ext m n key := by
    intro key
    constructor
    · rintro ⟨add, hmem, hkey⟩
      obtain ⟨e, he, hcarries, -⟩ := (hadd key _).mp ⟨add, hmem, hkey, rfl⟩
      exact ⟨e, he, hcarries⟩
    · rintro ⟨e, he, hcarries⟩
      obtain ⟨add, hmem, hkey, -⟩ := (hadd key _).mpr ⟨e, he, hcarries, rfl⟩
      exact ⟨add, hmem, hkey⟩
  have hmem : ∀ p, p ∈ bitmapPages adds ↔
      chain.PageTouched ext m n p.1 ∧ p.2 = chain.newBits ext m n p.1 := by
    rintro ⟨key, bitmap⟩
    rw [mem_bitmapPages, htouched]
    refine and_congr_right fun _ => ?_
    rw [Finset.ext_iff]
    refine forall_congr' fun x => ?_
    rw [hadd]
    simp [newBits, and_assoc]
  refine ⟨(bitmapPages adds).map Prod.fst, fun key => ?_, ?_⟩
  · rw [List.mem_map]
    constructor
    · rintro ⟨p, hp, rfl⟩
      exact ((hmem p).mp hp).1
    · intro hkey
      exact ⟨(key, chain.newBits ext m n key), (hmem _).mpr ⟨hkey, rfl⟩, rfl⟩
  · rw [List.map_map]
    conv_lhs => rw [← List.map_id (bitmapPages adds)]
    exact List.map_congr_left fun p hp => Prod.ext rfl ((hmem p).mp hp).2

/-! ### The committed part of a page -/

section Stage

variable {state : StateIndex}

/-- The first id of the batch is the writer's frontier. -/
theorem bitmapCommitted_batch (hlt : m < n) (hn : n ≤ chain.blocks.length) (family : Family) :
    bitmapCommitted (chain.batch m n) family = chain.frontier family m := by
  obtain ⟨block, hb⟩ : ∃ block, chain.blocks[m]? = some block :=
    ⟨_, List.getElem?_eq_getElem (by omega)⟩
  unfold batch
  rw [assignedSegment_cons hlt hb]
  cases family with
  | blockHeader =>
    rw [frontier_blockHeader (by omega)]
    exact chain.number_eq m block hb
  | transaction => rfl
  | log => rfl
  | trace => rfl

/-- **The committed part of a page is the page at the writer's frontier**, whichever
frontier the stored page comes from. -/
theorem committedBitmap_meets (h : chain.Flushing state m lo n hi) (key : BitmapIndexKey) :
    Faulty.Meets (chain.Underway ext lo hi n D)
      (committedBitmap (chain.frontier key.family m) key)
      (fun bitmap t => (bitmap = chain.bits ext key m ∧ True) ∧ chain.Underway ext lo hi n D t)
      (chain.Stored ext lo hi) := by
  unfold committedBitmap
  by_cases hpage : chain.frontier key.family m ≤ key.page
  · rw [if_pos hpage]
    refine Faulty.pure_meets fun t ht => ⟨⟨?_, trivial⟩, ht⟩
    refine (Finset.eq_empty_of_forall_notMem fun x hx => ?_).symm
    obtain ⟨-, r, hmem, -⟩ := mem_bits.mp hx
    have : key.page + x < chain.frontier key.family m := lt_frontier hmem
    omega
  · rw [if_neg hpage]
    refine Faulty.bind_meets (get_meets _) fun row => ?_
    intro fs t ht
    obtain ⟨⟨j, hj, hjhi, hrow⟩, ht⟩ := ht
    have hmj : m ≤ j := h.le_stored.trans hj
    have hbitmap : (row.map BitmapIndexValue.bitmap).getD ∅ = chain.bits ext key j := by
      simp only [view] at hrow
      split_ifs at hrow with hempty
      · rw [hempty]
        obtain rfl : none = row := Except.ok.inj hrow
        rfl
      · obtain rfl : some _ = row := Except.ok.inj hrow
        rfl
    refine ⟨⟨?_, trivial⟩, ht⟩
    rw [hbitmap]
    ext x
    rw [mem_bits_iff hmj]
    split_ifs with hlt
    · rw [Finset.mem_filter]
      refine and_congr_right fun _ => ?_
      omega
    · -- Every position of the page is before the frontier, also on the last page of all.
      rw [iff_self_and]
      intro hx
      have hspan := lt_pageSpan_of_mem_bits hx
      obtain ⟨-, r, hmem, -⟩ := mem_bits.mp hx
      have hid : key.page + x < chain.frontier key.family j := lt_frontier hmem
      have hhi := chain.frontier_mono key.family hjhi
      have h64 := h.ids_lt key.family
      unfold saturatingAdd at hlt
      omega

/-- **A rewritten page is the page of the view**, and so is its count. -/
theorem pageUpdate_meets (h : chain.Flushing state m lo n hi) (hlt : m < n)
    {key : BitmapIndexKey} (hkey : chain.PageTouched ext m n key) :
    Faulty.Meets (chain.Underway ext lo hi n D)
      (pageUpdate (chain.batch m n) (key, chain.newBits ext m n key))
      (fun r t => (r = (⟨.bitmapIndex key, chain.view ext n (.bitmapIndex key)⟩,
          some ⟨.pageStats key, chain.view ext n (.pageStats key)⟩) ∧ True) ∧
        chain.Underway ext lo hi n D t) (chain.Stored ext lo hi) := by
  have hmn : m ≤ n := hlt.le
  unfold pageUpdate
  rw [bitmapCommitted_batch hlt (h.le_high.trans h.high_le)]
  refine Faulty.bind_meets_of_eq (committedBitmap_meets h key) fun _ => ?_
  refine Faulty.pure_meets fun t ht => ⟨⟨?_, trivial⟩, ht⟩
  have hne := hkey.bits_ne_empty hmn
  dsimp only
  rw [← bits_eq_union hmn, if_neg hne]
  simp only [view, if_neg hne]
  rfl

/-- The keys that the bitmap stage writes. -/
def BitmapTouched (chain : Chain) (ext : Externals) (m n : ℕ) (k : TableKey) : Prop :=
  ∃ key, chain.PageTouched ext m n key ∧ (k = .bitmapIndex key ∨ k = .pageStats key)

/-- **The bitmap stage writes the view.** -/
theorem flushBitmap_meets (h : chain.Flushing state m lo n hi) (hlt : m < n) :
    Faulty.Meets (chain.Underway ext lo hi n D) (flushBitmap ext (chain.batch m n))
      (fun _ t => (∀ family, ∀ e ∈ chain.newEntries family m n,
          ∃ values, e.1.bitmapFilters ext = .ok values) ∧
        chain.Underway ext lo hi n (fun k => D k ∨ chain.BitmapTouched ext m n k) t)
      (chain.Stored ext lo hi) := by
  have hadds : Faulty.Meets (chain.Underway ext lo hi n D)
      (Faulty.lift ((batchAdds ext (chain.batch m n).blocks).mapError Stop.error))
      (fun adds t => Lists ext (fun family => chain.newEntries family m n) adds ∧
        chain.Underway ext lo hi n D t) (chain.Stored ext lo hi) := by
    refine Faulty.lift_meets (fun adds t heq ht => ⟨?_, ht⟩) fun t ht => ht.toStored
    rcases hr : batchAdds ext (chain.batch m n).blocks with e | adds'
    · simp [hr, Except.mapError] at heq
    · obtain rfl : adds' = adds := by simpa [hr, Except.mapError] using heq
      exact lists_batchAdds hlt.le (h.le_high.trans h.high_le) hr
  refine Faulty.bind_meets hadds fun adds => ?_
  intro fs t ht
  obtain ⟨hlists, ht⟩ := ht
  obtain ⟨keys, hkeys, hpages⟩ := bitmapPages_eq hlists
  rw [hpages]
  refine (Faulty.bind_meets_of_eq (Faulty.traverse_meets_map fun key hkey =>
    pageUpdate_meets h hlt ((hkeys key).mp hkey)) fun _ => ?_) fs t ht
  simp only [List.map_map, List.filterMap_map]
  refine Faulty.bind_meets (putBatch_meets h.stored_le h.le_high ?_ ?_) fun _ => ?_
  · simp
  · simp
  refine (putBatch_meets h.stored_le h.le_high ?_ ?_).conseq (fun _ hs => hs)
    (fun _ t' ht' => ⟨fun family => hlists.known family, ht'.mono fun k hk => ?_⟩) fun _ hs => hs
  · simp
  · simp
  · rcases hk with hk | ⟨key, hkey, rfl | rfl⟩
    · exact Or.inl (Or.inl hk)
    · refine Or.inl (Or.inr ?_)
      simpa using (hkeys key).mpr hkey
    · refine Or.inr ?_
      simpa using (hkeys key).mpr hkey

end Stage

end Chain

end Query

end MonadServices
