import MonadServices.Query.Writer.BitmapStage

/-!
# The flush moves the tables from view to view

The metadata stage, and the three stages together. Once they are through, every key
that the batch changes holds its value at the new frontier, so that the tables are
**at or beyond the new frontier everywhere** while the state row still names the old
one; the last write moves the state row
(`MonadServices.Query.Chain.flushBatch_meets`). A flush that fails leaves tables that
are as good as before: the stored frontier is still there, and only keys that the
writer will cut down or write again are ahead of it.
-/

namespace MonadServices

namespace Query

namespace Chain

variable {chain : Chain} {ext : Externals} {m n lo hi : ℕ} {D : TableKey → Prop}
  {state : StateIndex}

/-! ### The metadata stage -/

/-- The keys that the metadata stage writes. -/
def MetadataTouched (chain : Chain) (m n : ℕ) (k : TableKey) : Prop :=
  ∃ i, m ≤ i ∧ i < n ∧ (k = .blockHash (chain.start + i) ∨ ∃ family,
    k = .family family (chain.start + i) ∨
      (chain.frontier family i < chain.frontier family (i + 1) ∧
        k = .familyBlockIndex family (chain.frontier family i)))

theorem view_blockHash {i : ℕ} (hi : i < n) {block : QueryWriterBlock}
    (hb : chain.blocks[i]? = some block) :
    chain.view ext n (.blockHash (chain.start + i)) = some (.ok (block.blockHash ext)) := by
  have hat : chain.blockAt (chain.start + i) n = some block :=
    blockAt_eq_some.mpr ⟨i, hi, rfl, hb⟩
  simp [view, hat]

theorem view_family (family : Family) {i : ℕ} (hi : i < n) {block : QueryWriterBlock}
    (hb : chain.blocks[i]? = some block) :
    chain.view ext n (.family family (chain.start + i)) =
      some (.ok ⟨chain.frontier family i, (block.records family).length⟩) := by
  have hat : chain.blockAt (chain.start + i) n = some block :=
    blockAt_eq_some.mpr ⟨i, hi, rfl, hb⟩
  simp [view, hat, rangeAt]

theorem view_familyBlockIndex {family : Family} {i : ℕ} (hi : i < n)
    (hlt : chain.frontier family i < chain.frontier family (i + 1)) :
    chain.view ext n (.familyBlockIndex family (chain.frontier family i)) =
      some (.ok (chain.start + i)) := by
  have hfirst : chain.blockOfFirst family (chain.frontier family i) n = some (chain.start + i) :=
    blockOfFirst_eq_some.mpr ⟨i, hi, rfl, rfl, hlt⟩
  simp [view, hfirst]

theorem number_assigned {i : ℕ} {block : QueryWriterBlock} (hb : chain.blocks[i]? = some block) :
    (chain.assigned i block).block.blockNumber = chain.start + i := chain.number_eq i block hb

theorem mem_blockHashRows {w : TableWrite} :
    w ∈ blockHashRows ext (chain.assignedSegment m n) ↔ ∃ i block, m ≤ i ∧ i < n ∧
      chain.blocks[i]? = some block ∧
        w = put (.blockHash (chain.start + i)) (block.blockHash ext) := by
  unfold blockHashRows
  simp only [List.mem_map, mem_assignedSegment]
  constructor
  · rintro ⟨a, ⟨i, block, hmi, hin, hb, rfl⟩, rfl⟩
    exact ⟨i, block, hmi, hin, hb, by rw [number_assigned hb]; rfl⟩
  · rintro ⟨i, block, hmi, hin, hb, rfl⟩
    exact ⟨_, ⟨i, block, hmi, hin, hb, rfl⟩, by rw [number_assigned hb]; rfl⟩

theorem mem_familyRows {w : TableWrite} :
    w ∈ familyRows (chain.assignedSegment m n) ↔ ∃ i block family, m ≤ i ∧ i < n ∧
      chain.blocks[i]? = some block ∧ w = put (.family family (chain.start + i))
        ⟨chain.frontier family i, (block.records family).length⟩ := by
  unfold familyRows
  simp only [List.mem_flatMap, List.mem_map, mem_assignedSegment]
  constructor
  · rintro ⟨a, ⟨i, block, hmi, hin, hb, rfl⟩, family, -, rfl⟩
    exact ⟨i, block, family, hmi, hin, hb, by rw [familyRange_assigned hb, number_assigned hb]⟩
  · rintro ⟨i, block, family, hmi, hin, hb, rfl⟩
    exact ⟨_, ⟨i, block, hmi, hin, hb, rfl⟩, family, family.mem_all,
      by rw [familyRange_assigned hb, number_assigned hb]⟩

theorem mem_familyBlockIndexRows (hn : n ≤ chain.blocks.length) {w : TableWrite} :
    w ∈ familyBlockIndexRows (chain.assignedSegment m n) ↔ ∃ i family, m ≤ i ∧ i < n ∧
      chain.frontier family i < chain.frontier family (i + 1) ∧
        w = put (.familyBlockIndex family (chain.frontier family i)) (chain.start + i) := by
  unfold familyBlockIndexRows
  simp only [List.mem_flatMap, mem_assignedSegment]
  constructor
  · rintro ⟨a, ⟨i, block, hmi, hin, hb, rfl⟩, family, -, hw⟩
    rw [familyRange_assigned hb, number_assigned hb] at hw
    split_ifs at hw with hpos
    · refine ⟨i, family, hmi, hin, ?_, List.mem_singleton.mp hw⟩
      rw [frontier_succ hb]
      exact Nat.lt_add_of_pos_right hpos
    · exact absurd hw (by simp)
  · rintro ⟨i, family, hmi, hin, hlt, rfl⟩
    obtain ⟨block, hb⟩ : ∃ block, chain.blocks[i]? = some block :=
      ⟨_, List.getElem?_eq_getElem (by omega)⟩
    refine ⟨_, ⟨i, block, hmi, hin, hb, rfl⟩, family, family.mem_all, ?_⟩
    rw [frontier_succ hb] at hlt
    rw [familyRange_assigned hb, number_assigned hb, if_pos (by dsimp only; omega)]
    exact List.mem_singleton_self _

/-- **The metadata stage writes the view.** -/
theorem flushMetadata_meets (h : chain.Flushing state m lo n hi) :
    Faulty.Meets (chain.Underway ext lo hi n D) (flushMetadata ext (chain.batch m n))
      (fun _ => chain.Underway ext lo hi n fun k => D k ∨ chain.MetadataTouched m n k)
      (chain.Stored ext lo hi) := by
  have hn : n ≤ chain.blocks.length := h.le_high.trans h.high_le
  refine Faulty.bind_meets (putBatch_meets h.stored_le h.le_high (fun w hw => ?_) fun w hw => ?_)
    fun _ => Faulty.bind_meets
      (putBatch_meets h.stored_le h.le_high (fun w hw => ?_) fun w hw => ?_) fun _ =>
        (putBatch_meets h.stored_le h.le_high (fun w hw => ?_) fun w hw => ?_).conseq
          (fun _ ht => ht) (fun _ t ht => ht.mono fun k hk => ?_) fun _ ht => ht
  · obtain ⟨i, block, -, hin, hb, rfl⟩ := mem_blockHashRows.mp hw
    exact (view_blockHash hin hb).symm
  · obtain ⟨i, block, -, -, -, rfl⟩ := mem_blockHashRows.mp hw
    nofun
  · obtain ⟨i, block, family, -, hin, hb, rfl⟩ := mem_familyRows.mp hw
    exact (view_family family hin hb).symm
  · obtain ⟨i, block, family, -, -, -, rfl⟩ := mem_familyRows.mp hw
    nofun
  · obtain ⟨i, family, -, hin, hlt, rfl⟩ := (mem_familyBlockIndexRows hn).mp hw
    exact (view_familyBlockIndex hin hlt).symm
  · obtain ⟨i, family, -, -, -, rfl⟩ := (mem_familyBlockIndexRows hn).mp hw
    nofun
  · rcases hk with hk | ⟨i, hmi, hin, hk⟩
    · exact Or.inl (Or.inl (Or.inl hk))
    obtain ⟨block, hb⟩ : ∃ block, chain.blocks[i]? = some block :=
      ⟨_, List.getElem?_eq_getElem (by omega)⟩
    rcases hk with rfl | ⟨family, rfl | ⟨hlt, rfl⟩⟩
    · exact Or.inl (Or.inl (Or.inr ⟨_, mem_blockHashRows.mpr ⟨i, block, hmi, hin, hb, rfl⟩, rfl⟩))
    · exact Or.inl (Or.inr ⟨_, mem_familyRows.mpr ⟨i, block, family, hmi, hin, hb, rfl⟩, rfl⟩)
    · exact Or.inr ⟨_, (mem_familyBlockIndexRows hn).mpr ⟨i, family, hmi, hin, hlt, rfl⟩, rfl⟩

/-! ### The whole flush -/

/-- The keys that a flush writes, but for the state row. -/
def Touched (chain : Chain) (ext : Externals) (m n : ℕ) (k : TableKey) : Prop :=
  chain.PayloadTouched m n k ∨ chain.BitmapTouched ext m n k ∨ chain.MetadataTouched m n k

/-- **A key that no stage writes does not change** on the way from `m` to `n`. -/
theorem view_eq_of_not_touched {k : TableKey} (hk : ¬chain.Touched ext m n k)
    (hstate : k ≠ .stateIndex) {j : ℕ} (hmj : m ≤ j) (hjn : j ≤ n) :
    chain.view ext j k = chain.view ext n k := by
  have hmn : m ≤ n := hmj.trans hjn
  have hnew : ∀ {family : Family} {e : Record × ℕ}, e ∈ chain.entries family n →
      chain.frontier family j ≤ e.2 → e ∈ chain.newEntries family m n :=
    fun he hle => (mem_newEntries hmn).mpr ⟨he, (chain.frontier_mono _ hmj).trans hle⟩
  have hpage : ∀ key : BitmapIndexKey, ¬chain.PageTouched ext m n key →
      chain.bits ext key j = chain.bits ext key n := fun key hkey =>
    bits_eq_of_untouched hjn fun e he hle hfilter hpage =>
      hkey ⟨e, hnew he hle, hpage, hfilter⟩
  cases k with
  | bitmapIndex key =>
    simp only [view]
    rw [hpage key fun hcon => hk (Or.inr (Or.inl ⟨key, hcon, Or.inl rfl⟩))]
  | pageStats key =>
    simp only [view]
    rw [hpage key fun hcon => hk (Or.inr (Or.inl ⟨key, hcon, Or.inr rfl⟩))]
  | blockHash height =>
    simp only [view]
    rw [blockAt_eq_of_untouched hjn fun i hji hin hcon =>
      hk (Or.inr (Or.inr ⟨i, hmj.trans hji, hin, Or.inl (by rw [hcon])⟩))]
  | family family height =>
    simp only [view]
    rw [blockAt_eq_of_untouched hjn fun i hji hin hcon =>
      hk (Or.inr (Or.inr ⟨i, hmj.trans hji, hin, Or.inr ⟨family, Or.inl (by rw [hcon])⟩⟩))]
  | familyBlockIndex family id =>
    simp only [view]
    rw [blockOfFirst_eq_of_untouched hjn]
    intro i hji hin hid
    by_contra hcon
    exact hk (Or.inr (Or.inr ⟨i, hmj.trans hji, hin,
      Or.inr ⟨family, Or.inr ⟨by omega, by rw [hid]⟩⟩⟩))
  | payload key =>
    simp only [view]
    rw [blobEntries_eq_of_untouched hjn]
    intro e he hcon
    obtain ⟨hmem, hle⟩ := (mem_newEntries hjn).mp he
    exact hk (Or.inl ⟨key.family, e, hnew hmem hle, Or.inl (by rw [hcon])⟩)
  | payloadLocation family id =>
    simp only [view]
    by_cases hid : chain.base family ≤ id ∧ id < chain.frontier family n
    · have hlt : id < chain.frontier family j := by
        by_contra hcon
        obtain ⟨r, hr⟩ := exists_mem_entries hid.1 hid.2
        exact hk (Or.inl ⟨family, (r, id), hnew hr (by simpa using hcon), Or.inr rfl⟩)
      rw [if_pos hid, if_pos ⟨hid.1, hlt⟩, payloadEnd_eq hjn hlt]
    · have := chain.frontier_mono family hjn
      rw [if_neg hid, if_neg (by omega)]
  | stateIndex => exact absurd rfl hstate

/-- What a flush that went through has found out about its records: they fit, and
their filters are known. -/
structure Admissible (chain : Chain) (ext : Externals) (n : ℕ) : Prop where
  size : ∀ family, ∀ e ∈ chain.entries family n, (e.1.encode ext).length ≤ maxPayloadSize
  known : ∀ family, ∀ e ∈ chain.entries family n, ∃ values, e.1.bitmapFilters ext = .ok values

theorem Admissible.extend (hmlo : m ≤ lo) (hmn : m ≤ n) (h : chain.Admissible ext lo)
    (hsize : ∀ family, ∀ e ∈ chain.newEntries family m n,
      (e.1.encode ext).length ≤ maxPayloadSize)
    (hknown : ∀ family, ∀ e ∈ chain.newEntries family m n,
      ∃ values, e.1.bitmapFilters ext = .ok values) : chain.Admissible ext n where
  size family e he := by
    rw [entries_append_new family hmn, List.mem_append] at he
    rcases he with he | he
    · exact h.size family e ((mem_entries_iff hmlo).mp he).1
    · exact hsize family e he
  known family e he := by
    rw [entries_append_new family hmn, List.mem_append] at he
    rcases he with he | he
    · exact h.known family e ((mem_entries_iff hmlo).mp he).1
    · exact hknown family e he

/-- The state row moves the tables to the frontier that all the other keys have
reached. -/
theorem Underway.commit (h : chain.Flushing state m lo n hi) (hlt : m < n) {t : Tables}
    (ht : chain.Underway ext lo hi n (chain.Touched ext m n) t) :
    chain.Stored ext n hi (applyAll t [put .stateIndex (chain.stateAt n).columns]) := by
  have hview : (put .stateIndex (chain.stateAt n).columns).2 = chain.view ext n .stateIndex := by
    simp [put, view, show n ≠ 0 by omega]
  have hws : ∀ w ∈ [put .stateIndex (chain.stateAt n).columns], w.2 = chain.view ext n w.1 := by
    intro w hw
    rw [List.mem_singleton] at hw
    subst hw
    exact hview
  have hstate : applyAll t [put .stateIndex (chain.stateAt n).columns] .stateIndex =
      chain.view ext n .stateIndex := applyAll_of_mem hws ⟨_, List.mem_singleton_self _, rfl⟩
  refine ⟨(ht.between.applyAll hws h.stored_le h.le_high).advance h.le_high fun k => ?_, hstate⟩
  by_cases hk : k = .stateIndex
  · exact Or.inl (hk ▸ hstate)
  · by_cases htouched : chain.Touched ext m n k
    · rcases applyAll_cases (t := t) hws k with hsame | hnew
      · exact Or.inl (hsame.trans (ht.written k htouched))
      · exact Or.inl hnew
    · exact Or.inr fun j hj hjn => view_eq_of_not_touched htouched hk (h.le_stored.trans hj) hjn

/-- **A flush moves the tables to the new frontier**, or leaves them where they were;
a failure of the very last write may do either. -/
theorem flushBatch_meets (h : chain.Flushing state m lo n hi) (hlt : m < n)
    (hadmissible : chain.Admissible ext lo) :
    Faulty.Meets (chain.Stored ext lo hi) (flushBatch ext state (chain.batch m n))
      (fun _ t => chain.Admissible ext n ∧ chain.Stored ext n hi t)
      (fun t => chain.Stored ext lo hi t ∨ (chain.Admissible ext n ∧ chain.Stored ext n hi t)) := by
  have hpayload := @flushPayload_meets chain ext m n lo hi (fun _ => False) state h
  refine Faulty.bind_meets (hpayload.conseq (fun t ht => ⟨ht, nofun⟩) (fun _ _ hs => hs)
    fun t ht => Or.inl ht) fun _ fs t ht => ?_
  obtain ⟨hsize, ht⟩ := ht
  refine Faulty.bind_meets ((flushBitmap_meets h hlt).conseq (fun _ hs => hs)
    (fun _ _ hs => hs) fun t ht => Or.inl ht) (fun _ fs t ht => ?_) fs t ht
  obtain ⟨hknown, ht⟩ := ht
  have hadmissible' := hadmissible.extend h.le_stored hlt.le hsize hknown
  have hdone : ∀ (_ : Unit) t, chain.Underway ext lo hi n (fun k =>
      ((False ∨ chain.PayloadTouched m n k) ∨ chain.BitmapTouched ext m n k) ∨
        chain.MetadataTouched m n k) t → chain.Underway ext lo hi n (chain.Touched ext m n) t := by
    intro _ t ht
    refine ht.mono fun k hk => ?_
    rcases hk with hk | hk | hk
    · exact Or.inl (Or.inl (Or.inr hk))
    · exact Or.inl (Or.inr hk)
    · exact Or.inr hk
  refine Faulty.bind_meets ((flushMetadata_meets h).conseq (fun _ hs => hs) hdone
    fun t ht => Or.inl ht) (fun _ => ?_) fs t ht
  refine Faulty.write_meets (fun t ht => ⟨hadmissible', ht.commit h hlt⟩) fun t ws ht hsub => ?_
  rcases List.sublist_singleton.mp hsub with rfl | rfl
  · exact Or.inl ht.toStored
  · exact Or.inr ⟨hadmissible', ht.commit h hlt⟩

end Chain

end Query

end MonadServices
