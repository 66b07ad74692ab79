import MonadServices.Query.Validate.Range

/-!
# What the validator accepts

From ranges of ids to blocks, to batches of blocks, to the whole walk. A block is accepted
if and only if each of its ranges is in order and continues the one before it
(`MonadServices.Query.BlockOk`), whatever batch it is read in; a walk over the whole index
is accepted if and only if the index is **valid** (`MonadServices.Query.Valid`), which is a
property of the tables alone. That is `MonadServices.Query.runValidation_iff`.
-/

namespace MonadServices

namespace Query

/-! ### Blocks -/

/-- The range of ids of a family in a block. -/
def rangeOf (t : Tables) (family : Family) (block : ℕ) : Option FamilyMetadata :=
  match t (.family family block) with
  | some (.ok m) => some m
  | _ => none

/-- Where the ids of a family stand before a block. -/
def idsBefore (t : Tables) (family : Family) (block : ℕ) : Option ℕ :=
  if block = 0 then none
  else (rangeOf t family (block - 1)).map fun m => m.firstPrimaryId + m.count

/-- The range of a family in a block is in order. -/
def FamilyOk (ext : Externals) (t : Tables) (block : ℕ) (family : Family) : Prop :=
  ∃ m, t (.family family block) = some (.ok m) ∧
    (idsBefore t family block).all (· = m.firstPrimaryId) = true ∧ RangeOk ext t block family m

/-- **A block is in order.** -/
structure BlockOk (ext : Externals) (t : Tables) (block : ℕ) : Prop where
  hash : ∃ hash, t (.blockHash block) = some (.ok hash)
  families : ∀ family, FamilyOk ext t block family

/-- The positions of the records of a family in a block. -/
def familyAdds (ext : Externals) (t : Tables) (block : ℕ) (family : Family) : List BitmapAdd :=
  match rangeOf t family block with
  | none => []
  | some m => rangeAdds ext t family m

/-- The positions of the records of a block. -/
def blockAdds (ext : Externals) (t : Tables) (block : ℕ) : List BitmapAdd :=
  Family.all.flatMap (familyAdds ext t block)

section Blocks

variable {ext : Externals} {t : Tables} {family : Family} {block : ℕ}
  {adds : List BitmapAdd} {v : Walk}

theorem rangeOf_eq_some {m : FamilyMetadata} :
    rangeOf t family block = some m ↔ t (.family family block) = some (.ok m) := by
  unfold rangeOf
  rcases t (.family family block) with _ | (e | m') <;> simp

theorem idsBefore_succ {m : FamilyMetadata} (h : t (.family family block) = some (.ok m)) :
    idsBefore t family (block + 1) = some (m.firstPrimaryId + m.count) := by
  rw [idsBefore, if_neg (Nat.succ_ne_zero block), Nat.add_sub_cancel, rangeOf_eq_some.mpr h]
  rfl

theorem familyAdds_eq {m : FamilyMetadata} (h : t (.family family block) = some (.ok m)) :
    familyAdds ext t block family = rangeAdds ext t family m := by
  rw [familyAdds, rangeOf_eq_some.mpr h]

theorem readRow_family {row : Option FamilyMetadata}
    (h : readRow t (.family family block) = .ok row) : row = rangeOf t family block := by
  rw [readRow_eq_ok] at h
  unfold rangeOf
  rcases hrow : t (.family family block) with _ | (e | m)
  · simpa [hrow, rowValue] using h.symm
  · simp [hrow, rowValue] at h
  · simpa [hrow, rowValue] using h.symm

/-- The rows of a batch are those of the table. -/
theorem familyMetadata_ok {blocks : List ℕ}
    {rows : List ((ℕ × Family) × Option FamilyMetadata)} (h : familyMetadata t blocks = .ok rows)
    (hblock : block ∈ blocks) :
    (lookupKey (block, family) rows).join = rangeOf t family block := by
  have hkey : (block, family) ∈
      Family.all.flatMap fun family => blocks.map fun block => (block, family) :=
    List.mem_flatMap.mpr ⟨family, Family.mem_all family, List.mem_map.mpr ⟨block, hblock, rfl⟩⟩
  obtain ⟨rfl, -⟩ := eq_map_of_mapM (g := fun key => (key, rangeOf t key.2 key.1)) h
    fun key _ p hp => by
      rcases hrow : readRow t (.family key.2 key.1) with e | row
      · rw [hrow] at hp
        cases hp
      · rw [hrow] at hp
        rw [← readRow_family hrow]
        exact (Except.ok.inj hp).symm
  rw [lookupKey_map hkey]
  rfl

/-- The rows of a batch can be read when they are there. -/
theorem familyMetadata_eq {blocks : List ℕ}
    (h : ∀ block ∈ blocks, ∀ family, ∃ m, t (.family family block) = some (.ok m)) :
    ∃ rows, familyMetadata t blocks = .ok rows := by
  refine ⟨_, mapM_eq_ok_map (g := fun key => (key, rangeOf t key.2 key.1)) fun key hkey => ?_⟩
  obtain ⟨family, -, hkey⟩ := List.mem_flatMap.mp hkey
  obtain ⟨block, hblock, rfl⟩ := List.mem_map.mp hkey
  obtain ⟨m, hm⟩ := h block hblock family
  rw [readRow_eq_some.mpr hm, rangeOf_eq_some.mpr hm]
  rfl

/-- Where the ids stand within a block, after some of its families. -/
def idsWithin (t : Tables) (block : ℕ) (done : List Family) (family : Family) : Option ℕ :=
  if family ∈ done then idsBefore t family (block + 1) else idsBefore t family block

variable {rows : List ((ℕ × Family) × Option FamilyMetadata)} {done : List Family}

/-- **A family of a block.** -/
theorem validateFamily_accepts
    (hrow : (lookupKey (block, family) rows).join = rangeOf t family block)
    (hnot : family ∉ done) (h : WalkAt t adds (idsWithin t block done) v) :
    Accepts Walk.Clean (validateFamily ext t rows block v family) (FamilyOk ext t block family)
      (WalkAt t (adds ++ familyAdds ext t block family)
        (idsWithin t block (done ++ [family]))) := by
  unfold validateFamily
  rw [hrow]
  rcases hm : rangeOf t family block with _ | m
  · refine .ok (fun hclean => absurd hclean (not_clean_issue v _))
      (fun hclean => absurd hclean (not_clean_issue v _)) ?_
    rintro ⟨m, hm', -⟩
    rw [rangeOf_eq_some.mpr hm'] at hm
    cases hm
  · have hm := rangeOf_eq_some.mp hm
    have hids : Function.update (idsWithin t block done) family
        (some (m.firstPrimaryId + m.count)) = idsWithin t block (done ++ [family]) := by
      funext f
      by_cases hf : f = family
      · subst hf
        simp [idsWithin, idsBefore_succ hm]
      · simp [idsWithin, hf]
    have hr := @validateRange_accepts ext t family block m adds _ v h
    rw [hids, ← familyAdds_eq hm] at hr
    refine hr.congr ?_ fun _ => id
    rw [idsWithin, if_neg hnot]
    constructor
    · exact fun hC => ⟨m, hm, hC⟩
    · rintro ⟨m', hm', hC⟩
      obtain rfl : m = m' := Except.ok.inj (Option.some.inj (hm.symm.trans hm'))
      exact hC

theorem validateFamily_clean {v' : Walk} (hok : validateFamily ext t rows block v family = .ok v')
    (hclean : v'.Clean) : v.Clean := by
  unfold validateFamily at hok
  split at hok
  · obtain rfl := Except.ok.inj hok
    exact absurd hclean (not_clean_issue v _)
  · exact (validateRange_clean.mp ⟨hok, hclean⟩).1

/-- **The families of a block**, one after the other. -/
theorem validateFamilies_accepts
    (hrows : ∀ family, (lookupKey (block, family) rows).join = rangeOf t family block)
    (h : WalkAt t adds (fun family => idsBefore t family block) v) :
    Accepts Walk.Clean (Family.all.foldlM (validateFamily ext t rows block) v)
      (∀ family ∈ Family.all, FamilyOk ext t block family)
      (WalkAt t (adds ++ blockAdds ext t block) fun family => idsBefore t family (block + 1)) := by
  let I : List Family → Walk → Prop := fun done =>
    WalkAt t (adds ++ done.flatMap (familyAdds ext t block)) (idsWithin t block done)
  have hstart : I [] v := by
    show WalkAt t (adds ++ []) (fun family => idsWithin t block [] family) v
    simpa [idsWithin] using h
  have hfold : Accepts Walk.Clean (Family.all.foldlM (validateFamily ext t rows block) v)
      (∀ family ∈ Family.all, FamilyOk ext t block family) (I ([] ++ Family.all)) := by
    refine Accepts.foldlM I (fun family v v' => validateFamily_clean) hstart h.issues ?_
    intro pre family post hall v' hv' _
    have hnot : family ∉ pre := by
      intro hmem
      have hnodup : Family.all.Nodup := by decide
      rw [hall, List.nodup_append] at hnodup
      exact hnodup.2.2 family hmem family (by simp) rfl
    have hstep := @validateFamily_accepts ext t family block _ v' rows pre (hrows family) hnot hv'
    simpa [I, List.append_assoc] using hstep
  refine hfold.congr Iff.rfl fun v' hv' => ?_
  have hids : idsWithin t block Family.all = fun family => idsBefore t family (block + 1) := by
    funext family
    rw [idsWithin, if_pos (Family.mem_all family)]
  rw [← hids]
  exact hv'

/-- **A block.** -/
theorem validateBlock_accepts
    (hrows : ∀ family, (lookupKey (block, family) rows).join = rangeOf t family block)
    (h : WalkAt t adds (fun family => idsBefore t family block) v) :
    Accepts Walk.Clean (validateBlock ext t rows v block) (BlockOk ext t block)
      (WalkAt t (adds ++ blockAdds ext t block) fun family => idsBefore t family (block + 1)) := by
  have hmissing : ∀ {r}, (∀ hash, r ≠ .ok (some hash)) → readRow t (.blockHash block) = r →
      ¬BlockOk ext t block := by
    rintro r hr hread ⟨⟨hash, hhash⟩, -⟩
    exact hr hash (hread.symm.trans (readRow_eq_some.mpr hhash))
  unfold validateBlock
  rcases hread : readRow t (.blockHash block) with e | (_ | hash)
  · exact .error e (hmissing (by simp) hread)
  · refine ⟨fun v' hok hclean => ?_, fun hC => absurd hC (hmissing (by simp) hread)⟩
    have := Accepts.good_of_foldlM (fun family v v' => validateFamily_clean) hok hclean
    exact absurd this (not_clean_issue v _)
  · refine (validateFamilies_accepts hrows h).congr ?_ fun _ => id
    constructor
    · exact fun hC => ⟨⟨hash, readRow_eq_some.mp hread⟩,
        fun family => hC family (Family.mem_all family)⟩
    · exact fun hC family _ => hC.families family

theorem validateBlock_clean {v' : Walk} (hok : validateBlock ext t rows v block = .ok v')
    (hclean : v'.Clean) : v.Clean := by
  obtain ⟨hash, -, hok⟩ := bind_eq_ok.mp hok
  have hclean := Accepts.good_of_foldlM (fun family v v' => validateFamily_clean) hok hclean
  split_ifs at hclean
  · exact hclean
  · exact absurd hclean (not_clean_issue v _)

/-- A piece of consecutive numbers. -/
theorem eq_range'_of_append {first count : ℕ} {pre l post : List ℕ}
    (h : List.range' first count = pre ++ (l ++ post)) :
    l = List.range' (first + pre.length) l.length := by
  obtain ⟨k, hk, rfl, hrest⟩ := List.range'_eq_append_iff.mp h
  obtain ⟨j, hj, rfl, -⟩ := List.range'_eq_append_iff.mp hrest.symm
  simp

/-- **A batch of blocks.** -/
theorem validateBatch_accepts {first count : ℕ}
    (h : WalkAt t adds (fun family => idsBefore t family first) v) :
    Accepts Walk.Clean (validateBatch ext t v (List.range' first count))
      (∀ block ∈ List.range' first count, BlockOk ext t block)
      (WalkAt t (adds ++ (List.range' first count).flatMap (blockAdds ext t))
        fun family => idsBefore t family (first + count)) := by
  unfold validateBatch
  rcases hrows : familyMetadata t (List.range' first count) with e | rows
  · refine .error e fun hC => ?_
    obtain ⟨rows, hrows'⟩ := familyMetadata_eq fun block hblock family => by
      obtain ⟨m, hm, -⟩ := (hC block hblock).families family
      exact ⟨m, hm⟩
    rw [hrows] at hrows'
    cases hrows'
  · let I : List ℕ → Walk → Prop := fun done => WalkAt t (adds ++ done.flatMap (blockAdds ext t))
      fun family => idsBefore t family (first + done.length)
    have hstart : I [] v := by simpa [I] using h
    have hfold : Accepts Walk.Clean ((List.range' first count).foldlM (validateBlock ext t rows) v)
        (∀ block ∈ List.range' first count, BlockOk ext t block)
        (I ([] ++ List.range' first count)) := by
      refine Accepts.foldlM I (fun block v v' => validateBlock_clean) hstart h.issues ?_
      intro pre block post hall v' hv' _
      have hblock : block = first + pre.length := by
        have := eq_range'_of_append (l := [block]) hall
        simpa using this
      have hstep := @validateBlock_accepts ext t block _ v' rows
        (fun family => familyMetadata_ok hrows (by rw [hall]; simp)) (by rw [hblock]; exact hv')
      simpa [I, List.append_assoc, hblock, Nat.add_assoc] using hstep
    simp only [I, List.nil_append, List.length_range'] at hfold
    exact hfold

end Blocks

/-! ### The whole walk -/

theorem flatten_batches (start last j : ℕ) :
    ((List.range j).map fun k => List.range' (start + k * metadataBatchSize)
      (min metadataBatchSize (last + 1 - (start + k * metadataBatchSize)))).flatten =
        List.range' start (min (j * metadataBatchSize) (last + 1 - start)) := by
  induction j with
  | zero => simp
  | succ j ih =>
    rw [List.range_succ, List.map_append, List.flatten_append, ih, List.map_singleton,
      List.flatten_singleton]
    have hsucc : (j + 1) * metadataBatchSize = j * metadataBatchSize + metadataBatchSize :=
      Nat.succ_mul j metadataBatchSize
    rcases Nat.lt_or_ge (last + 1 - start) (j * metadataBatchSize) with hlt | hge
    · have hzero : min metadataBatchSize (last + 1 - (start + j * metadataBatchSize)) = 0 := by
        omega
      rw [hzero, List.range'_zero, List.append_nil]
      congr 1
      omega
    · rw [min_eq_left hge, List.range'_append_1]
      congr 1
      omega

/-- The batches are the blocks of the range. -/
theorem flatten_metadataBatches {start last : ℕ} (h : start ≤ last) :
    (metadataBatches start last).flatten = List.range' start (last + 1 - start) := by
  rw [metadataBatches, flatten_batches]
  congr 1
  have := Nat.lt_div_mul_add (a := last - start) (b := metadataBatchSize) (by decide)
  rw [Nat.succ_mul]
  omega

section Whole

variable {ext : Externals} {t : Tables} {start last : ℕ} {v : Walk}

/-- The positions of the records of all blocks from `start` to `last`. -/
def allAdds (ext : Externals) (t : Tables) (start last : ℕ) : List BitmapAdd :=
  (List.range' start (last + 1 - start)).flatMap (blockAdds ext t)

theorem validateBatch_clean {blocks : List ℕ} {v' : Walk}
    (hok : validateBatch ext t v blocks = .ok v') (hclean : v'.Clean) : v.Clean := by
  obtain ⟨rows, -, hok⟩ := bind_eq_ok.mp hok
  exact Accepts.good_of_foldlM (fun block v v' => validateBlock_clean) hok hclean

/-- **All blocks.** -/
theorem validateBatches_accepts (hle : start ≤ last)
    (h : WalkAt t [] (fun family => idsBefore t family start) v) :
    Accepts Walk.Clean ((metadataBatches start last).foldlM (validateBatch ext t) v)
      (∀ block, start ≤ block → block ≤ last → BlockOk ext t block)
      (WalkAt t (allAdds ext t start last) fun family => idsBefore t family (last + 1)) := by
  have hflat := flatten_metadataBatches hle
  let I : List (List ℕ) → Walk → Prop := fun done =>
    WalkAt t (done.flatten.flatMap (blockAdds ext t))
      fun family => idsBefore t family (start + done.flatten.length)
  have hstart : I [] v := by simpa [I] using h
  have hfold : Accepts Walk.Clean ((metadataBatches start last).foldlM (validateBatch ext t) v)
      (∀ blocks ∈ metadataBatches start last, ∀ block ∈ blocks, BlockOk ext t block)
      (I ([] ++ metadataBatches start last)) := by
    refine Accepts.foldlM I (fun blocks v v' => validateBatch_clean) hstart h.issues ?_
    intro pre blocks post hall v' hv' _
    have hblocks : blocks = List.range' (start + pre.flatten.length) blocks.length := by
      rw [hall, List.flatten_append, List.flatten_cons] at hflat
      exact eq_range'_of_append hflat.symm
    have hstep := @validateBatch_accepts ext t _ v' (start + pre.flatten.length) blocks.length hv'
    rw [← hblocks] at hstep
    simpa [I, Nat.add_assoc] using hstep
  refine hfold.congr ⟨fun hC block h1 h2 => ?_, fun hC blocks hblocks block hblock => ?_⟩
    fun v' hv' => ?_
  · have hmem : block ∈ (metadataBatches start last).flatten := by
      rw [hflat, List.mem_range'_1]
      omega
    obtain ⟨blocks, hblocks, hblock⟩ := List.mem_flatten.mp hmem
    exact hC blocks hblocks block hblock
  · have hmem := List.mem_flatten_of_mem hblocks hblock
    rw [hflat, List.mem_range'_1] at hmem
    exact hC block hmem.1 (by omega)
  · simp only [I, List.nil_append, hflat, List.length_range'] at hv'
    rwa [show start + (last + 1 - start) = last + 1 by omega] at hv'

/-- The rows of the block before the first one, if there are any, can be used. -/
def StartOk (t : Tables) (start : ℕ) : Prop :=
  start ≠ 0 → ∀ family, t (.family family (start - 1)) = none ∨
    ∃ m, t (.family family (start - 1)) = some (.ok m) ∧ m.firstPrimaryId + m.count < 2 ^ 64

theorem startIds_accepts (t : Tables) (start : ℕ) :
    Accepts (fun _ => True) (startIds t start) (StartOk t start)
      fun ids => ids = fun family => idsBefore t family start := by
  unfold startIds
  split_ifs with hzero
  · refine .ok (fun _ hcon => absurd hzero hcon) (fun _ => ?_) fun _ => trivial
    funext family
    rw [idsBefore, if_pos hzero]
  · let I : List Family → (Family → Option ℕ) → Prop := fun done ids =>
      ids = fun family => if family ∈ done then idsBefore t family start else none
    let C : Family → Prop := fun family => t (.family family (start - 1)) = none ∨
      ∃ m, t (.family family (start - 1)) = some (.ok m) ∧ m.firstPrimaryId + m.count < 2 ^ 64
    have hstart : I [] fun _ => none := by simp [I]
    refine (Accepts.foldlM (C := C) I (fun _ _ _ _ _ => trivial) hstart trivial ?_).congr ?_ ?_
    · rintro pre family post - ids rfl -
      have hbefore : idsBefore t family start =
          (rangeOf t family (start - 1)).map fun m => m.firstPrimaryId + m.count := by
        rw [idsBefore, if_neg hzero]
      rcases hrow : t (.family family (start - 1)) with _ | (e | m)
      · have hread : readRow t (.family family (start - 1)) = .ok none := by
          rw [readRow_eq_ok, hrow]
          rfl
        rw [← readRow_family hread] at hbefore
        rw [hread]
        refine .ok (fun _ => .inl hrow) (fun _ => ?_) fun _ => trivial
        funext f
        by_cases hf : f = family
        · simp [hf, hbefore]
        · simp [hf]
      · have hread : readRow t (.family family (start - 1)) = .error (.query e) := by
          rw [readRow, hrow]
          rfl
        rw [hread]
        refine .error _ ?_
        rintro (hcon | ⟨m, hcon, -⟩)
        · simp [hrow] at hcon
        · simp [hrow] at hcon
      · rw [rangeOf_eq_some.mpr hrow] at hbefore
        rw [readRow_eq_some.mpr hrow]
        by_cases hfits : m.firstPrimaryId + m.count < 2 ^ 64
        · simp only [bind, Except.bind, checkedAdd_eq_some.mpr ⟨rfl, hfits⟩]
          refine .ok (fun _ => .inr ⟨m, hrow, hfits⟩) (fun _ => ?_) fun _ => trivial
          funext f
          by_cases hf : f = family
          · simp [hf, hbefore]
          · simp [hf]
        · have hnone : checkedAdd m.firstPrimaryId m.count = none := by
            rw [checkedAdd, if_neg hfits]
          simp only [bind, Except.bind, hnone]
          refine .error _ ?_
          rintro (hcon | ⟨m', hcon, hfits'⟩)
          · simp [hrow] at hcon
          · obtain rfl : m = m' := Except.ok.inj (Option.some.inj (hrow.symm.trans hcon))
            exact hfits hfits'
    · exact ⟨fun h _ family => h family (Family.mem_all family), fun h family _ => h hzero family⟩
    · intro ids hids
      simpa [I, Family.mem_all] using hids

/-- The pages of positions list these positions and no other ones. -/
def PagesExact (t : Tables) (adds : List BitmapAdd) : Prop :=
  ∀ e ∈ bitmapPages adds, ∃ bitmap, t (.bitmapIndex e.1) = some (.ok bitmap) ∧ bitmap.bitmap = e.2

theorem validateBitmapExact_eq_ok {adds : List BitmapAdd} {ids : Family → Option ℕ}
    (h : WalkAt t adds ids v) : validateBitmapExact v = .ok () ↔ PagesExact t adds := by
  have hpage : ∀ e ∈ bitmapPages adds, ∃ cached, lookupKey e.1 v.bitmapCache = some cached ∧
      t (.bitmapIndex e.1) = some (.ok cached.1) := by
    intro e he
    obtain ⟨⟨add, hadd, hkey⟩, -⟩ := mem_collect.mp (show (e.1, e.2) ∈ bitmapPages adds from he)
    obtain ⟨cached, hcached⟩ := Option.isSome_iff_exists.mp (h.loaded add hadd)
    rw [keyOf, hkey] at hcached
    exact ⟨cached, hcached, (h.cached e.1 cached hcached).1⟩
  unfold validateBitmapExact
  dsimp only
  rw [h.expected, PagesExact]
  split_ifs with herrors
  · rw [List.filterMap_eq_nil_iff] at herrors
    refine iff_of_true rfl fun e he => ?_
    obtain ⟨cached, hcached, hrow⟩ := hpage e he
    have hnone := herrors e he
    rw [hcached] at hnone
    dsimp only at hnone
    split_ifs at hnone with hbits
    exact ⟨cached.1, hrow, hbits⟩
  · refine iff_of_false (by simp) fun hexact => herrors ?_
    rw [List.filterMap_eq_nil_iff]
    intro e he
    obtain ⟨cached, hcached, hrow⟩ := hpage e he
    obtain ⟨bitmap, hrow', hbits⟩ := hexact e he
    obtain rfl : cached.1 = bitmap := Except.ok.inj (Option.some.inj (hrow.symm.trans hrow'))
    rw [hcached]
    dsimp only
    rw [if_pos hbits]

/-- **What the validator accepts** over the whole index. -/
structure Valid (ext : Externals) (t : Tables) (state : StateIndex) (start last : ℕ) : Prop where
  le : start ≤ last
  before : StartOk t start
  blocks : ∀ block, start ≤ block → block ≤ last → BlockOk ext t block
  pages : PagesExact t (allAdds ext t start last)
  frontiers : ∀ family, family ≠ .blockHeader →
    idsBefore t family (last + 1) = some (state.frontier family)

theorem frontiersAgree_iff {state : StateIndex} {ids : Family → Option ℕ} {adds : List BitmapAdd}
    (h : WalkAt t adds ids v) : frontiersAgree state v = true ↔
      ∀ family, family ≠ .blockHeader → ids family = some (state.frontier family) := by
  unfold frontiersAgree
  rw [h.ids]
  simp only [Bool.and_eq_true, decide_eq_true_eq, and_assoc]
  constructor
  · rintro ⟨htx, hlog, htrace⟩ family hfamily
    cases family with
    | blockHeader => exact absurd rfl hfamily
    | transaction => exact htx
    | log => exact hlog
    | trace => exact htrace
  · intro h
    exact ⟨h .transaction (by simp), h .log (by simp), h .trace (by simp)⟩

/-- **The validator accepts the whole index if and only if it is valid.** -/
theorem runValidation_iff {row : StateIndexRow} (hrow : t .stateIndex = some (.ok row))
    (hstart : row.indexedStart = start) (hlast : row.nextBlockId = last + 1) :
    (∃ v, runValidation ext t start (some last) = .ok v) ↔ Valid ext t row.decode start last := by
  have hstate : ∀ missing, readState t missing = .ok row.decode := by
    intro missing
    unfold readState
    rw [readRow_eq_some.mpr hrow]
    rfl
  have hend : start ≤ last → lastBlockId row.decode = some last := by
    intro hle
    have hsub : checkedSub row.nextBlockId 1 = some last := by
      rw [checkedSub, hlast, if_pos (by omega), Nat.add_sub_cancel]
    simp [lastBlockId, StateIndexRow.decode, hsub, hstart, hle]
  unfold runValidation
  simp only [hstate, bind, Except.bind, Option.some_or]
  by_cases hle : start ≤ last
  · rw [if_neg (by omega)]
    rcases hids : startIds t start with e | ids
    · refine iff_of_false (by simp) fun h => ?_
      obtain ⟨ids, hok, -⟩ := (startIds_accepts t start).complete h.before
      rw [hids] at hok
      cases hok
    · obtain ⟨hbefore, rfl⟩ := (startIds_accepts t start).sound ids hids trivial
      have hwalk := @validateBatches_accepts ext t start last
        ⟨fun family => idsBefore t family start, [], [], [], []⟩ hle
        ⟨rfl, rfl, rfl, by simp [lookupKey], by simp⟩
      dsimp only
      rcases hfold : (metadataBatches start last).foldlM (validateBatch ext t)
        ⟨fun family => idsBefore t family start, [], [], [], []⟩ with e | v
      · refine iff_of_false (by simp) fun h => ?_
        obtain ⟨v, hok, -⟩ := hwalk.complete h.blocks
        rw [hfold] at hok
        cases hok
      · have hstart' : row.decode.indexedStart = some start := congrArg some hstart
        simp only [hend hle, hstart', and_self, if_true, true_and, ne_eq, not_true_eq_false,
          or_self, if_false]
        constructor
        · rintro ⟨v', h⟩
          rcases hexact : validateBitmapExact v with e | _
          · rw [hexact] at h
            cases h
          · rw [hexact] at h
            dsimp only at h
            by_cases hagree : frontiersAgree row.decode v = true
            · have hnot : ¬frontiersAgree row.decode v = false := by simp [hagree]
              simp only [if_neg hnot] at h
              split_ifs at h with hclean
              obtain ⟨hblocks, hv⟩ := hwalk.sound v hfold hclean
              exact ⟨hle, hbefore, hblocks, (validateBitmapExact_eq_ok hv).mp hexact,
                (frontiersAgree_iff hv).mp hagree⟩
            · simp [eq_false_of_ne_true hagree, Walk.issue] at h
        · intro h
          obtain ⟨v', hok, hclean⟩ := hwalk.complete h.blocks
          obtain rfl := Except.ok.inj (hfold.symm.trans hok)
          have hv := (hwalk.sound v hfold hclean).2
          have hagree := (frontiersAgree_iff hv).mpr h.frontiers
          have hnot : ¬frontiersAgree row.decode v = false := by simp [hagree]
          refine ⟨v, ?_⟩
          simp only [(validateBitmapExact_eq_ok hv).mpr h.pages, if_neg hnot]
          rw [if_pos hv.issues]
  · rw [if_pos (by omega)]
    refine iff_of_false (by simp) fun h => hle h.le

end Whole

end Query

end MonadServices
