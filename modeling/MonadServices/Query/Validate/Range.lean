import MonadServices.Query.Record
import MonadServices.Query.Validate.Payload

/-!
# The checks of a range of ids

The validator accepts the ids of a family in a block if and only if what it reads about
them is in order, taken by itself: the block index row is there, the payloads code
records of the family, and the pages of their filters list them. This is
`MonadServices.Query.RangeOk`, in which nothing that the validator carries along occurs;
only the start of the range is compared with what it carries.

What it carries after some records is known, too: it expects their positions, and the
pages it has kept are those of the tables (`MonadServices.Query.WalkAt`).
-/

namespace MonadServices

namespace Query

/-! ### Stored records -/

/-- The records of a range of ids, with their ids. -/
def storedRecords (ext : Externals) (t : Tables) (family : Family) (m : FamilyMetadata) :
    Option (List (Record × ℕ)) := do
  let payloads ← m.ids.mapM (storedPayload ext t family)
  let rs ← decodeRecords ext family payloads
  some (rs.zipIdx m.firstPrimaryId)

/-- The filters of records, with the ids of the records. -/
def filtersOf (ext : Externals) (es : List (Record × ℕ)) : List (ℕ × BitmapFilterValue) :=
  es.flatMap fun e => (e.1.filters ext).map fun filter => (e.2, filter)

/-- The position of a filter of a record. -/
def addOf (family : Family) (p : ℕ × BitmapFilterValue) : BitmapAdd := (family, p.2, p.1)

section Filters

variable {ext : Externals} {t : Tables} {family : Family}

theorem storedFilters_eq_ok {α : Type} {codec : RlpCodec α}
    {filters : α → Except QueryError (List BitmapFilterValue)} {mk : α → Record}
    (hmk : ∀ a, (mk a).bitmapFilters ext = filters a) {item : ℕ × Bytes}
    {e : ℕ × List BitmapFilterValue} :
    storedFilters codec filters item = .ok e ↔ ∃ r, (codec.decode item.2).map mk = some r ∧
      (∃ values, r.bitmapFilters ext = .ok values) ∧ e = (item.1, r.filters ext) := by
  unfold storedFilters
  rcases codec.decode item.2 with _ | a
  · simp
  · rcases hf : filters a with err | values
    · simp [Except.map, Except.mapError, hmk, hf]
    · simp [Except.map, Except.mapError, hmk, hf, Record.filters, eq_comm]

/-- The traces are decoded as for the records. -/
theorem mapM_decodeTrace_eq_ok {items : List (ℕ × Bytes)} (traces : List StoredTraceQueryItem) :
    (items.mapM fun item =>
      (match StoredTraceQueryItem.codec.decode item.2 with
      | none => .error .rlp
      | some trace => .ok trace : Except ValidateError StoredTraceQueryItem)) = .ok traces ↔
      (items.map Prod.snd).mapM StoredTraceQueryItem.codec.decode = some traces := by
  rw [mapM_eq_ok, mapM_eq_some, List.forall₂_map_left_iff]
  refine forall₂_congr_of_mem fun item _ trace => ?_
  rcases StoredTraceQueryItem.codec.decode item.2 with _ | trace' <;> simp

/-- **The filters the validator works out** are those of the records. -/
theorem expectedFilters_eq_ok {items : List (ℕ × Bytes)}
    {expected : List (ℕ × List BitmapFilterValue)} :
    expectedFilters ext family items = .ok expected ↔
      ∃ rs, decodeRecords ext family (items.map Prod.snd) = some rs ∧
        (∀ r ∈ rs, ∃ values, r.bitmapFilters ext = .ok values) ∧
        expected = List.zipWith (fun item r => (item.1, r.filters ext)) items rs := by
  -- For all families but the traces, item by item.
  have hsimple : ∀ {α : Type} (codec : RlpCodec α)
      (filters : α → Except QueryError (List BitmapFilterValue)) (mk : α → Record),
      (∀ a, (mk a).bitmapFilters ext = filters a) →
      (items.mapM (storedFilters codec filters) = .ok expected ↔
        ∃ rs, (items.map Prod.snd).mapM (fun b => (codec.decode b).map mk) = some rs ∧
          (∀ r ∈ rs, ∃ values, r.bitmapFilters ext = .ok values) ∧
          expected = List.zipWith (fun item r => (item.1, r.filters ext)) items rs) := by
    intro α codec filters mk hmk
    rw [mapM_eq_ok, forall₂_congr_of_mem fun item _ e => storedFilters_eq_ok hmk, forall₂_exists]
    simp only [mapM_eq_some, List.forall₂_map_left_iff]
  cases family with
  | blockHeader => exact hsimple _ _ Record.blockHeader fun _ => rfl
  | transaction => exact hsimple _ _ Record.transaction fun _ => rfl
  | log => exact hsimple _ _ Record.log fun _ => rfl
  | trace =>
    -- The filters of a trace are always known.
    have hfilters : ∀ traces, ((items.map Prod.fst).zip (fromTraces traces)).mapM (fun p =>
        ((p.2.bitmapFilters).map fun values => (p.1, values)).mapError ValidateError.query) =
          .ok (List.zipWith (fun item r => (item.1, r.filters ext)) items
            ((fromTraces traces).map Record.trace)) := by
      intro traces
      refine (mapM_eq_ok_map (g := fun p : ℕ × TraceWithAncestorStatus =>
        (p.1, (Record.trace p.2).filters ext)) fun p _ => rfl).trans ?_
      rw [List.zip, List.map_zipWith, List.zipWith_map_left, List.zipWith_map_right]
    constructor
    · intro h
      obtain ⟨traces, htraces, h⟩ := bind_eq_ok.mp h
      refine ⟨(fromTraces traces).map .trace, ?_, ?_, ?_⟩
      · exact Option.map_eq_some_iff.mpr ⟨traces, (mapM_decodeTrace_eq_ok traces).mp htraces, rfl⟩
      · intro r hr
        obtain ⟨trace, -, rfl⟩ := List.mem_map.mp hr
        exact ⟨_, rfl⟩
      · exact (Except.ok.inj ((hfilters traces).symm.trans h)).symm
    · rintro ⟨rs, hrs, -, rfl⟩
      obtain ⟨traces, htraces, rfl⟩ := Option.map_eq_some_iff.mp hrs
      exact bind_eq_ok.mpr ⟨traces, (mapM_decodeTrace_eq_ok traces).mpr htraces, hfilters traces⟩

end Filters

/-! ### The state of the walk -/

/-- A page is stored, with its statistics. -/
def PageStored (t : Tables) (key : BitmapIndexKey) (bitmap : BitmapIndexValue) : Prop :=
  t (.bitmapIndex key) = some (.ok bitmap) ∧ ∃ stats, t (.pageStats key) = some (.ok stats)

/-- A position is on its stored page. -/
def Listed (t : Tables) (add : BitmapAdd) : Prop :=
  ∃ bitmap, PageStored t (keyOf add) bitmap ∧ pageLists bitmap add.2.2 = true

/-- **The state of the walk** after the records with the positions `adds`, when no fault
was found: the pages it has kept are those of the tables. -/
structure WalkAt (t : Tables) (adds : List BitmapAdd) (ids : Family → Option ℕ) (v : Walk) :
    Prop where
  issues : v.issues = []
  ids : v.expectedFamilyIds = ids
  expected : v.expectedBitmap = bitmapPages adds
  cached : ∀ key c, lookupKey key v.bitmapCache = some c → PageStored t key c.1
  loaded : ∀ add ∈ adds, (lookupKey (keyOf add) v.bitmapCache).isSome

/-- A walk without a fault so far. -/
def Walk.Clean (v : Walk) : Prop := v.issues = []

/-- The result of a check that stops at a fault. -/
def accepted (r : Except ValidateError Unit × Walk) : Except ValidateError Walk :=
  r.1.map fun _ => r.2

section Steps

variable {ext : Externals} {t : Tables} {family : Family} {block : ℕ} {adds : List BitmapAdd}
  {ids : Family → Option ℕ} {v : Walk}

/-- Loading a page: what it gives is stored, and what the walk carries is unchanged but for
the pages it keeps. -/
theorem loadPage_ok {id : ℕ} {key : BitmapIndexKey} {bitmap : BitmapIndexValue} {v' : Walk}
    (hcached : ∀ key c, lookupKey key v.bitmapCache = some c → PageStored t key c.1)
    (h : loadPage t block id key v = (.ok bitmap, v')) :
    PageStored t key bitmap ∧ v'.issues = v.issues ∧
      v'.expectedFamilyIds = v.expectedFamilyIds ∧ v'.expectedBitmap = v.expectedBitmap ∧
      (∀ key c, lookupKey key v'.bitmapCache = some c → PageStored t key c.1) ∧
      ∀ key', key' = key ∨ (lookupKey key' v.bitmapCache).isSome →
        (lookupKey key' v'.bitmapCache).isSome := by
  unfold loadPage at h
  rcases hlookup : lookupKey key v.bitmapCache with _ | cached
  · rw [hlookup] at h
    rcases hrow : readRow t (.bitmapIndex key) with e | (_ | row)
    · simp [hrow] at h
    · simp [hrow] at h
    · rcases hstats : readRow t (.pageStats key) with e | (_ | stats)
      · simp [hrow, hstats] at h
      · simp [hrow, hstats] at h
      · simp only [hrow, hstats, Prod.mk.injEq, Except.ok.injEq] at h
        obtain ⟨rfl, rfl⟩ := h
        have hstored : PageStored t key row :=
          ⟨readRow_eq_some.mp hrow, stats, readRow_eq_some.mp hstats⟩
        refine ⟨hstored, rfl, rfl, rfl, ?_, ?_⟩
        · intro key' c hc
          rw [lookupKey_concat, Option.or_eq_some_iff] at hc
          rcases hc with hc | ⟨-, hc⟩
          · exact hcached key' c hc
          · split_ifs at hc with hkey
            obtain rfl := Option.some.inj hc
            exact hkey ▸ hstored
        · intro key' hkey'
          rw [lookupKey_concat]
          rcases hkey' with rfl | hkey'
          · simp
          · simp [hkey']
  · simp only [hlookup, Prod.mk.injEq, Except.ok.injEq] at h
    obtain ⟨rfl, rfl⟩ := h
    refine ⟨hcached key cached hlookup, rfl, rfl, rfl, hcached, ?_⟩
    rintro key' (rfl | hkey')
    · rw [hlookup]
      rfl
    · exact hkey'

/-- A stored page can be loaded. -/
theorem loadPage_eq {id : ℕ} {key : BitmapIndexKey} {bitmap : BitmapIndexValue}
    (hcached : ∀ key c, lookupKey key v.bitmapCache = some c → PageStored t key c.1)
    (h : PageStored t key bitmap) : ∃ v', loadPage t block id key v = (.ok bitmap, v') := by
  obtain ⟨hrow, stats, hstats⟩ := h
  unfold loadPage
  rcases hlookup : lookupKey key v.bitmapCache with _ | cached
  · rw [← readRow_eq_some] at hrow hstats
    simp only [hrow, hstats]
    exact ⟨_, rfl⟩
  · obtain rfl : cached.1 = bitmap :=
      Except.ok.inj (Option.some.inj ((hcached key cached hlookup).1.symm.trans hrow))
    exact ⟨v, rfl⟩

theorem loadPage_issues {id : ℕ} {key : BitmapIndexKey} :
    (loadPage t block id key v).2.issues = v.issues := by
  unfold loadPage
  rcases lookupKey key v.bitmapCache with _ | cached
  · rcases readRow t (.bitmapIndex key) with e | (_ | row) <;>
      rcases readRow t (.pageStats key) with e | (_ | stats) <;> rfl
  · rfl

/-- The walk that expects a position. -/
def Walk.expect (v : Walk) (add : BitmapAdd) : Walk :=
  { v with
    expectedBitmap := entry (keyOf add) (fun bits => insert (add.2.2 - pageOf add.2.2) bits) ∅
      v.expectedBitmap }

theorem checkFilter_eq (p : ℕ × BitmapFilterValue) : checkFilter t family block p v =
    match loadPage t block p.1 (keyOf (addOf family p)) (v.expect (addOf family p)) with
    | (.error e, v) => (.error e, v)
    | (.ok bitmap, v) =>
      if pageLists bitmap p.1 then (.ok (), v) else (.error (.membershipMismatch family p.1), v) :=
  rfl

theorem checkFilter_issues (p : ℕ × BitmapFilterValue) :
    (checkFilter t family block p v).2.issues = v.issues := by
  have hload := @loadPage_issues t block (v.expect (addOf family p)) p.1 (keyOf (addOf family p))
  rw [checkFilter_eq]
  rcases hr : loadPage t block p.1 (keyOf (addOf family p)) (v.expect (addOf family p)) with
    ⟨e | bitmap, v₁⟩
  · rw [hr] at hload
    exact hload
  · rw [hr] at hload
    dsimp only
    split_ifs
    · exact hload
    · exact hload

theorem checkFilters_issues (ps : List (ℕ × BitmapFilterValue)) (v : Walk) :
    (checkFilters t family block ps v).2.issues = v.issues := by
  induction ps generalizing v with
  | nil => rfl
  | cons p ps ih =>
    have hfirst := @checkFilter_issues t family block v p
    rw [checkFilters]
    split
    · rename_i heq
      rw [heq] at hfirst
      exact hfirst
    · rename_i heq
      rw [heq] at hfirst
      rw [ih, hfirst]

/-- **One filter of a record** is accepted when its page lists the record. -/
theorem checkFilter_accepts (h : WalkAt t adds ids v) (p : ℕ × BitmapFilterValue) :
    Accepts Walk.Clean (accepted (checkFilter t family block p v)) (Listed t (addOf family p))
      (WalkAt t (adds ++ [addOf family p]) ids) := by
  have hpages : (v.expect (addOf family p)).expectedBitmap =
      bitmapPages (adds ++ [addOf family p]) := by
    rw [bitmapPages, collect_concat, Walk.expect, h.expected]
    rfl
  constructor
  · intro v' hok _
    rw [accepted, checkFilter_eq] at hok
    rcases hload : loadPage t block p.1 (keyOf (addOf family p)) (v.expect (addOf family p)) with
      ⟨e | bitmap, v₁⟩
    · rw [hload] at hok
      cases hok
    · rw [hload] at hok
      dsimp only at hok
      split_ifs at hok with hlist
      · obtain rfl := Except.ok.inj hok
        obtain ⟨hstored, hissues, hids, hexpected, hcached, hloaded⟩ :=
          loadPage_ok (v := v.expect (addOf family p)) h.cached hload
        refine ⟨⟨bitmap, hstored, hlist⟩, hissues.trans h.issues, hids.trans h.ids,
          hexpected.trans hpages, hcached, ?_⟩
        intro add hadd
        rcases List.mem_append.mp hadd with hadd | hadd
        · exact hloaded _ (.inr (h.loaded add hadd))
        · obtain rfl := List.mem_singleton.mp hadd
          exact hloaded _ (.inl rfl)
      · cases hok
  · rintro ⟨bitmap, hstored, hlist⟩
    obtain ⟨v', hload⟩ := @loadPage_eq t block (v.expect (addOf family p)) p.1 _ _ h.cached hstored
    have hissues :=
      @loadPage_issues t block (v.expect (addOf family p)) p.1 (keyOf (addOf family p))
    rw [hload] at hissues
    refine ⟨v', ?_, hissues.trans h.issues⟩
    rw [checkFilter_eq, hload]
    exact congrArg accepted (if_pos hlist)

theorem accepted_checkFilters_cons (p : ℕ × BitmapFilterValue) (ps : List (ℕ × BitmapFilterValue)) :
    accepted (checkFilters t family block (p :: ps) v) =
      accepted (checkFilter t family block p v) >>= fun v =>
        accepted (checkFilters t family block ps v) := by
  rw [checkFilters]
  rcases checkFilter t family block p v with ⟨e | _, v₁⟩ <;> rfl

/-- **All the filters of the records of a block.** -/
theorem checkFilters_accepts (ps : List (ℕ × BitmapFilterValue)) (h : WalkAt t adds ids v) :
    Accepts Walk.Clean (accepted (checkFilters t family block ps v))
      (∀ p ∈ ps, Listed t (addOf family p)) (WalkAt t (adds ++ ps.map (addOf family)) ids) := by
  induction ps generalizing adds v with
  | nil =>
    exact .ok (fun _ => by simp) (fun _ => by simpa [checkFilters] using h) fun _ => h.issues
  | cons p ps ih =>
    rw [accepted_checkFilters_cons]
    have hrest : ∀ v₁, WalkAt t (adds ++ [addOf family p]) ids v₁ →
        Accepts Walk.Clean (accepted (checkFilters t family block ps v₁))
          (∀ q ∈ ps, Listed t (addOf family q))
          (WalkAt t (adds ++ (p :: ps).map (addOf family)) ids) := by
      intro v₁ h₁
      simpa using ih h₁
    refine ((checkFilter_accepts h p).bind hrest ?_).congr (by simp) fun _ => id
    intro v₁ v₂ hok hclean
    have hissues := @checkFilters_issues t family block ps v₁
    unfold accepted at hok
    rcases hr : checkFilters t family block ps v₁ with ⟨e | _, v₃⟩
    · rw [hr] at hok
      cases hok
    · rw [hr] at hok hissues
      obtain rfl := Except.ok.inj hok
      exact hissues.symm.trans hclean

end Steps

/-! ### Ranges of ids -/

/-- The positions of the records of a range. -/
def rangeAdds (ext : Externals) (t : Tables) (family : Family) (m : FamilyMetadata) :
    List BitmapAdd :=
  (filtersOf ext ((storedRecords ext t family m).getD [])).map (addOf family)

/-- A header has the number of its block and the stored hash. -/
def HeaderOk (ext : Externals) (t : Tables) (block : ℕ) (r : Record) : Prop :=
  ∃ item hash, r = .blockHeader item ∧ t (.blockHash block) = some (.ok hash) ∧
    item.header.number.toNat = block ∧ ext.hashSlow item.header = hash

/-- The records of a range are as they should be: their payloads can be read and code
records of the family, headers belong to the block, and the pages list the records. -/
structure RecordsOk (ext : Externals) (t : Tables) (block : ℕ) (family : Family)
    (m : FamilyMetadata) (es : List (Record × ℕ)) : Prop where
  stored : storedRecords ext t family m = some es
  headers : family = .blockHeader → (∃ hash, t (.blockHash block) = some (.ok hash)) ∧
    ∀ e ∈ es, HeaderOk ext t block e.1
  filters : ∀ e ∈ es, ∃ values, e.1.bitmapFilters ext = .ok values
  listed : ∀ p ∈ filtersOf ext es, Listed t (addOf family p)

/-- **A range of ids is in order**, apart from where it starts. -/
structure RangeOk (ext : Externals) (t : Tables) (block : ℕ) (family : Family)
    (m : FamilyMetadata) : Prop where
  fits : m.firstPrimaryId + m.count < 2 ^ 64
  indexed : 0 < m.count → t (.familyBlockIndex family m.firstPrimaryId) = some (.ok block)
  payloads : ∃ items, payloadsOf ext t family m = .ok items
  records : ∃ es, RecordsOk ext t block family m es

section Ranges

variable {ext : Externals} {t : Tables} {family : Family} {block : ℕ} {m : FamilyMetadata}
  {adds : List BitmapAdd} {ids : Family → Option ℕ} {v : Walk}

theorem mapM_storedPayload
    (h : ∀ id ∈ m.ids, ∃ item, storedPayload ext t family id = some item) :
    m.ids.mapM (storedPayload ext t family) =
      some ((m.ids.map (itemOf ext t family)).map Prod.snd) := by
  rw [mapM_eq_some, forall₂_eq_some []]
  exact ⟨h, by rw [List.map_map]; rfl⟩

/-- The stored records, once the payloads are read. -/
theorem storedRecords_eq (h : ∀ id ∈ m.ids, ∃ item, storedPayload ext t family id = some item) :
    storedRecords ext t family m =
      (decodeRecords ext family ((m.ids.map (itemOf ext t family)).map Prod.snd)).map
        fun rs => rs.zipIdx m.firstPrimaryId := by
  unfold storedRecords
  rw [mapM_storedPayload h, Option.bind_eq_bind, Option.bind_some]
  rcases decodeRecords ext family ((m.ids.map (itemOf ext t family)).map Prod.snd) with _ | rs <;>
    rfl

theorem filters_zipWith {rs : List Record} (h : rs.length = m.ids.length) :
    (List.zipWith (fun item r => (item.1, r.filters ext))
      (m.ids.map (itemOf ext t family)) rs).flatMap (fun e => e.2.map fun filter => (e.1, filter)) =
        filtersOf ext (rs.zipIdx m.firstPrimaryId) := by
  have hcount : rs.length = m.count := by rw [h, FamilyMetadata.ids, List.length_range']
  have hzip : List.zipWith (fun r id => (id, r.filters ext)) rs m.ids =
      (rs.zip m.ids).map fun e => (e.2, e.1.filters ext) := by
    rw [List.zip, List.map_zipWith]
  rw [filtersOf, List.zipIdx_eq_zip_range', List.zipWith_map_left, hcount, List.zipWith_comm]
  exact (congrArg _ hzip).trans (List.flatMap_map _ _ _)

theorem checkHeaders_eq_ok {items : List (ℕ × Bytes)} :
    checkHeaders ext t block items = .ok () ↔
      ∃ hash, t (.blockHash block) = some (.ok hash) ∧ ∀ item ∈ items,
        ∃ stored, (StoredBlockQueryItem.codec ext).decode item.2 = some stored ∧
          stored.header.number.toNat = block ∧ ext.hashSlow stored.header = hash := by
  unfold checkHeaders
  rw [bind_eq_ok]
  constructor
  · rintro ⟨_ | hash, hrow, h⟩
    · cases h
    · refine ⟨hash, readRow_eq_some.mp hrow, fun item hitem => ?_⟩
      have hone := forM_eq_ok.mp h item hitem
      rcases hdec : (StoredBlockQueryItem.codec ext).decode item.2 with _ | stored
      · simp [hdec] at hone
      · refine ⟨stored, rfl, ?_⟩
        rw [hdec] at hone
        dsimp only at hone
        split_ifs at hone with hbad
        rw [not_or, not_not, not_not] at hbad
        exact hbad
  · rintro ⟨hash, hrow, h⟩
    refine ⟨some hash, readRow_eq_some.mpr hrow, forM_eq_ok.mpr fun item hitem => ?_⟩
    obtain ⟨stored, hdec, hnumber, hhash⟩ := h item hitem
    rw [hdec]
    dsimp only
    rw [if_neg (by rw [not_or, not_not, not_not]; exact ⟨hnumber, hhash⟩)]

/-- The header check is about the records. -/
theorem checkHeaders_iff {items : List (ℕ × Bytes)} {rs : List Record}
    (hrs : decodeRecords ext .blockHeader (items.map Prod.snd) = some rs) :
    checkHeaders ext t block items = .ok () ↔ (∃ hash, t (.blockHash block) = some (.ok hash)) ∧
      ∀ r ∈ rs, HeaderOk ext t block r := by
  have hforall : List.Forall₂ (fun item r =>
      ((StoredBlockQueryItem.codec ext).decode item.2).map Record.blockHeader = some r) items rs :=
    List.forall₂_map_left_iff.mp (mapM_eq_some.mp hrs)
  rw [checkHeaders_eq_ok]
  constructor
  · rintro ⟨hash, hrow, h⟩
    refine ⟨⟨hash, hrow⟩, fun r hr => ?_⟩
    obtain ⟨i, hi, rfl⟩ := List.mem_iff_getElem.mp hr
    have hitem : i < items.length := hforall.length_eq ▸ hi
    have hdec := (List.forall₂_iff_get.mp hforall).2 i hitem hi
    obtain ⟨stored, hstored, hnumber, hhash⟩ := h _ (List.getElem_mem hitem)
    rw [List.get_eq_getElem, hstored] at hdec
    exact ⟨stored, hash, (Option.some.inj hdec).symm, hrow, hnumber, hhash⟩
  · rintro ⟨⟨hash, hrow⟩, h⟩
    refine ⟨hash, hrow, fun item hitem => ?_⟩
    obtain ⟨i, hi, rfl⟩ := List.mem_iff_getElem.mp hitem
    have hr : i < rs.length := hforall.length_eq ▸ hi
    have hdec := (List.forall₂_iff_get.mp hforall).2 i hi hr
    obtain ⟨stored, hash', heq, hrow', hnumber, hhash⟩ := h _ (List.getElem_mem hr)
    obtain rfl : hash = hash' := Except.ok.inj (Option.some.inj (hrow.symm.trans hrow'))
    obtain ⟨stored', hdec', heq'⟩ := Option.map_eq_some_iff.mp hdec
    obtain rfl : stored' = stored := Record.blockHeader.inj (heq'.trans heq)
    exact ⟨stored', hdec', hnumber, hhash⟩

theorem forall_mem_zipIdx {rs : List Record} {n : ℕ} {P : Record → Prop} :
    (∀ e ∈ rs.zipIdx n, P e.1) ↔ ∀ r ∈ rs, P r := by
  constructor
  · intro h r hr
    rw [← List.zipIdx_map_fst n rs] at hr
    obtain ⟨e, he, rfl⟩ := List.mem_map.mp hr
    exact h e he
  · intro h e he
    exact h e.1 (List.fst_mem_of_mem_zipIdx he)

/-- The bitmap check is about the records. -/
theorem validateBitmapMembership_accepts (h : WalkAt t adds ids v) :
    Accepts Walk.Clean
      (accepted (validateBitmapMembership ext t family block (m.ids.map (itemOf ext t family)) v))
      (∃ rs, decodeRecords ext family ((m.ids.map (itemOf ext t family)).map Prod.snd) = some rs ∧
        (∀ r ∈ rs, ∃ values, r.bitmapFilters ext = .ok values) ∧
        ∀ p ∈ filtersOf ext (rs.zipIdx m.firstPrimaryId), Listed t (addOf family p))
      fun v' => ∃ rs,
        decodeRecords ext family ((m.ids.map (itemOf ext t family)).map Prod.snd) = some rs ∧
        WalkAt t (adds ++ (filtersOf ext (rs.zipIdx m.firstPrimaryId)).map (addOf family)) ids
          v' := by
  unfold validateBitmapMembership
  rcases hexpected : expectedFilters ext family (m.ids.map (itemOf ext t family)) with e | expected
  · refine .error _ ?_
    rintro ⟨rs, hrs, hfilters, -⟩
    have := (expectedFilters_eq_ok.mpr ⟨rs, hrs, hfilters, rfl⟩).symm.trans hexpected
    cases this
  · obtain ⟨rs, hrs, hfilters, rfl⟩ := expectedFilters_eq_ok.mp hexpected
    have hlen : rs.length = m.ids.length := by
      rw [length_decodeRecords hrs, List.length_map, List.length_map]
    dsimp only
    rw [filters_zipWith hlen]
    refine (checkFilters_accepts _ h).congr ?_ fun v' hv' => ⟨rs, hrs, hv'⟩
    constructor
    · exact fun hlisted => ⟨rs, hrs, hfilters, hlisted⟩
    · rintro ⟨rs', hrs', -, hlisted⟩
      obtain rfl := Option.some.inj (hrs.symm.trans hrs')
      exact hlisted

/-- **The payloads of a range** are accepted when the records are as they should be. -/
theorem validatePayload_accepts (hm : m.firstPrimaryId + m.count < 2 ^ 64)
    (h : WalkAt t adds ids v) :
    Accepts Walk.Clean (accepted (validatePayload ext t family block m v))
      ((∃ items, payloadsOf ext t family m = .ok items) ∧ ∃ es, RecordsOk ext t block family m es)
      (WalkAt t (adds ++ rangeAdds ext t family m) ids) := by
  unfold validatePayload
  rcases hpayloads : payloadsOf ext t family m with e | items
  · exact .error e (by simp)
  obtain ⟨hstored, rfl⟩ := payloadsOf_ok hm hpayloads
  have hrecords := storedRecords_eq hstored
  dsimp only
  have hmember := @validateBitmapMembership_accepts ext t family block m adds ids v h
  -- The header check, once the payloads are decoded.
  have hheaders : ∀ rs,
      decodeRecords ext family ((m.ids.map (itemOf ext t family)).map Prod.snd) = some rs →
      ((if family = .blockHeader then checkHeaders ext t block (m.ids.map (itemOf ext t family))
        else .ok ()) = .ok () ↔ (family = .blockHeader →
          (∃ hash, t (.blockHash block) = some (.ok hash)) ∧
            ∀ r ∈ rs, HeaderOk ext t block r)) := by
    intro rs hrs
    split_ifs with hf
    · subst hf
      rw [checkHeaders_iff hrs]
      simp
    · simp [hf]
  have hok : ∀ rs,
      decodeRecords ext family ((m.ids.map (itemOf ext t family)).map Prod.snd) = some rs →
      (RecordsOk ext t block family m (rs.zipIdx m.firstPrimaryId) ↔
        (family = .blockHeader →
          (∃ hash, t (.blockHash block) = some (.ok hash)) ∧ ∀ r ∈ rs, HeaderOk ext t block r) ∧
        (∀ r ∈ rs, ∃ values, r.bitmapFilters ext = .ok values) ∧
        ∀ p ∈ filtersOf ext (rs.zipIdx m.firstPrimaryId), Listed t (addOf family p)) := by
    intro rs hrs
    rw [hrs, Option.map_some] at hrecords
    rw [← forall_mem_zipIdx (n := m.firstPrimaryId), ← forall_mem_zipIdx (n := m.firstPrimaryId)]
    constructor
    · exact fun hr => ⟨hr.headers, hr.filters, hr.listed⟩
    · exact fun hr => ⟨hrecords, hr.1, hr.2.1, hr.2.2⟩
  have hdecoded : ∀ es, RecordsOk ext t block family m es → ∃ rs,
      decodeRecords ext family ((m.ids.map (itemOf ext t family)).map Prod.snd) = some rs ∧
        es = rs.zipIdx m.firstPrimaryId := by
    intro es hes
    obtain ⟨rs, hrs, heq⟩ := Option.map_eq_some_iff.mp (hrecords.symm.trans hes.stored)
    exact ⟨rs, hrs, heq.symm⟩
  rcases hcheck : (if family = .blockHeader then
      checkHeaders ext t block (m.ids.map (itemOf ext t family)) else .ok ()) with e | _
  · refine .error e ?_
    rintro ⟨-, es, hes⟩
    obtain ⟨rs, hrs, rfl⟩ := hdecoded es hes
    have := ((hheaders rs hrs).mpr ((hok rs hrs).mp hes).1).symm.trans hcheck
    cases this
  · refine hmember.congr ?_ ?_
    · constructor
      · rintro ⟨rs, hrs, hfilters, hlisted⟩
        exact ⟨⟨_, rfl⟩, _, (hok rs hrs).mpr ⟨(hheaders rs hrs).mp hcheck, hfilters, hlisted⟩⟩
      · rintro ⟨-, es, hes⟩
        obtain ⟨rs, hrs, rfl⟩ := hdecoded es hes
        exact ⟨rs, hrs, ((hok rs hrs).mp hes).2⟩
    · rintro v' ⟨rs, hrs, hv'⟩
      rw [hrs, Option.map_some] at hrecords
      rw [rangeAdds, hrecords]
      exact hv'

theorem validatePayload_issues (m : FamilyMetadata) (v : Walk) :
    (validatePayload ext t family block m v).2.issues = v.issues := by
  unfold validatePayload
  rcases payloadsOf ext t family m with e | items
  · rfl
  · dsimp only
    rcases (if family = .blockHeader then checkHeaders ext t block items else .ok ()) with e | _
    · rfl
    · dsimp only
      unfold validateBitmapMembership
      rcases expectedFilters ext family items with e | expected
      · rfl
      · exact checkFilters_issues _ v

theorem blockIndexAgrees_eq_true :
    blockIndexAgrees t family block m = .ok true ↔
      (0 < m.count → t (.familyBlockIndex family m.firstPrimaryId) = some (.ok block)) := by
  unfold blockIndexAgrees
  split_ifs with hcount
  · rw [forall_prop_of_true hcount, bind_eq_ok]
    constructor
    · rintro ⟨_ | ⟨first, block'⟩, hseek, h⟩
      · cases h
      · have hrow : first = m.firstPrimaryId ∧ block' = block := of_decide_eq_true (Except.ok.inj h)
        obtain ⟨rfl, rfl⟩ := hrow
        exact eq_some_of_seekLe_self (mapError_eq_ok.mp hseek)
    · intro hrow
      have hseek := seekLe_eq hrow le_rfl fun k h1 h2 => absurd h1 (by omega)
      exact ⟨_, mapError_eq_ok.mpr hseek, by simp⟩
  · simp [hcount]

/-- The ids that a range sets. -/
def Walk.advance (v : Walk) (family : Family) (m : FamilyMetadata) : Walk :=
  { v with
    expectedFamilyIds :=
      Function.update v.expectedFamilyIds family (some (m.firstPrimaryId + m.count)) }

theorem not_clean_issue (v : Walk) (i : Issue) : ¬(v.issue block i).Clean := by
  simp [Walk.Clean, Walk.issue]

/-- A fault of the payloads is noted as an issue. -/
theorem notePayload_clean {v' : Walk} :
    ((match validatePayload ext t family block m v with
      | (.ok (), v) => .ok v
      | (.error e, v) => .ok (v.issue block (.payload e)) : Except ValidateError Walk) = .ok v' ∧
        v'.Clean) ↔
      v.Clean ∧ accepted (validatePayload ext t family block m v) = .ok v' := by
  have hissues := @validatePayload_issues ext t family block m v
  rcases hr : validatePayload ext t family block m v with ⟨e | _, v₁⟩
  · constructor
    · rintro ⟨h, hclean⟩
      obtain rfl := Except.ok.inj h
      exact absurd hclean (not_clean_issue v₁ _)
    · rintro ⟨-, h⟩
      cases h
  · rw [hr] at hissues
    constructor
    · rintro ⟨h, hclean⟩
      obtain rfl := Except.ok.inj h
      exact ⟨hissues.symm.trans hclean, rfl⟩
    · rintro ⟨hclean, h⟩
      obtain rfl := Except.ok.inj h
      exact ⟨rfl, hissues.trans hclean⟩

/-- **When a range leaves no issue**: each of its checks passes. -/
theorem validateRange_clean {v' : Walk} :
    (validateRange ext t block family m v = .ok v' ∧ v'.Clean) ↔
      v.Clean ∧ (v.expectedFamilyIds family).all (· = m.firstPrimaryId) = true ∧
        m.firstPrimaryId + m.count < 2 ^ 64 ∧ blockIndexAgrees t family block m = .ok true ∧
        accepted (validatePayload ext t family block m (v.advance family m)) = .ok v' := by
  unfold validateRange
  by_cases hfits : m.firstPrimaryId + m.count < 2 ^ 64
  · rw [checkedAdd_eq_some.mpr ⟨rfl, hfits⟩]
    dsimp only
    rcases hagrees : blockIndexAgrees t family block m with e | agrees
    · simp [bind, Except.bind]
    · refine notePayload_clean.trans ?_
      by_cases hall : (v.expectedFamilyIds family).all (· = m.firstPrimaryId) = true
      · rcases agrees with _ | _
        · simp [not_clean_issue]
        · simp only [if_pos hall, if_true]
          exact ⟨fun h => ⟨h.1, hall, hfits, trivial, h.2⟩, fun h => ⟨h.1, h.2.2.2.2⟩⟩
      · simp only [if_neg hall]
        rcases agrees with _ | _
        · simp [not_clean_issue]
        · simp only [if_true]
          constructor
          · rintro ⟨hclean, -⟩
            exact absurd hclean (not_clean_issue v _)
          · rintro ⟨-, h, -⟩
            exact absurd h hall
  · have hnone : checkedAdd m.firstPrimaryId m.count = none := by
      unfold checkedAdd
      rw [if_neg hfits]
    rw [hnone]
    constructor
    · rintro ⟨h, -⟩
      cases h
    · rintro ⟨-, -, h, -⟩
      exact absurd h hfits

/-- **A range of ids** is accepted when it is in order and starts where it should. -/
theorem validateRange_accepts (h : WalkAt t adds ids v) :
    Accepts Walk.Clean (validateRange ext t block family m v)
      ((ids family).all (· = m.firstPrimaryId) = true ∧ RangeOk ext t block family m)
      (WalkAt t (adds ++ rangeAdds ext t family m)
        (Function.update ids family (some (m.firstPrimaryId + m.count)))) := by
  have hadvance : WalkAt t adds (Function.update ids family (some (m.firstPrimaryId + m.count)))
      (v.advance family m) :=
    ⟨h.issues, by rw [← h.ids]; rfl, h.expected, h.cached, h.loaded⟩
  rw [← h.ids]
  constructor
  · intro v' hok hclean
    obtain ⟨-, hall, hfits, hagrees, hpayload⟩ := validateRange_clean.mp ⟨hok, hclean⟩
    obtain ⟨⟨hitems, hes⟩, hv'⟩ :=
      (validatePayload_accepts hfits hadvance).sound v' hpayload hclean
    rw [← h.ids] at hv'
    exact ⟨⟨hall, hfits, blockIndexAgrees_eq_true.mp hagrees, hitems, hes⟩, hv'⟩
  · rintro ⟨hall, hr⟩
    obtain ⟨v', hok, hclean⟩ :=
      (validatePayload_accepts hr.fits hadvance).complete ⟨hr.payloads, hr.records⟩
    exact ⟨v', validateRange_clean.mpr
      ⟨h.issues, hall, hr.fits, blockIndexAgrees_eq_true.mpr hr.indexed, hok⟩⟩

end Ranges

end Query

end MonadServices
