import MonadServices.Query.Writer.Batch

/-!
# The payload stage

The stage appends the records of the batch to their blobs. It starts from the
location of the last committed record, and everything after it in the blob – what a
failed flush has left – is cut off, so that the blob it writes is **the one of the
view** (`MonadServices.Query.Chain.flushPayload_meets`), whatever was there before.
-/

namespace MonadServices

namespace Query

/-! ### Appending records -/

section Append

variable {ext : Externals}

/-- Where records end in a blob, when they start at `a`. -/
def endsFrom (ext : Externals) (a : ℕ) : List (Record × ℕ) → List ℕ
  | [] => []
  | e :: es => (a + (ext.compress (e.1.encode ext)).length) ::
      endsFrom ext (a + (ext.compress (e.1.encode ext)).length) es

theorem length_endsFrom (a : ℕ) (es : List (Record × ℕ)) :
    (endsFrom ext a es).length = es.length := by
  induction es generalizing a with
  | nil => rfl
  | cons e es ih => simp [endsFrom, ih]

/-- The end of a record is the length of the blob up to it. -/
theorem mem_zip_endsFrom {a : ℕ} {es : List (Record × ℕ)} {p : ℕ × ℕ}
    (h : p ∈ (es.map Prod.snd).zip (endsFrom ext a es)) :
    ∃ pre e post, es = pre ++ e :: post ∧ p.1 = e.2 ∧
      p.2 = a + (blobOf ext (pre ++ [e])).length := by
  induction es generalizing a with
  | nil => simp [endsFrom] at h
  | cons e es ih =>
    simp only [endsFrom, List.map_cons, List.zip_cons_cons, List.mem_cons] at h
    rcases h with rfl | h
    · exact ⟨[], e, es, rfl, rfl, by simp [Chain.blobOf_singleton]⟩
    · obtain ⟨pre, e', post, rfl, hid, hend⟩ := ih h
      refine ⟨e :: pre, e', post, rfl, hid, ?_⟩
      rw [hend, List.cons_append]
      simp only [blobOf, List.flatMap_cons, List.length_append]
      omega

theorem payloadItemEncode_eq_ok {bytes coded : Bytes} :
    payloadItemEncode ext bytes = .ok coded ↔
      bytes.length ≤ maxPayloadSize ∧ coded = ext.compress bytes := by
  unfold payloadItemEncode
  split
  · rename_i h
    rw [Except.ok.injEq, and_iff_right h, eq_comm]
  · rename_i h
    simp only [reduceCtorEq, false_iff, not_and]
    exact fun hle => absurd hle h

/-- **Appending records** to a blob. -/
theorem appendItems_eq_ok {bytes : Bytes} {ends : List ℕ} {es : List (Record × ℕ)}
    {r : Bytes × List ℕ}
    (h : appendItems ext bytes ends (es.map fun e => e.1.encode ext) = .ok r) :
    r = (bytes ++ blobOf ext es, ends ++ endsFrom ext bytes.length es) ∧
      ∀ e ∈ es, (e.1.encode ext).length ≤ maxPayloadSize := by
  induction es generalizing bytes ends with
  | nil =>
    simp only [List.map_nil, appendItems, Except.ok.injEq] at h
    simp [← h, endsFrom, blobOf]
  | cons e es ih =>
    rw [List.map_cons, appendItems] at h
    rcases hcoded : payloadItemEncode ext (e.1.encode ext) with stop | coded
    · simp [hcoded] at h
    · rw [hcoded] at h
      obtain ⟨hle, rfl⟩ := payloadItemEncode_eq_ok.mp hcoded
      obtain ⟨rfl, hrest⟩ := ih h
      refine ⟨?_, fun e' he' => ?_⟩
      · simp [endsFrom, blobOf]
      · rcases List.mem_cons.mp he' with rfl | he'
        · exact hle
        · exact hrest e' he'

end Append

namespace Chain

variable {chain : Chain} {ext : Externals} {m n lo hi : ℕ} {D : TableKey → Prop}

/-! ### The records of the batch -/

theorem payloadRows_assigned {i : ℕ} {block : QueryWriterBlock}
    (hb : chain.blocks[i]? = some block) (family : Family) :
    payloadRows ext family (chain.assigned i block) =
      (chain.frontier family i, (block.records family).map fun r => r.encode ext) := by
  cases family with
  | blockHeader =>
    have hi := (List.getElem?_eq_some_iff.mp hb).1
    simp [payloadRows, assigned, chain.number_eq i block hb, frontier_blockHeader hi.le,
      QueryWriterBlock.records, Record.encode]
  | transaction => simp [payloadRows, assigned, QueryWriterBlock.records, Record.encode]
  | log => simp [payloadRows, assigned, QueryWriterBlock.records, Record.encode]
  | trace =>
    have htraces : ∀ txs : List QueryWriterTx,
        ((txs.flatMap QueryWriterTx.traces).map StoredTraceQueryItem.codec.encode) =
          (txs.flatMap fun tx => (fromTraces tx.traces).map Record.trace).map
            fun r => r.encode ext := by
      intro txs
      induction txs with
      | nil => rfl
      | cons tx txs ih =>
        have htx := congrArg (List.map StoredTraceQueryItem.codec.encode)
          (map_trace_fromTraces tx.traces)
        rw [List.map_map] at htx
        rw [List.flatMap_cons, List.flatMap_cons, List.map_append, List.map_append, ih, ← htx,
          List.map_map]
        rfl
    simp only [payloadRows, assigned, QueryWriterBlock.traces, QueryWriterBlock.records, htraces]

theorem newEntries_cons (family : Family) (h : m < n) {block : QueryWriterBlock}
    (hb : chain.blocks[m]? = some block) : chain.newEntries family m n =
      (block.records family).zipIdx (chain.frontier family m) ++
        chain.newEntries family (m + 1) n := by
  unfold newEntries
  rw [segment_cons h hb, List.flatMap_cons, List.zipIdx_append, frontier_succ hb]

theorem newEntries_of_le (family : Family) (h : n ≤ m) : chain.newEntries family m n = [] := by
  simp [newEntries, segment_of_le h]

/-- **The payload items of a batch** are its records. -/
theorem payloadItems_segment (family : Family) (hmn : m ≤ n) (hn : n ≤ chain.blocks.length) :
    payloadItems ext family (chain.assignedSegment m n) =
      (chain.newEntries family m n).map fun e =>
        (PayloadKey.fromId family e.2, e.1.encode ext, e.2) := by
  induction hk : n - m generalizing m with
  | zero =>
    rw [assignedSegment_of_le (by omega), newEntries_of_le family (by omega)]
    rfl
  | succ k ih =>
    have hlt : m < n := by omega
    obtain ⟨block, hb⟩ : ∃ block, chain.blocks[m]? = some block :=
      ⟨_, List.getElem?_eq_getElem (by omega)⟩
    rw [assignedSegment_cons hlt hb, newEntries_cons family hlt hb, List.map_append,
      ← ih hlt (by omega)]
    unfold payloadItems
    rw [List.flatMap_cons, payloadRows_assigned hb]
    congr 1
    dsimp only
    rw [List.zipIdx_map, List.map_map, List.zipIdx_eq_map_add (i := chain.frontier family m),
      List.map_map]
    simp [Function.comp_def, Nat.add_comm]

/-- The records of a batch that go to a blob. -/
def newBlob (chain : Chain) (key : PayloadKey) (m n : ℕ) : List (Record × ℕ) :=
  (chain.newEntries key.family m n).filter fun e => PayloadKey.fromId key.family e.2 = key

/-- The records of a batch that go to a blob, with their ids and coded. -/
def newGroup (chain : Chain) (ext : Externals) (m n : ℕ) (key : PayloadKey) : List (ℕ × Bytes) :=
  (chain.newBlob key m n).map fun e => (e.2, e.1.encode ext)

/-- **The groups of a batch**, one for each blob that it adds to. -/
theorem payloadGroups_eq (family : Family) (hmn : m ≤ n) (hn : n ≤ chain.blocks.length) :
    ∃ keys : List PayloadKey, keys.Nodup ∧
      (∀ key, key ∈ keys ↔ ∃ e ∈ chain.newEntries family m n, PayloadKey.fromId family e.2 = key) ∧
      payloadGroups (payloadItems ext family (chain.assignedSegment m n)) =
        keys.map fun key => (key, chain.newGroup ext m n key) := by
  have hfold : ∀ (l : List (Record × ℕ)) (acc : List (ℕ × Bytes)),
      (l.map fun e => (PayloadKey.fromId family e.2, e.1.encode ext, e.2)).foldl
        (fun group item => group ++ [(item.2.2, item.2.1)]) acc =
          acc ++ l.map fun e => (e.2, e.1.encode ext) := by
    intro l
    induction l with
    | nil => simp
    | cons e l ih =>
      intro acc
      simp [ih]
  have hmem : ∀ g, g ∈ payloadGroups (payloadItems ext family (chain.assignedSegment m n)) ↔
      (∃ e ∈ chain.newEntries family m n, PayloadKey.fromId family e.2 = g.1) ∧
        g.2 = chain.newGroup ext m n g.1 := by
    rintro ⟨key, group⟩
    unfold payloadGroups
    rw [payloadItems_segment family hmn hn, mem_collect, List.filter_map, hfold]
    constructor
    · rintro ⟨⟨x, hx, hkey⟩, rfl⟩
      obtain ⟨e, he, rfl⟩ := List.mem_map.mp hx
      dsimp only at hkey
      subst hkey
      exact ⟨⟨e, he, rfl⟩, rfl⟩
    · rintro ⟨⟨e, he, hkey⟩, hgroup⟩
      dsimp only at hkey hgroup
      subst hkey
      exact ⟨⟨_, List.mem_map.mpr ⟨e, he, rfl⟩, rfl⟩, hgroup⟩
  refine ⟨(payloadGroups (payloadItems ext family (chain.assignedSegment m n))).map Prod.fst,
    nodup_collect _, fun key => ?_, ?_⟩
  · rw [List.mem_map]
    constructor
    · rintro ⟨g, hg, rfl⟩
      exact ((hmem g).mp hg).1
    · intro hkey
      exact ⟨(key, chain.newGroup ext m n key), (hmem _).mpr ⟨hkey, rfl⟩, rfl⟩
  · rw [List.map_map]
    conv_lhs => rw [← List.map_id (payloadGroups _)]
    exact List.map_congr_left fun g hg => Prod.ext rfl ((hmem g).mp hg).2

/-! ### The committed part of a blob -/

section Stage

variable {state : StateIndex}

theorem rowValue_some {α : Type} (v : α) : rowValue (some (.ok v)) = .ok (some v) := rfl

/-- **The committed end** is the length of the blob at the writer's frontier. -/
theorem committedEnd_meets (h : chain.Flushing state m lo n hi) {family : Family} {firstId : ℕ}
    (hfirst : chain.frontier family m ≤ firstId) (hlt : firstId < 2 ^ 64) :
    Faulty.Meets (chain.Underway ext lo hi n D) (committedEnd state family firstId)
      (fun offset t =>
        offset = (blobOf ext (chain.blobEntries (PayloadKey.fromId family firstId) m)).length ∧
          chain.Underway ext lo hi n D t) (chain.Stored ext lo hi) := by
  have hm : m ≤ chain.blocks.length :=
    h.le_stored.trans (h.stored_le.trans (h.le_high.trans h.high_le))
  unfold committedEnd
  rw [h.represents.committedId hm]
  split_ifs with hpos
  · -- The last committed id shares the blob of `firstId` if any committed id does.
    have hlast : chain.frontier family m - 1 < chain.frontier family m := by omega
    have hmem : ∀ e ∈ chain.entries family m, e.2 ≤ chain.frontier family m - 1 :=
      fun e he => by
        have := lt_frontier he
        omega
    dsimp only
    split_ifs with hkey
    · refine Faulty.bind_meets (get_meets _) fun row => ?_
      intro fs t hs
      obtain ⟨⟨j, hj, hjhi, hrow⟩, ht⟩ := hs
      have hmj : m ≤ j := h.le_stored.trans hj
      have hview : chain.view ext j (.payloadLocation family (chain.frontier family m - 1)) =
          some (.ok (chain.payloadEnd ext family (chain.frontier family m - 1) m)) := by
        have hfj := chain.frontier_mono family hmj
        simp only [view]
        rw [if_pos ⟨by omega, by omega⟩, payloadEnd_eq hmj hlast]
      rw [hview, rowValue_some, Except.ok.injEq] at hrow
      subst hrow
      refine ⟨?_, ht⟩
      unfold payloadEnd
      rw [hkey, List.filter_eq_self.mpr]
      intro e he
      simpa using hmem e (List.mem_of_mem_filter he)
    · refine Faulty.pure_meets fun t ht => ⟨?_, ht⟩
      have hnil : chain.blobEntries (PayloadKey.fromId family firstId) m = [] := by
        refine List.eq_nil_iff_forall_not_mem.mpr fun e he => hkey ?_
        obtain ⟨he, hcon⟩ := mem_blobEntries.mp he
        have hle := hmem e he
        rw [PayloadKey.fromId_family] at hcon
        rw [PayloadKey.fromId_inj (by omega) hlt] at hcon ⊢
        unfold itemsPerBlob at *
        omega
      rw [hnil]
      rfl
  · refine Faulty.pure_meets fun t ht => ⟨?_, ht⟩
    have hnil : chain.entries family m = [] := by
      refine List.eq_nil_iff_forall_not_mem.mpr fun e he => hpos ?_
      exact ((mem_entries.mp he).1.trans_lt (lt_frontier he))
    simp [blobEntries, hnil]

/-! ### The stage of one family -/

theorem ids_lt_of_mem_newEntries (h : chain.Flushing state m lo n hi) {family : Family}
    {e : Record × ℕ} (he : e ∈ chain.newEntries family m n) :
    chain.frontier family m ≤ e.2 ∧ e.2 < 2 ^ 64 := by
  obtain ⟨hmem, hle⟩ := (mem_newEntries (h.le_stored.trans h.stored_le)).mp he
  refine ⟨hle, (lt_frontier hmem).trans ?_⟩
  exact (chain.frontier_mono family h.le_high).trans_lt (h.ids_lt family)

theorem mem_newBlob {key : PayloadKey} {e : Record × ℕ} : e ∈ chain.newBlob key m n ↔
    e ∈ chain.newEntries key.family m n ∧ PayloadKey.fromId key.family e.2 = key := by
  simp [newBlob]

theorem prepareGroup_meets (h : chain.Flushing state m lo n hi) {key : PayloadKey}
    (hkey : ∃ e ∈ chain.newEntries key.family m n, PayloadKey.fromId key.family e.2 = key) :
    Faulty.Meets (chain.Underway ext lo hi n D)
      (prepareGroup state key.family (key, chain.newGroup ext m n key))
      (fun r t => (r = (key, (blobOf ext (chain.blobEntries key m)).length,
          chain.newGroup ext m n key) ∧ True) ∧ chain.Underway ext lo hi n D t)
      (chain.Stored ext lo hi) := by
  obtain ⟨e, he, hek⟩ := hkey
  unfold newGroup
  rcases hnew : chain.newBlob key m n with _ | ⟨first, rest⟩
  · exact absurd (mem_newBlob.mpr ⟨he, hek⟩) (by simp [hnew])
  · obtain ⟨hfirst, hfirstKey⟩ := mem_newBlob.mp (hnew ▸ List.mem_cons_self)
    obtain ⟨hle, hlt⟩ := ids_lt_of_mem_newEntries h hfirst
    refine Faulty.bind_meets (committedEnd_meets h hle hlt) fun offset => ?_
    intro fs t ht
    obtain ⟨rfl, ht⟩ := ht
    rw [hfirstKey]
    exact ⟨⟨rfl, trivial⟩, ht⟩

/-- **What is written to a blob is its content at the new frontier.** -/
theorem prepareAppend_meets (h : chain.Flushing state m lo n hi) (key : PayloadKey) :
    Faulty.Meets (chain.Underway ext lo hi n D)
      (prepareAppend ext key (blobOf ext (chain.blobEntries key m)).length
        ((chain.newBlob key m n).map fun e => e.1.encode ext))
      (fun r t => (r = (key, blobOf ext (chain.blobEntries key n),
          endsFrom ext (blobOf ext (chain.blobEntries key m)).length (chain.newBlob key m n)) ∧
          ∀ e ∈ chain.newBlob key m n, (e.1.encode ext).length ≤ maxPayloadSize) ∧
        chain.Underway ext lo hi n D t) (chain.Stored ext lo hi) := by
  refine Faulty.bind_meets (get_meets _) fun row => ?_
  intro fs t hs
  obtain ⟨⟨j, hj, hjhi, hrow⟩, ht⟩ := hs
  have hmj : m ≤ j := h.le_stored.trans hj
  have hbytes : row.getD [] = blobOf ext (chain.blobEntries key j) := by
    simp only [view] at hrow
    split_ifs at hrow with hnil
    · rw [hnil]
      obtain rfl : none = row := Except.ok.inj hrow
      rfl
    · obtain rfl : some _ = row := Except.ok.inj hrow
      rfl
  have hle : (blobOf ext (chain.blobEntries key m)).length ≤
      (blobOf ext (chain.blobEntries key j)).length := by
    rw [blobEntries_append key hmj, blobOf_append, List.length_append]
    omega
  dsimp only
  rw [hbytes, if_neg (by omega), blobOf_take key hmj]
  have hlift : Faulty.Meets (chain.Underway ext lo hi n D)
      (Faulty.lift (appendItems ext (blobOf ext (chain.blobEntries key m)) []
        ((chain.newBlob key m n).map fun e => e.1.encode ext)))
      (fun r t => (r = (blobOf ext (chain.blobEntries key m) ++ blobOf ext (chain.newBlob key m n),
          [] ++ endsFrom ext (blobOf ext (chain.blobEntries key m)).length
            (chain.newBlob key m n)) ∧
          ∀ e ∈ chain.newBlob key m n, (e.1.encode ext).length ≤ maxPayloadSize) ∧
        chain.Underway ext lo hi n D t) (chain.Stored ext lo hi) :=
    Faulty.lift_meets (fun r t hr ht => ⟨appendItems_eq_ok hr, ht⟩) fun t ht => ht.toStored
  refine Faulty.bind_meets hlift (fun r => Faulty.pure_meets fun t' ht' => ?_) fs t ht
  obtain ⟨⟨rfl, hsize⟩, ht'⟩ := ht'
  refine ⟨⟨?_, hsize⟩, ht'⟩
  rw [blobEntries_append key (h.le_stored.trans h.stored_le), blobOf_append, List.nil_append]
  rfl

/-- What the stage of one family gives: the location rows of its records, which are
of an admissible size. -/
structure FamilyLocations (chain : Chain) (ext : Externals) (m n : ℕ) (family : Family)
    (ws : List TableWrite) : Prop where
  rows : ∀ w ∈ ws, ∃ e ∈ chain.newEntries family m n,
    w = put (.payloadLocation family e.2) (chain.payloadEnd ext family e.2 n)
  all : ∀ e ∈ chain.newEntries family m n, ∃ w ∈ ws, w.1 = .payloadLocation family e.2
  size : ∀ e ∈ chain.newEntries family m n, (e.1.encode ext).length ≤ maxPayloadSize

/-- **The blobs of a family** are written as the view has them. -/
theorem appendBatch_meets (h : chain.Flushing state m lo n hi) {keys : List PayloadKey}
    (hkeys : ∀ key ∈ keys, chain.newBlob key m n ≠ []) :
    Faulty.Meets (chain.Underway ext lo hi n D)
      (appendBatch ext (keys.map fun key => (key, (blobOf ext (chain.blobEntries key m)).length,
        (chain.newGroup ext m n key).map Prod.snd)))
      (fun ends t => (ends = (keys.map fun key => (key, endsFrom ext
          (blobOf ext (chain.blobEntries key m)).length (chain.newBlob key m n))) ∧
          ∀ key ∈ keys, ∀ e ∈ chain.newBlob key m n,
            (e.1.encode ext).length ≤ maxPayloadSize) ∧
        chain.Underway ext lo hi n (fun k => D k ∨ ∃ key ∈ keys, k = .payload key) t)
      (chain.Stored ext lo hi) := by
  have hcoded : ∀ key, (chain.newGroup ext m n key).map Prod.snd =
      (chain.newBlob key m n).map fun e => e.1.encode ext := fun key => by simp [newGroup]
  simp only [hcoded]
  refine Faulty.bind_meets_of_eq
    (Faulty.traverse_meets_map fun key _ => prepareAppend_meets h key) fun hsize => ?_
  rw [List.map_map]
  have hview : ∀ w ∈ keys.map ((fun p => put (.payload p.1) p.2.1) ∘ fun key =>
      (key, blobOf ext (chain.blobEntries key n), endsFrom ext
        (blobOf ext (chain.blobEntries key m)).length (chain.newBlob key m n))),
      w.2 = chain.view ext n w.1 := by
    intro w hw
    obtain ⟨key, hkey, rfl⟩ := List.mem_map.mp hw
    have hne : chain.blobEntries key n ≠ [] := by
      rw [blobEntries_append key (h.le_stored.trans h.stored_le)]
      exact List.append_ne_nil_of_right_ne_nil _ (hkeys key hkey)
    simp [put, view, hne]
  refine Faulty.bind_meets (putBatch_meets h.stored_le h.le_high hview (by simp [put])) fun _ => ?_
  refine Faulty.pure_meets fun t ht => ⟨⟨by simp, hsize⟩, ht.mono fun k hk => ?_⟩
  rcases hk with hk | ⟨key, hkey, rfl⟩
  · exact Or.inl hk
  · exact Or.inr ⟨_, List.mem_map.mpr ⟨key, hkey, rfl⟩, rfl⟩

theorem lookupKey_map {V : Type} {F : PayloadKey → V} {keys : List PayloadKey}
    (hnodup : keys.Nodup) {key : PayloadKey} (hkey : key ∈ keys) :
    lookupKey key (keys.map fun k => (k, F k)) = some (F key) := by
  refine (mem_iff_lookupKey ?_).mp (List.mem_map.mpr ⟨key, hkey, rfl⟩)
  simpa [List.map_map, Function.comp_def] using hnodup

/-- The location rows of one blob. -/
theorem groupLocations_eq {family : Family} {keys : List PayloadKey} (hnodup : keys.Nodup)
    {key : PayloadKey} (hkey : key ∈ keys) (a : ℕ) :
    groupLocations family (keys.map fun k => (k, (chain.newGroup ext m n k).map Prod.fst))
      (key, endsFrom ext a (chain.newBlob key m n)) =
        .ok ((((chain.newBlob key m n).map Prod.snd).zip
          (endsFrom ext a (chain.newBlob key m n))).map
            fun p => put (.payloadLocation family p.1) p.2) := by
  unfold groupLocations
  rw [lookupKey_map hnodup hkey]
  have hids : (chain.newGroup ext m n key).map Prod.fst = (chain.newBlob key m n).map Prod.snd := by
    simp [newGroup]
  dsimp only
  rw [hids, if_neg (by simp [length_endsFrom])]

/-- The location rows of a blob are those of the view. -/
theorem mem_groupLocations (h : chain.Flushing state m lo n hi) {family : Family}
    {key : PayloadKey} (hfam : key.family = family) {w : TableWrite}
    (hw : w ∈ (((chain.newBlob key m n).map Prod.snd).zip
      (endsFrom ext (blobOf ext (chain.blobEntries key m)).length (chain.newBlob key m n))).map
        fun p => put (.payloadLocation family p.1) p.2) :
    ∃ e ∈ chain.newEntries family m n,
      w = put (.payloadLocation family e.2) (chain.payloadEnd ext family e.2 n) := by
  subst hfam
  obtain ⟨p, hp, rfl⟩ := List.mem_map.mp hw
  obtain ⟨pre, e, post, hsplit, hid, hend⟩ := mem_zip_endsFrom hp
  obtain ⟨he, hkey⟩ := mem_newBlob.mp (hsplit ▸ List.mem_append_right pre List.mem_cons_self)
  refine ⟨e, he, ?_⟩
  have hblob : chain.blobEntries (PayloadKey.fromId key.family e.2) n =
      (chain.blobEntries key m ++ pre) ++ e :: post := by
    rw [hkey, blobEntries_append key (h.le_stored.trans h.stored_le), List.append_assoc, ← hsplit]
    rfl
  rw [payloadEnd_of_split hblob, hid, hend]
  simp [blobOf_append]

/-- **The payload stage of one family.** -/
theorem flushFamily_meets (h : chain.Flushing state m lo n hi) (family : Family) :
    Faulty.Meets (chain.Underway ext lo hi n D) (flushFamily ext state (chain.batch m n) family)
      (fun ws t => chain.FamilyLocations ext m n family ws ∧
        chain.Underway ext lo hi n (fun k => D k ∨
          ∃ e ∈ chain.newEntries family m n, k = .payload (PayloadKey.fromId family e.2)) t)
      (chain.Stored ext lo hi) := by
  have hmn : m ≤ n := h.le_stored.trans h.stored_le
  obtain ⟨keys, hnodup, hkeys, hgroups⟩ :=
    @payloadGroups_eq chain ext m n family hmn (h.le_high.trans h.high_le)
  have hfam : ∀ key ∈ keys, key.family = family := by
    intro key hkey
    obtain ⟨e, -, rfl⟩ := (hkeys key).mp hkey
    rfl
  unfold flushFamily
  simp only [batch, hgroups]
  refine Faulty.bind_meets_of_eq (Faulty.traverse_meets_map (S := fun _ => True)
    (F := fun key => (key, (blobOf ext (chain.blobEntries key m)).length,
      chain.newGroup ext m n key)) fun key hkey => ?_) fun _ => ?_
  · obtain rfl := hfam key hkey
    exact prepareGroup_meets h ((hkeys key).mp hkey)
  simp only [List.map_map, Function.comp_def]
  have hne : ∀ key ∈ keys, chain.newBlob key m n ≠ [] := by
    intro key hkey
    obtain ⟨e, he, rfl⟩ := (hkeys key).mp hkey
    exact List.ne_nil_of_mem (mem_newBlob.mpr ⟨he, rfl⟩)
  refine Faulty.bind_meets_of_eq (appendBatch_meets h hne) fun hsize => ?_
  refine Faulty.bind_meets_of_eq (Faulty.traverse_meets_map (S := fun _ => True)
    (F := fun key => (((chain.newBlob key m n).map Prod.snd).zip (endsFrom ext
      (blobOf ext (chain.blobEntries key m)).length (chain.newBlob key m n))).map
        fun p => put (.payloadLocation family p.1) p.2)
    fun key hkey => Faulty.lift_meets (fun ws t hws ht => ⟨⟨?_, trivial⟩, ht⟩)
      fun t ht => ht.toStored) fun _ => ?_
  · exact Except.ok.inj (hws.symm.trans (groupLocations_eq hnodup hkey _))
  have hmem : ∀ e ∈ chain.newEntries family m n, PayloadKey.fromId family e.2 ∈ keys ∧
      e ∈ chain.newBlob (PayloadKey.fromId family e.2) m n := fun e he =>
    ⟨(hkeys _).mpr ⟨e, he, rfl⟩, mem_newBlob.mpr ⟨he, rfl⟩⟩
  refine Faulty.pure_meets fun t ht => ⟨⟨?_, ?_, ?_⟩, ht.mono fun k hk => ?_⟩
  · intro w hw
    obtain ⟨ws, hws, hw⟩ := List.mem_flatten.mp hw
    obtain ⟨key, hkey, rfl⟩ := List.mem_map.mp hws
    exact mem_groupLocations h (hfam key hkey) hw
  · intro e he
    obtain ⟨hkey, hblob⟩ := hmem e he
    have hid : e.2 ∈ ((((chain.newBlob (PayloadKey.fromId family e.2) m n).map Prod.snd).zip
        (endsFrom ext (blobOf ext (chain.blobEntries (PayloadKey.fromId family e.2) m)).length
          (chain.newBlob (PayloadKey.fromId family e.2) m n))).map Prod.fst) := by
      rw [List.map_fst_zip (by simp [length_endsFrom])]
      exact List.mem_map_of_mem hblob
    obtain ⟨p, hp, hpid⟩ := List.mem_map.mp hid
    refine ⟨put (.payloadLocation family p.1) p.2, List.mem_flatten.mpr
      ⟨_, List.mem_map.mpr ⟨_, hkey, rfl⟩, List.mem_map.mpr ⟨p, hp, rfl⟩⟩, ?_⟩
    simp [put, hpid]
  · intro e he
    obtain ⟨hkey, hblob⟩ := hmem e he
    exact hsize _ hkey e hblob
  · rcases hk with hk | ⟨e, he, rfl⟩
    · exact Or.inl hk
    · exact Or.inr ⟨_, (hmem e he).1, rfl⟩

/-- The keys that the payload stage writes. -/
def PayloadTouched (chain : Chain) (m n : ℕ) (k : TableKey) : Prop :=
  ∃ family, ∃ e ∈ chain.newEntries family m n,
    k = .payload (PayloadKey.fromId family e.2) ∨ k = .payloadLocation family e.2

theorem view_payloadLocation {family : Family} {e : Record × ℕ}
    (he : e ∈ chain.entries family n) :
    chain.view ext n (.payloadLocation family e.2) =
      some (.ok (chain.payloadEnd ext family e.2 n)) :=
  if_pos ⟨(mem_entries.mp he).1, lt_frontier he⟩

/-- **The payload stage writes the view**: whatever failed flushes have left, the
blobs and the locations of the batch are those of the new frontier. -/
theorem flushPayload_meets (h : chain.Flushing state m lo n hi) :
    Faulty.Meets (chain.Underway ext lo hi n D) (flushPayload ext state (chain.batch m n))
      (fun _ t => (∀ family, ∀ e ∈ chain.newEntries family m n,
          (e.1.encode ext).length ≤ maxPayloadSize) ∧
        chain.Underway ext lo hi n (fun k => D k ∨ chain.PayloadTouched m n k) t)
      (chain.Stored ext lo hi) := by
  have hmn : m ≤ n := h.le_stored.trans h.stored_le
  have hfamilies : Faulty.Meets (chain.Underway ext lo hi n D)
      (Faulty.traverse (flushFamily ext state (chain.batch m n)) Family.all)
      (fun wss t => ((∀ family ∈ Family.all, ∃ ws ∈ wss, chain.FamilyLocations ext m n family ws) ∧
          ∀ ws ∈ wss, ∃ family ∈ Family.all, chain.FamilyLocations ext m n family ws) ∧
        chain.Underway ext lo hi n (fun k => D k ∨ ∃ family ∈ Family.all,
          ∃ e ∈ chain.newEntries family m n, k = .payload (PayloadKey.fromId family e.2)) t)
      (chain.Stored ext lo hi) := by
    refine (Faulty.traverse_meets [] (I := fun done => chain.Underway ext lo hi n fun k =>
      D k ∨ ∃ family ∈ done, ∃ e ∈ chain.newEntries family m n,
        k = .payload (PayloadKey.fromId family e.2)) fun done family _ => ?_).conseq
      (fun t ht => ht.mono fun k hk => ?_) (fun _ _ hs => hs) fun _ hs => hs
    · refine (flushFamily_meets h family).conseq (fun _ hs => hs)
        (fun ws t ht => ⟨ht.1, ht.2.mono fun k hk => ?_⟩) fun _ hs => hs
      rcases hk with hk | ⟨family', hmem, rest⟩
      · exact Or.inl (Or.inl hk)
      · rcases List.mem_append.mp hmem with hmem | hmem
        · exact Or.inl (Or.inr ⟨family', hmem, rest⟩)
        · rw [List.mem_singleton] at hmem
          subst hmem
          exact Or.inr rest
    · rcases hk with hk | ⟨family, hmem, -⟩
      · exact hk
      · exact absurd hmem (by simp)
  refine Faulty.bind_meets hfamilies fun wss => ?_
  intro fs t ht
  obtain ⟨⟨hof, hws⟩, ht⟩ := ht
  have hrow : ∀ w ∈ wss.flatten, ∃ family, ∃ e ∈ chain.newEntries family m n,
      w = put (.payloadLocation family e.2) (chain.payloadEnd ext family e.2 n) := by
    intro w hw
    obtain ⟨ws, hmem, hw⟩ := List.mem_flatten.mp hw
    obtain ⟨family, -, hlocations⟩ := hws ws hmem
    exact ⟨family, hlocations.rows w hw⟩
  refine ((putBatch_meets h.stored_le h.le_high (fun w hw => ?_) fun w hw => ?_).conseq
    (fun _ hs => hs) (fun _ t' ht' => ⟨fun family => ?_, ht'.mono fun k hk => ?_⟩)
    fun _ hs => hs) fs t ht
  · obtain ⟨family, e, he, rfl⟩ := hrow w hw
    exact (view_payloadLocation ((mem_newEntries hmn).mp he).1).symm
  · obtain ⟨family, e, he, rfl⟩ := hrow w hw
    simp [put]
  · obtain ⟨ws, -, hws⟩ := hof family family.mem_all
    exact hws.size
  · rcases hk with hk | ⟨family, e, he, rfl | rfl⟩
    · exact Or.inl (Or.inl hk)
    · exact Or.inl (Or.inr ⟨family, family.mem_all, e, he, rfl⟩)
    · obtain ⟨ws, hmem, hws⟩ := hof family family.mem_all
      obtain ⟨w, hw, hk⟩ := hws.all e he
      exact Or.inr ⟨w, List.mem_flatten.mpr ⟨ws, hmem, hw⟩, hk⟩

end Stage

end Chain

end Query

end MonadServices
