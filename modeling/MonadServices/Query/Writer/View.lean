import MonadServices.Query.Writer.Chain

/-!
# How the view grows

What changes in `MonadServices.Query.Chain.view` when more blocks are committed. The
blob of a partition grows at its end, and the end of a payload does not move; the
positions of a page are only added to, and those of the first blocks are the ones
before the frontier; a row of metadata appears with its block and stays.

Each of the facts compares the views at two numbers of blocks `m ≤ n`: what is read
under a key after `n` blocks determines what was under it after `m` blocks.
-/

namespace MonadServices

namespace Query

namespace Chain

variable {chain : Chain} {ext : Externals} {m n : ℕ}

/-! ### Bitmap pages -/

theorem pageOf_le (id : ℕ) : pageOf id ≤ id := Nat.div_mul_le_self id pageSpan

theorem lt_pageOf_add (id : ℕ) : id < pageOf id + pageSpan := by
  unfold pageOf pageSpan
  omega

theorem mem_bits {key : BitmapIndexKey} {x : ℕ} : x ∈ chain.bits ext key n ↔
    pageOf (key.page + x) = key.page ∧
      ∃ r, (r, key.page + x) ∈ chain.entries key.family n ∧ key.filter ∈ r.filters ext := by
  unfold bits
  simp only [List.mem_toFinset, List.mem_map, List.mem_filter, decide_eq_true_eq]
  constructor
  · rintro ⟨⟨r, id⟩, ⟨hmem, hpage, hfilter⟩, rfl⟩
    dsimp only at hpage
    have hid : key.page + (id - key.page) = id := by
      have := pageOf_le id
      omega
    dsimp only
    rw [hid]
    exact ⟨hpage, r, hmem, hfilter⟩
  · rintro ⟨hpage, r, hmem, hfilter⟩
    exact ⟨(r, key.page + x), ⟨hmem, hpage, hfilter⟩, by simp⟩

/-- **The positions of the first blocks** are those before the frontier. -/
theorem mem_bits_iff {key : BitmapIndexKey} (h : m ≤ n) {x : ℕ} : x ∈ chain.bits ext key m ↔
    x ∈ chain.bits ext key n ∧ key.page + x < chain.frontier key.family m := by
  rw [mem_bits, mem_bits]
  constructor
  · rintro ⟨hpage, r, hmem, hfilter⟩
    exact ⟨⟨hpage, r, ((mem_entries_iff h).mp hmem).1, hfilter⟩, lt_frontier hmem⟩
  · rintro ⟨⟨hpage, r, hmem, hfilter⟩, hlt⟩
    exact ⟨hpage, r, (mem_entries_iff h).mpr ⟨hmem, hlt⟩, hfilter⟩

theorem lt_pageSpan_of_mem_bits {key : BitmapIndexKey} {x : ℕ} (h : x ∈ chain.bits ext key n) :
    x < pageSpan := by
  obtain ⟨hpage, -⟩ := mem_bits.mp h
  have := lt_pageOf_add (key.page + x)
  omega

/-- A page that no new record is listed on stays the same. -/
theorem bits_eq_of_untouched {key : BitmapIndexKey} (h : m ≤ n)
    (hnew : ∀ e ∈ chain.entries key.family n, chain.frontier key.family m ≤ e.2 →
      key.filter ∈ e.1.filters ext → pageOf e.2 ≠ key.page) :
    chain.bits ext key m = chain.bits ext key n := by
  ext x
  rw [mem_bits_iff h, and_iff_left_iff_imp]
  intro hx
  obtain ⟨hpage, r, hmem, hfilter⟩ := mem_bits.mp hx
  by_contra hlt
  exact hnew (r, key.page + x) hmem (by simpa using hlt) hfilter hpage

/-! ### Payload blobs -/

@[simp] theorem blobOf_nil : blobOf ext [] = [] := rfl

theorem blobOf_append (es es' : List (Record × ℕ)) :
    blobOf ext (es ++ es') = blobOf ext es ++ blobOf ext es' := List.flatMap_append

theorem blobOf_singleton (e : Record × ℕ) :
    blobOf ext [e] = ext.compress (e.1.encode ext) := by simp [blobOf]

/-- The records that the blocks from `m` to `n` add. -/
def newEntries (chain : Chain) (family : Family) (m n : ℕ) : List (Record × ℕ) :=
  ((chain.segment m n).flatMap fun block => block.records family).zipIdx (chain.frontier family m)

theorem entries_append_new (family : Family) (h : m ≤ n) :
    chain.entries family n = chain.entries family m ++ chain.newEntries family m n :=
  entries_eq_append h

theorem mem_newEntries {family : Family} (h : m ≤ n) {e : Record × ℕ} :
    e ∈ chain.newEntries family m n ↔
      e ∈ chain.entries family n ∧ chain.frontier family m ≤ e.2 := by
  constructor
  · intro he
    refine ⟨?_, List.le_snd_of_mem_zipIdx he⟩
    rw [entries_append_new family h]
    exact List.mem_append_right _ he
  · rintro ⟨he, hle⟩
    rw [entries_append_new family h, List.mem_append] at he
    rcases he with he | he
    · exact absurd (lt_frontier he) (by omega)
    · exact he

theorem mem_blobEntries {key : PayloadKey} {e : Record × ℕ} : e ∈ chain.blobEntries key n ↔
    e ∈ chain.entries key.family n ∧ PayloadKey.fromId key.family e.2 = key := by
  simp [blobEntries]

theorem blobEntries_append (key : PayloadKey) (h : m ≤ n) : chain.blobEntries key n =
    chain.blobEntries key m ++
      (chain.newEntries key.family m n).filter fun e => PayloadKey.fromId key.family e.2 = key := by
  unfold blobEntries
  rw [entries_append_new key.family h, List.filter_append]

theorem blobEntries_pairwise (chain : Chain) (n : ℕ) (key : PayloadKey) :
    (chain.blobEntries key n).Pairwise (·.2 < ·.2) := entries_pairwise.filter _

/-- **A blob grows at its end.** -/
theorem blobOf_take (key : PayloadKey) (h : m ≤ n) :
    (blobOf ext (chain.blobEntries key n)).take (blobOf ext (chain.blobEntries key m)).length =
      blobOf ext (chain.blobEntries key m) := by
  rw [blobEntries_append key h, blobOf_append, List.take_left]

/-- Of a list with rising ids, the part up to the id of an element. -/
theorem filter_le_of_pairwise {pre post : List (Record × ℕ)} {e : Record × ℕ}
    (h : (pre ++ e :: post).Pairwise (·.2 < ·.2)) :
    (pre ++ e :: post).filter (·.2 ≤ e.2) = pre ++ [e] := by
  rw [List.pairwise_append, List.pairwise_cons] at h
  obtain ⟨-, ⟨hpost, -⟩, hpre⟩ := h
  have h1 : pre.filter (·.2 ≤ e.2) = pre :=
    List.filter_eq_self.mpr fun a ha => by simpa using (hpre a ha e (by simp)).le
  have h2 : post.filter (·.2 ≤ e.2) = [] :=
    List.filter_eq_nil_iff.mpr fun a ha => by simpa using hpost a ha
  rw [List.filter_append, List.filter_cons, if_pos (by simp), h1, h2]

/-- **The end of a payload does not move.** -/
theorem payloadEnd_eq {family : Family} {id : ℕ} (h : m ≤ n)
    (hid : id < chain.frontier family m) :
    chain.payloadEnd ext family id n = chain.payloadEnd ext family id m := by
  unfold payloadEnd
  have hnil : ((chain.newEntries family m n).filter fun e =>
      PayloadKey.fromId family e.2 = PayloadKey.fromId family id).filter (·.2 ≤ id) = [] := by
    refine List.filter_eq_nil_iff.mpr fun e he => ?_
    have := ((mem_newEntries h).mp (List.mem_of_mem_filter he)).2
    simp only [decide_eq_true_eq]
    omega
  rw [blobEntries_append _ h, List.filter_append, PayloadKey.fromId_family, hnil, List.append_nil]

/-- The end of a payload, from its place in the blob. -/
theorem payloadEnd_of_split {family : Family} {pre post : List (Record × ℕ)} {e : Record × ℕ}
    (h : chain.blobEntries (PayloadKey.fromId family e.2) n = pre ++ e :: post) :
    chain.payloadEnd ext family e.2 n = (blobOf ext (pre ++ [e])).length := by
  unfold payloadEnd
  have hp := chain.blobEntries_pairwise n (PayloadKey.fromId family e.2)
  rw [h] at hp ⊢
  rw [filter_le_of_pairwise hp]

/-- Where the payload of an id starts in its blob. -/
def payloadStart (chain : Chain) (ext : Externals) (family : Family) (id n : ℕ) : ℕ :=
  (blobOf ext ((chain.blobEntries (PayloadKey.fromId family id) n).filter (·.2 < id))).length

theorem filter_lt_of_pairwise {pre post : List (Record × ℕ)} {e : Record × ℕ}
    (h : (pre ++ e :: post).Pairwise (·.2 < ·.2)) :
    (pre ++ e :: post).filter (·.2 < e.2) = pre := by
  rw [List.pairwise_append, List.pairwise_cons] at h
  obtain ⟨-, ⟨hpost, -⟩, hpre⟩ := h
  have h1 : pre.filter (·.2 < e.2) = pre :=
    List.filter_eq_self.mpr fun a ha => by simpa using hpre a ha e (by simp)
  have h2 : post.filter (·.2 < e.2) = [] :=
    List.filter_eq_nil_iff.mpr fun a ha => by simpa using (hpost a ha).le
  rw [List.filter_append, List.filter_cons, if_neg (by simp), h1, h2, List.append_nil]

/-- **A payload is where its location says.** -/
theorem payload_slice (ext : Externals) {family : Family} {e : Record × ℕ}
    (he : e ∈ chain.entries family n) :
    chain.payloadEnd ext family e.2 n = chain.payloadStart ext family e.2 n +
        (ext.compress (e.1.encode ext)).length ∧
      chain.payloadEnd ext family e.2 n ≤
        (blobOf ext (chain.blobEntries (PayloadKey.fromId family e.2) n)).length ∧
      ((blobOf ext (chain.blobEntries (PayloadKey.fromId family e.2) n)).drop
        (chain.payloadStart ext family e.2 n)).take (ext.compress (e.1.encode ext)).length =
          ext.compress (e.1.encode ext) := by
  obtain ⟨pre, post, hsplit⟩ := List.append_of_mem
    (mem_blobEntries.mpr ⟨he, rfl⟩ : e ∈ chain.blobEntries (PayloadKey.fromId family e.2) n)
  have hp := chain.blobEntries_pairwise n (PayloadKey.fromId family e.2)
  have hstart : chain.payloadStart ext family e.2 n = (blobOf ext pre).length := by
    unfold payloadStart
    rw [hsplit] at hp ⊢
    rw [filter_lt_of_pairwise hp]
  have hblob : blobOf ext (chain.blobEntries (PayloadKey.fromId family e.2) n) =
      blobOf ext pre ++ (ext.compress (e.1.encode ext) ++ blobOf ext post) := by
    rw [hsplit, blobOf_append]
    rfl
  rw [payloadEnd_of_split hsplit, hstart, hblob, blobOf_append, blobOf_singleton]
  refine ⟨by simp, by simp, ?_⟩
  rw [List.drop_left, List.take_left]

theorem partitionStart_eq_self {id : ℕ} : id = partitionStart id ↔ id % itemsPerBlob = 0 := by
  unfold partitionStart itemsPerBlob
  omega

/-- **A payload starts where the one before it ends**, or at the start of the blob if
it is the first one there. -/
theorem payloadStart_eq {family : Family} {id : ℕ} (hlt : id < 2 ^ 64)
    (h64 : chain.frontier family n ≤ 2 ^ 64) :
    chain.payloadStart ext family id n =
      if id = partitionStart id ∨ id = chain.base family then 0
      else chain.payloadEnd ext family (id - 1) n := by
  split_ifs with hfirst
  · have hnil : (chain.blobEntries (PayloadKey.fromId family id) n).filter (·.2 < id) = [] := by
      refine List.filter_eq_nil_iff.mpr fun e he => ?_
      obtain ⟨hmem, hkey⟩ := mem_blobEntries.mp he
      rw [PayloadKey.fromId_family] at hmem hkey
      have hbase : chain.base family ≤ e.2 := (mem_entries.mp hmem).1
      have hid := lt_frontier hmem
      rw [PayloadKey.fromId_inj (by omega) hlt] at hkey
      simp only [decide_eq_true_eq]
      rw [partitionStart_eq_self] at hfirst
      unfold itemsPerBlob at *
      omega
    rw [payloadStart, hnil]
    rfl
  · rw [not_or, partitionStart_eq_self] at hfirst
    have hpos : 0 < id := Nat.pos_of_ne_zero fun h0 => hfirst.1 (by rw [h0, Nat.zero_mod])
    have hkey : PayloadKey.fromId family (id - 1) = PayloadKey.fromId family id := by
      rw [PayloadKey.fromId_inj (by omega) hlt]
      unfold itemsPerBlob at *
      omega
    unfold payloadStart payloadEnd
    rw [hkey]
    congr 2
    refine List.filter_congr fun e _ => ?_
    simp only [decide_eq_decide]
    omega

/-- Payloads of one blob do not overlap. -/
theorem payloadEnd_le_payloadStart {family : Family} {id id' : ℕ} (hlt : id' < id)
    (hkey : PayloadKey.fromId family id' = PayloadKey.fromId family id) :
    chain.payloadEnd ext family id' n ≤ chain.payloadStart ext family id n := by
  unfold payloadEnd payloadStart
  rw [hkey]
  refine List.Sublist.length_le
    (List.Sublist.flatMap (List.monotone_filter_right _ fun e he => ?_) _)
  simp only [decide_eq_true_eq] at he ⊢
  omega

/-- A payload blob that no new record goes to stays the same. -/
theorem blobEntries_eq_of_untouched {key : PayloadKey} (h : m ≤ n)
    (hnew : ∀ e ∈ chain.newEntries key.family m n, PayloadKey.fromId key.family e.2 ≠ key) :
    chain.blobEntries key m = chain.blobEntries key n := by
  rw [blobEntries_append key h, List.filter_eq_nil_iff.mpr, List.append_nil]
  intro e he
  simpa using hnew e he

/-! ### Metadata -/

theorem blockAt_eq_some {height : ℕ} {block : QueryWriterBlock} :
    chain.blockAt height n = some block ↔
      ∃ i, i < n ∧ height = chain.start + i ∧ chain.blocks[i]? = some block := by
  unfold blockAt
  split
  · rename_i hle
    rw [List.getElem?_take, ite_eq_iff]
    constructor
    · rintro (⟨hlt, hget⟩ | ⟨-, hcon⟩)
      · exact ⟨height - chain.start, hlt, by omega, hget⟩
      · cases hcon
    · rintro ⟨i, hi, rfl, hget⟩
      exact Or.inl ⟨by omega, by simpa using hget⟩
  · rename_i hle
    simp only [reduceCtorEq, false_iff, not_exists, not_and]
    intro i _ hcon
    omega

/-- The rows of a block are there once the block is. -/
theorem blockAt_eq_of_untouched {height : ℕ} (h : m ≤ n)
    (hnew : ∀ i, m ≤ i → i < n → height ≠ chain.start + i) :
    chain.blockAt height m = chain.blockAt height n := by
  refine Option.ext fun block => ?_
  rw [blockAt_eq_some, blockAt_eq_some]
  constructor
  · rintro ⟨i, hi, rest⟩
    exact ⟨i, by omega, rest⟩
  · rintro ⟨i, hi, hheight, hget⟩
    exact ⟨i, by by_contra hcon; exact hnew i (by omega) hi hheight, hheight, hget⟩

/-- Every committed id is in a block. -/
theorem exists_block_of_id {family : Family} {id : ℕ} (hbase : chain.base family ≤ id)
    (hlt : id < chain.frontier family n) :
    ∃ i, i < n ∧ chain.frontier family i ≤ id ∧ id < chain.frontier family (i + 1) := by
  induction n with
  | zero =>
    rw [frontier_zero] at hlt
    omega
  | succ n ih =>
    rcases Nat.lt_or_ge id (chain.frontier family n) with h | h
    · obtain ⟨i, hi, hid⟩ := ih h
      exact ⟨i, by omega, hid⟩
    · exact ⟨n, by omega, h, hlt⟩

/-- An id is in one block only. -/
theorem block_of_id_unique {family : Family} {id i i' : ℕ} (hle : chain.frontier family i ≤ id)
    (hlt : id < chain.frontier family (i + 1)) (hle' : chain.frontier family i' ≤ id)
    (hlt' : id < chain.frontier family (i' + 1)) : i = i' := by
  rcases lt_trichotomy i i' with h | h | h
  · have := chain.frontier_mono family (Nat.lt_iff_add_one_le.mp h)
    omega
  · exact h
  · have := chain.frontier_mono family (Nat.lt_iff_add_one_le.mp h)
    omega

theorem blockOfFirst_eq_some {family : Family} {id height : ℕ} :
    chain.blockOfFirst family id n = some height ↔
      ∃ i, i < n ∧ height = chain.start + i ∧ chain.frontier family i = id ∧
        id < chain.frontier family (i + 1) := by
  unfold blockOfFirst
  rw [Option.map_eq_some_iff]
  constructor
  · rintro ⟨i, hfind, rfl⟩
    have hp := List.find?_some hfind
    have hmem := List.mem_of_find?_eq_some hfind
    rw [decide_eq_true_eq] at hp
    exact ⟨i, List.mem_range.mp hmem, rfl, hp⟩
  · rintro ⟨i, hi, rfl, hid, hlt⟩
    refine ⟨i, ?_, rfl⟩
    rcases hfind : (List.range n).find? fun i =>
        chain.frontier family i = id ∧ id < chain.frontier family (i + 1) with _ | j
    · rw [List.find?_eq_none] at hfind
      exact absurd (decide_eq_true ⟨hid, hlt⟩) (hfind i (List.mem_range.mpr hi))
    · have hp := List.find?_some hfind
      rw [decide_eq_true_eq] at hp
      rw [block_of_id_unique hid.le hlt hp.1.le hp.2]

theorem blockOfFirst_eq_of_untouched {family : Family} {id : ℕ} (h : m ≤ n)
    (hnew : ∀ i, m ≤ i → i < n → chain.frontier family i = id →
      chain.frontier family (i + 1) ≤ id) :
    chain.blockOfFirst family id m = chain.blockOfFirst family id n := by
  refine Option.ext fun height => ?_
  rw [blockOfFirst_eq_some, blockOfFirst_eq_some]
  constructor
  · rintro ⟨i, hi, rest⟩
    exact ⟨i, by omega, rest⟩
  · rintro ⟨i, hi, hheight, hid, hlt⟩
    refine ⟨i, ?_, hheight, hid, hlt⟩
    by_contra hcon
    have := hnew i (by omega) hi hid
    omega

end Chain

end Query

end MonadServices
