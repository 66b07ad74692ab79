import MonadServices.Archive.Mongo

/-!
# Two puts of one key

Two programs put a value under the same key of a MongoDB collection at the same time. Each
operation on the database is one step, the steps of the two puts interleave in any order, and
each of them may crash in between.

The chunks of a value are not named by the value but by its key, so that two values that are
cut share them. A put that writes a chunk while another one is at it, or while the key
holds a value that was cut, **makes a mixture of the two**, and the policy not to overwrite does
not help: what it guards is the document of the value itself. When no chunk is written at such
a time, every read gives one of the values as a whole
(`MonadServices.Archive.Mongo.untorn_of_exclusive`).
-/

namespace MonadServices

namespace Archive

namespace Mongo

/-- What a put is to write. -/
structure Put where
  data : Bytes
  policy : WritePolicy

/-- The chunks that a put writes before the document of the value itself. -/
def Put.docs (put : Put) (key : Key) : List (Key × KeyValueDocument) :=
  if IsCut put.data then chunkDocs key put.data else []

/-- How far a put is. -/
inductive Pc where
  | start
  /-- The chunks that are still to be written. -/
  | writing (rest : List (Key × KeyValueDocument))
  | ended (result : PutResult)
  | crashed

/-- **One operation of a put.** -/
def Put.step (put : Put) (key : Key) (collection : Collection) : Pc → Option (Collection × Pc)
  | .start =>
    if IsCut put.data ∧ put.policy = .noClobber ∧ isThere collection key then
      some (collection, .ended .skipped)
    else some (collection, .writing (put.docs key))
  | .writing (doc :: rest) => some (collection.insert doc.1 doc.2, .writing rest)
  | .writing [] =>
    match put.policy with
    | .noClobber =>
      if isThere collection key then some (collection, .ended .skipped)
      else some (collection.insert key (mainDoc put.data), .ended .written)
    | .allowOverwrite => some (collection.insert key (mainDoc put.data), .ended .written)
  | .ended _ => none
  | .crashed => none

/-- Operation by operation, a put that is left alone does what `MonadServices.Archive.Mongo.put`
does. -/
theorem Put.run_alone (put : Put) (key : Key) (collection : Collection) :
    Relation.ReflTransGen (fun s s' : Collection × Pc => put.step key s.1 s.2 = some s')
      (collection, .start) ((Mongo.put collection key put.data put.policy).1,
        .ended (Mongo.put collection key put.data put.policy).2) := by
  by_cases hskip : IsCut put.data ∧ put.policy = .noClobber ∧ isThere collection key
  · rw [Mongo.put, if_pos hskip]
    exact .single (if_pos hskip)
  · -- The chunks are written one after the other.
    have hchunks : ∀ (docs : List (Key × KeyValueDocument)) (c : Collection),
        Relation.ReflTransGen (fun s s' : Collection × Pc => put.step key s.1 s.2 = some s')
          (c, .writing docs) (replaceAll c docs, .writing []) := by
      intro docs
      induction docs with
      | nil => exact fun c => .refl
      | cons doc docs ih => exact fun c => .head rfl (ih _)
    have hchunked : replaceAll collection (put.docs key) =
        if IsCut put.data then replaceAll collection (chunkDocs key put.data) else collection := by
      unfold Put.docs
      split <;> rfl
    have hstart : put.step key collection .start =
        some (collection, .writing (put.docs key)) := if_neg hskip
    refine .head hstart ((hchunks (put.docs key) collection).tail ?_)
    rw [Mongo.put, if_neg hskip, ← hchunked]
    simp only [Put.step]
    cases put.policy with
    | noClobber =>
      simp only
      split <;> rfl
    | allowOverwrite => rfl

/-! ### The race -/

/-- The collection and the two puts. -/
structure Race where
  collection : Collection
  pc : Bool → Pc

/-- What may happen. -/
inductive Event where
  /-- The next operation of one of the puts. -/
  | op (i : Bool)
  | crash (i : Bool)

/-- **One step of the race.** -/
def Race.step (puts : Bool → Put) (key : Key) (s : Race) : Event → Option Race
  | .op i => ((puts i).step key s.collection (s.pc i)).map fun (collection, pc) =>
      ⟨collection, Function.update s.pc i pc⟩
  | .crash i => some ⟨s.collection, Function.update s.pc i .crashed⟩

/-- A step by an event of which `allowed` holds in the state before it. -/
def Race.Step (puts : Bool → Put) (key : Key) (allowed : Race → Event → Prop) (s s' : Race) :
    Prop :=
  ∃ e, allowed s e ∧ s.step puts key e = some s'

/-- A put has written some of its chunks and not yet the document of its value. -/
def Put.Midway (put : Put) (key : Key) : Pc → Prop
  | .writing rest => rest.length < (put.docs key).length
  | _ => False

/-- The condition on the steps: a chunk is written only while the document under the key is not
that of a value that was cut, and the other put is not midway. -/
def Race.Exclusive (puts : Bool → Put) (key : Key) (s : Race) : Event → Prop
  | .op i => ∀ doc rest, s.pc i = .writing (doc :: rest) →
      (∀ main, s.collection.lookup key = some main → main.chunks = none) ∧
        ¬(puts !i).Midway key (s.pc !i)
  | .crash _ => True

/-- The number of the chunks of a value is an `u32`. -/
def Fits (data : Bytes) : Prop := data.length ⌈/⌉ chunkSize < 2 ^ 32

/-! ### Reading a value that was cut -/

variable {collection collection' : Collection} {key : Key} {data : Bytes}

/-- The numbers of the chunks are not shortened. -/
theorem chunkDocs_eq (hfits : Fits data) :
    chunkDocs key data = (chunks chunkSize data).zipIdx.map fun p =>
      (chunkId key p.2, ⟨some p.1, none⟩) := by
  refine List.map_congr_left fun p hp => ?_
  have hlt := List.snd_lt_of_mem_zipIdx hp
  rw [length_chunks chunkSize_pos, Nat.add_zero] at hlt
  obtain ⟨chunk, chunkNum⟩ := p
  show (chunkId key (chunkNum % 2 ^ 32), _) = _
  rw [Nat.mod_eq_of_lt (hlt.trans hfits)]

theorem nodup_chunkDocs (hfits : Fits data) : ((chunkDocs key data).map Prod.fst).Nodup := by
  rw [chunkDocs_eq hfits, List.map_map]
  have hkeys : ((chunks chunkSize data).zipIdx.map Prod.snd).Nodup := by
    rw [List.zipIdx_map_snd]
    exact List.nodup_range'
  have := hkeys.map (chunkId_injective key)
  rwa [List.map_map] at this

/-- **A value is read back from its chunks.** -/
theorem get_of_chunks (hcut : IsCut data) (hfits : Fits data)
    (hmain : collection.lookup key = some (mainDoc data))
    (hchunks : ∀ doc ∈ chunkDocs key data, collection.lookup doc.1 = some doc.2) :
    get collection key = .ok (some data) := by
  have hdoc : mainDoc data = ⟨none, some (chunks chunkSize data).length⟩ := by
    rw [mainDoc, if_pos hcut, Nat.mod_eq_of_lt hfits, length_chunks chunkSize_pos]
  -- The document under the key of each chunk is that chunk.
  have hlookup : ∀ i chunk, (chunks chunkSize data)[i]? = some chunk →
      collection.lookup (chunkId key i) = some ⟨some chunk, none⟩ := by
    intro i chunk hi
    refine hchunks (chunkId key i, ⟨some chunk, none⟩) ?_
    rw [chunkDocs_eq hfits]
    exact List.mem_map.mpr ⟨(chunk, i), List.mem_zipIdx_iff_getElem?.mpr hi, rfl⟩
  have hkeys : ∀ key' ∈ (List.range (chunks chunkSize data).length).map (chunkId key),
      ∃ chunk, collection.lookup key' = some ⟨some chunk, none⟩ := by
    intro key' hkey'
    obtain ⟨i, hi, rfl⟩ := List.mem_map.mp hkey'
    exact ⟨_, hlookup i _ (List.getElem?_eq_getElem (List.mem_range.mp hi))⟩
  let part : Key → Bytes := fun key' => ((collection.lookup key').bind fun doc => doc.value).getD []
  have hparts : ((List.range (chunks chunkSize data).length).map (chunkId key)).map part =
      chunks chunkSize data := by
    have hpart : ∀ i chunk, (chunks chunkSize data)[i]? = some chunk →
        part (chunkId key i) = chunk := by
      intro i chunk hi
      simp only [part, hlookup i chunk hi]
      rfl
    refine List.ext_getElem (by simp) fun i hi hi' => ?_
    rw [List.getElem_map, List.getElem_map, List.getElem_range]
    exact hpart i _ (List.getElem?_eq_getElem hi')
  unfold get
  rw [hmain, hdoc]
  refine bind_eq_ok.mpr ⟨(key, data), bind_eq_ok.mpr ⟨(), ?_, bind_eq_ok.mpr ⟨_, mapM_eq_ok_map
    (g := part) ?_, ?_⟩⟩, rfl⟩
  · refine forM_eq_ok.mpr fun key' hkey' => ?_
    obtain ⟨chunk, hchunk⟩ := hkeys key' hkey'
    rw [hchunk]
    rfl
  · intro key' hkey'
    obtain ⟨chunk, hchunk⟩ := hkeys key' hkey'
    simp only [part, hchunk]
    rfl
  · rw [hparts, flatten_chunks chunkSize_pos]
    rfl

/-- A read looks at the document of the value only, unless the value was cut. -/
theorem get_congr (h : collection'.lookup key = collection.lookup key)
    (hwhole : ∀ main, collection.lookup key = some main → main.chunks = none) :
    get collection' key = get collection key := by
  unfold get
  rw [h]
  cases hmain : collection.lookup key with
  | none => rfl
  | some main =>
    have hchunks := hwhole main hmain
    obtain ⟨value, count⟩ := main
    cases hchunks
    cases value <;> rfl

/-- A value that is not cut is read from its document. -/
theorem get_insert_main (hcut : ¬IsCut data) :
    get (collection.insert key (mainDoc data)) key = .ok (some data) := by
  unfold get
  rw [AList.lookup_insert, mainDoc, if_neg hcut]
  rfl

/-! ### The invariant -/

variable {puts : Bool → Put} {prior : Option Bytes} {s s' : Race} {i : Bool}

/-- **What a read may give**: the value before the race or that of a put that has started, and
the value that was written when both puts are not to overwrite. -/
structure Whole (puts : Bool → Put) (key : Key) (prior v : Option Bytes) (s : Race) : Prop where
  get : get s.collection key = .ok v
  among : v = prior ∨ ∃ i, s.pc i ≠ .start ∧ v = some (puts i).data
  written : (∀ i, (puts i).policy = .noClobber) → ∀ i, s.pc i = .ended .written →
    v = some (puts i).data ∧ isThere s.collection key = true

/-- The chunks that a put has written so far are in the collection. -/
def Progress (put : Put) (key : Key) (collection : Collection) (pc : Pc) : Prop :=
  ∀ rest, pc = .writing rest → ∃ done, put.docs key = done ++ rest ∧
    ∀ doc ∈ done, collection.lookup doc.1 = some doc.2

/-- **The invariant of the race.** -/
structure Inv (puts : Bool → Put) (key : Key) (prior : Option Bytes) (s : Race) : Prop where
  whole : ∃ v, Whole puts key prior v s
  progress : ∀ i, Progress (puts i) key s.collection (s.pc i)

/-- A put may move on without writing, to where its chunks allow it. -/
theorem Inv.move {pc : Pc} (h : Inv puts key prior s) (hstart : pc ≠ .start)
    (hwritten : pc ≠ .ended .written) (hpc : Progress (puts i) key s.collection pc) :
    Inv puts key prior ⟨s.collection, Function.update s.pc i pc⟩ := by
  obtain ⟨v, hv⟩ := h.whole
  refine ⟨⟨v, hv.get, ?_, fun hpolicy j hj => ?_⟩, fun j => ?_⟩
  · rcases hv.among with heq | ⟨j, hj, heq⟩
    · exact Or.inl heq
    · refine Or.inr ⟨j, ?_, heq⟩
      rcases eq_or_ne j i with rfl | hne
      · simpa using hstart
      · simpa [Function.update_of_ne hne] using hj
  · rcases eq_or_ne j i with rfl | hne
    · simp only [Function.update_self] at hj
      exact absurd hj hwritten
    · simp only [Function.update_of_ne hne] at hj
      exact hv.written hpolicy j hj
  · rcases eq_or_ne j i with rfl | hne
    · simp only [Function.update_self]
      exact hpc
    · simp only [Function.update_of_ne hne]
      exact h.progress j

theorem mem_docs {put : Put} {doc : Key × KeyValueDocument} (h : doc ∈ put.docs key) :
    key ≠ doc.1 := by
  unfold Put.docs at h
  split at h
  · exact ne_of_mem_chunkDocs h
  · cases h

theorem nodup_docs {put : Put} (hfits : Fits put.data) : ((put.docs key).map Prod.fst).Nodup := by
  unfold Put.docs
  split
  · exact nodup_chunkDocs hfits
  · exact List.nodup_nil

/-- **A chunk that is written at a time of its own** leaves the value under the key as it is. -/
theorem Inv.chunk {doc : Key × KeyValueDocument} {rest : List (Key × KeyValueDocument)}
    (h : Inv puts key prior s) (hfits : Fits (puts i).data) (hpc : s.pc i = .writing (doc :: rest))
    (hex : s.Exclusive puts key (.op i)) :
    Inv puts key prior
      ⟨s.collection.insert doc.1 doc.2, Function.update s.pc i (.writing rest)⟩ := by
  obtain ⟨v, hv⟩ := h.whole
  obtain ⟨done, hdocs, hdone⟩ := h.progress i _ hpc
  obtain ⟨hmain, hother⟩ := hex doc rest hpc
  have hmem : doc ∈ (puts i).docs key := by
    rw [hdocs]
    simp
  have hne : key ≠ doc.1 := mem_docs hmem
  have hlookup : (s.collection.insert doc.1 doc.2).lookup key = s.collection.lookup key :=
    AList.lookup_insert_ne hne
  refine ⟨⟨v, (get_congr hlookup hmain).trans hv.get, ?_, fun hpolicy j hj => ?_⟩, fun j => ?_⟩
  · rcases hv.among with heq | ⟨j, hj, heq⟩
    · exact Or.inl heq
    · refine Or.inr ⟨j, ?_, heq⟩
      rcases eq_or_ne j i with rfl | hji
      · simp
      · simpa [Function.update_of_ne hji] using hj
  · rcases eq_or_ne j i with rfl | hji
    · simp only [Function.update_self] at hj
      cases hj
    · simp only [Function.update_of_ne hji] at hj
      obtain ⟨heq, hthere⟩ := hv.written hpolicy j hj
      refine ⟨heq, ?_⟩
      rw [isThere, hlookup]
      exact hthere
  · rcases eq_or_ne j i with rfl | hji
    · -- The chunks of one put have different keys.
      simp only [Function.update_self]
      rintro _ ⟨⟩
      refine ⟨done ++ [doc], by rw [hdocs]; simp, fun doc' hdoc' => ?_⟩
      rcases List.mem_append.mp hdoc' with hmem | hmem
      · have hnodup : (((puts j).docs key).map Prod.fst).Nodup := nodup_docs hfits
        rw [hdocs, List.map_append, List.nodup_append] at hnodup
        have hkeys := hnodup.2.2 doc'.1 (List.mem_map_of_mem hmem) doc.1 (by simp)
        rw [AList.lookup_insert_ne hkeys]
        exact hdone doc' hmem
      · rw [List.mem_singleton.mp hmem]
        exact AList.lookup_insert _
    · -- The other put has not written a chunk yet.
      simp only [Function.update_of_ne hji]
      intro rest' hrest'
      obtain ⟨done', hdocs', hdone'⟩ := h.progress j _ hrest'
      have hnot : (!i) = j := by
        cases i <;> cases j <;> simp_all
      rw [hnot, hrest'] at hother
      refine ⟨done', hdocs', ?_⟩
      have hnil : done' = [] := by
        have hlen := congrArg List.length hdocs'
        rw [List.length_append] at hlen
        simp only [Put.Midway, not_lt] at hother
        exact List.eq_nil_of_length_eq_zero (by omega)
      rw [hnil]
      simp

/-- **The document of the value is written last**: then all the chunks are there. -/
theorem Inv.main (h : Inv puts key prior s) (hfits : Fits (puts i).data)
    (hpc : s.pc i = .writing [])
    (hfree : (puts i).policy = .noClobber → isThere s.collection key = false) :
    Inv puts key prior ⟨s.collection.insert key (mainDoc (puts i).data),
      Function.update s.pc i (.ended .written)⟩ := by
  obtain ⟨v, hv⟩ := h.whole
  obtain ⟨done, hdocs, hdone⟩ := h.progress i _ hpc
  rw [List.append_nil] at hdocs
  -- The document of the value does not touch a chunk.
  have hkept : ∀ (j : Bool) (doc : Key × KeyValueDocument), doc ∈ (puts j).docs key →
      (s.collection.insert key (mainDoc (puts i).data)).lookup doc.1 =
        s.collection.lookup doc.1 :=
    fun j doc hdoc => AList.lookup_insert_ne (mem_docs hdoc).symm
  have hget : get (s.collection.insert key (mainDoc (puts i).data)) key =
      .ok (some (puts i).data) := by
    rcases em (IsCut (puts i).data) with hcut | hcut
    · refine get_of_chunks hcut hfits (AList.lookup_insert _) fun doc hdoc => ?_
      have hmem : doc ∈ (puts i).docs key := by
        rw [Put.docs, if_pos hcut]
        exact hdoc
      rw [hkept i doc hmem]
      exact hdone doc (hdocs ▸ hmem)
    · exact get_insert_main hcut
  refine ⟨⟨_, hget, Or.inr ⟨i, by simp, rfl⟩, fun hpolicy j hj => ?_⟩, fun j => ?_⟩
  · rcases eq_or_ne j i with rfl | hji
    · exact ⟨rfl, by simp [isThere]⟩
    · -- Had the other put written, there would be a document.
      simp only [Function.update_of_ne hji] at hj
      have hthere := (hv.written hpolicy j hj).2
      rw [hfree (hpolicy i)] at hthere
      cases hthere
  · rcases eq_or_ne j i with rfl | hji
    · simp only [Function.update_self]
      rintro _ ⟨⟩
    · simp only [Function.update_of_ne hji]
      intro rest' hrest'
      obtain ⟨done', hdocs', hdone'⟩ := h.progress j _ hrest'
      refine ⟨done', hdocs', fun doc hdoc => ?_⟩
      have hmem : doc ∈ (puts j).docs key := by
        rw [hdocs']
        exact List.mem_append_left _ hdoc
      rw [hkept j doc hmem]
      exact hdone' doc hdoc

/-- **Every exclusive step keeps the invariant.** -/
theorem Inv.step {e : Event} (h : Inv puts key prior s) (hfits : ∀ i, Fits (puts i).data)
    (hex : s.Exclusive puts key e) (hstep : s.step puts key e = some s') :
    Inv puts key prior s' := by
  cases e with
  | crash i =>
    cases hstep
    exact h.move nofun nofun nofun
  | op i =>
    obtain ⟨⟨collection, pc⟩, hop, rfl⟩ := Option.map_eq_some_iff.mp hstep
    cases hpc : s.pc i with
    | start =>
      rw [hpc, Put.step] at hop
      split at hop
      · cases hop
        exact h.move nofun nofun nofun
      · cases hop
        refine h.move nofun nofun ?_
        rintro _ ⟨⟩
        exact ⟨[], rfl, nofun⟩
    | writing rest =>
      rw [hpc] at hop
      cases rest with
      | cons doc rest =>
        cases hop
        exact h.chunk (hfits i) hpc hex
      | nil =>
        simp only [Put.step] at hop
        split at hop
        · split at hop
          · cases hop
            exact h.move nofun nofun nofun
          · rename_i hfree
            cases hop
            exact h.main (hfits i) hpc fun _ => Bool.eq_false_iff.mpr hfree
        · rename_i hpolicy
          cases hop
          exact h.main (hfits i) hpc fun hno => by rw [hpolicy] at hno; cases hno
    | ended result =>
      rw [hpc] at hop
      cases hop
    | crashed =>
      rw [hpc] at hop
      cases hop

/-- **No value is torn**: in every run of two puts, of values with less than `2 ^ 32` chunks,
whose steps are all exclusive, a read gives the value before the race or that of one of the
puts, and the one that was written when neither is to overwrite. The read itself overlaps no
put: none of their operations falls between its own. -/
theorem untorn_of_exclusive {collection : Collection} (hprior : get collection key = .ok prior)
    (hfits : ∀ i, Fits (puts i).data)
    (hrun : Relation.ReflTransGen (Race.Step puts key (Race.Exclusive puts key))
      ⟨collection, fun _ => .start⟩ s) : ∃ v, Whole puts key prior v s := by
  have hinv : Inv puts key prior s := by
    induction hrun with
    | refl => exact ⟨⟨prior, hprior, Or.inl rfl, nofun⟩, nofun⟩
    | tail _ hstep ih =>
      obtain ⟨e, hex, hstep⟩ := hstep
      exact ih.step hfits hex hstep
  exact hinv.whole

/-- What an operation of a put does to the race. -/
theorem Race.step_op {pc : Pc}
    (h : (puts i).step key s.collection (s.pc i) = some (collection, pc)) :
    s.step puts key (.op i) = some ⟨collection, Function.update s.pc i pc⟩ := by
  rw [Race.step, h]
  rfl

/-- Two puts of short values that are not to overwrite. -/
def shortPuts (i : Bool) : Put := ⟨if i then [1] else [2], .noClobber⟩

/-- They race for a new key, and the second one is skipped. -/
theorem untorn_of_exclusive_short :
    ∃ s : Race, s.pc true = .ended .written ∧ s.pc false = .ended .skipped ∧
      Whole shortPuts ['k'] none (some [1]) s := by
  have hshort : ∀ i, ¬IsCut (shortPuts i).data := by
    intro i
    unfold IsCut chunkSize shortPuts
    cases i <;> simp
  have hfits : ∀ i, Fits (shortPuts i).data := by
    intro i
    unfold Fits chunkSize shortPuts
    cases i <;> decide
  have hstart : ∀ i (c : Collection),
      (shortPuts i).step ['k'] c .start = some (c, .writing []) := by
    intro i c
    simp [Put.step, Put.docs, hshort i]
  have hrun : ∃ s : Race, s.pc true = .ended .written ∧ s.pc false = .ended .skipped ∧
      Relation.ReflTransGen (Race.Step shortPuts ['k'] (Race.Exclusive shortPuts ['k']))
        ⟨∅, fun _ => .start⟩ s := by
    refine ⟨_, ?_, ?_, .head ⟨.op true, nofun, Race.step_op (hstart true _)⟩ <|
      .head ⟨.op false, nofun, Race.step_op (hstart false _)⟩ <|
      .head ⟨.op true, nofun, Race.step_op rfl⟩ <|
      .head ⟨.op false, nofun, Race.step_op rfl⟩ .refl⟩
    · rfl
    · rfl
  obtain ⟨s, hwritten, hskipped, hrun⟩ := hrun
  obtain ⟨v, hv⟩ := untorn_of_exclusive rfl hfits hrun
  obtain ⟨rfl, -⟩ := hv.written (fun _ => rfl) true hwritten
  exact ⟨s, hwritten, hskipped, hv⟩

/-! ### Two values that are cut -/

theorem lookup_replaceAll_of_not_mem {docs : List (Key × KeyValueDocument)}
    (h : key ∉ docs.map Prod.fst) : (replaceAll collection docs).lookup key =
      collection.lookup key := by
  induction docs generalizing collection with
  | nil => rfl
  | cons doc docs ih =>
    rw [List.map_cons, List.mem_cons, not_or] at h
    exact (ih h.2).trans (AList.lookup_insert_ne h.1)

theorem lookup_replaceAll {docs : List (Key × KeyValueDocument)}
    (hnodup : (docs.map Prod.fst).Nodup) {doc : Key × KeyValueDocument} (h : doc ∈ docs) :
    (replaceAll collection docs).lookup doc.1 = some doc.2 := by
  induction docs generalizing collection with
  | nil => cases h
  | cons doc' docs ih =>
    rw [List.map_cons, List.nodup_cons] at hnodup
    rcases List.mem_cons.mp h with rfl | h
    · exact (lookup_replaceAll_of_not_mem hnodup.1).trans (AList.lookup_insert _)
    · exact ih hnodup.2 h

/-- A put may write its chunks without being interrupted. -/
theorem Race.run_chunks {docs : List (Key × KeyValueDocument)} (hpc : s.pc i = .writing docs) :
    Relation.ReflTransGen (Race.Step puts key fun _ _ => True) s
      ⟨replaceAll s.collection docs, Function.update s.pc i (.writing [])⟩ := by
  induction docs generalizing s with
  | nil =>
    have hself : Function.update s.pc i (.writing []) = s.pc := by
      rw [← hpc]
      exact Function.update_eq_self i s.pc
    rw [hself]
    exact .refl
  | cons doc docs ih =>
    have hop : (puts i).step key s.collection (s.pc i) =
        some (s.collection.insert doc.1 doc.2, .writing docs) := by
      rw [hpc]
      rfl
    refine .head ⟨.op i, trivial, Race.step_op hop⟩ ?_
    have hrest := ih
      (s := ⟨s.collection.insert doc.1 doc.2, Function.update s.pc i (.writing docs)⟩)
      (Function.update_self ..)
    simp only [Function.update_idem] at hrest
    exact hrest

theorem fits_longData (b : UInt8) : Fits (longData b) := by
  unfold Fits longData chunkSize
  rw [List.length_replicate, Nat.ceilDiv_eq_add_pred_div]
  decide

theorem mainDoc_longData (b b' : UInt8) : mainDoc (longData b) = mainDoc (longData b') := by
  have hlen : (longData b).length = (longData b').length := by
    unfold longData
    rw [List.length_replicate, List.length_replicate]
  rw [mainDoc, mainDoc, if_pos (isCut_longData b), if_pos (isCut_longData b'), hlen]

theorem longData_injective : Function.Injective longData := by
  intro b b' h
  unfold longData at h
  rw [List.replicate_succ, List.replicate_succ, List.cons.injEq] at h
  exact h.1

/-- Two puts of long values that are not to overwrite. -/
def longPuts (i : Bool) : Put := ⟨longData (if i then 0 else 1), .noClobber⟩

/-- Both puts find no value. The first one writes its value and reports that, and then the
second one writes its chunks over those of the first, before it is skipped. -/
theorem skipped_put_overwrites :
    ¬ ∀ (puts : Bool → Put) (key : Key) (collection : Collection) (prior : Option Bytes)
      (s : Race), get collection key = .ok prior →
      Relation.ReflTransGen (Race.Step puts key fun _ _ => True) ⟨collection, fun _ => .start⟩ s →
      ∃ v, Whole puts key prior v s := by
  intro h
  have hdocs : ∀ i, (longPuts i).docs ['k'] = chunkDocs ['k'] (longPuts i).data :=
    fun i => if_pos (isCut_longData _)
  have hnot : ∀ i, ['k'] ∉ ((longPuts i).docs ['k']).map Prod.fst := by
    rintro i hmem
    obtain ⟨doc, hdoc, heq⟩ := List.mem_map.mp hmem
    exact mem_docs hdoc heq.symm
  have hstart : ∀ i, (longPuts i).step ['k'] ∅ .start =
      some (∅, .writing ((longPuts i).docs ['k'])) := by
    intro i
    rw [Put.step, if_neg]
    rintro ⟨-, -, hthere⟩
    cases hthere
  let s₁ : Race :=
    ⟨∅, Function.update (fun _ => .start) true (.writing ((longPuts true).docs ['k']))⟩
  let s₂ : Race := ⟨∅, Function.update s₁.pc false (.writing ((longPuts false).docs ['k']))⟩
  let s₃ : Race := ⟨replaceAll ∅ ((longPuts true).docs ['k']),
    Function.update s₂.pc true (.writing [])⟩
  let s₄ : Race := ⟨s₃.collection.insert ['k'] (mainDoc (longPuts true).data),
    Function.update s₃.pc true (.ended .written)⟩
  let s₅ : Race := ⟨replaceAll s₄.collection ((longPuts false).docs ['k']),
    Function.update s₄.pc false (.writing [])⟩
  have hmain : (longPuts true).step ['k'] s₃.collection (s₃.pc true) =
      some (s₄.collection, .ended .written) := by
    have hfree : isThere s₃.collection ['k'] = false := by
      rw [isThere, lookup_replaceAll_of_not_mem (hnot true)]
      rfl
    show (if isThere s₃.collection ['k'] = true then _ else _) = _
    rw [hfree]
    rfl
  have hrun : Relation.ReflTransGen (Race.Step longPuts ['k'] fun _ _ => True)
      ⟨∅, fun _ => .start⟩ s₅ :=
    .head ⟨.op true, trivial, Race.step_op (hstart true)⟩ <|
    .head ⟨.op false, trivial, Race.step_op (hstart false)⟩ <|
    (Race.run_chunks (s := s₂) (i := true) rfl).trans <|
    .head ⟨.op true, trivial, Race.step_op hmain⟩ <|
    Race.run_chunks (s := s₄) (i := false) rfl
  -- What is read is the second value, from its own chunks.
  have hget : get s₅.collection ['k'] = .ok (some (longData 1)) := by
    refine get_of_chunks (isCut_longData 1) (fits_longData 1) ?_ fun doc hdoc => ?_
    · rw [lookup_replaceAll_of_not_mem (hnot false)]
      exact (AList.lookup_insert _).trans (congrArg some (mainDoc_longData 0 1))
    · refine lookup_replaceAll (nodup_docs (fits_longData 1)) ?_
      rw [hdocs false]
      exact hdoc
  obtain ⟨v, hv⟩ := h longPuts ['k'] ∅ none s₅ rfl hrun
  obtain ⟨hvalue, -⟩ := hv.written (fun _ => rfl) true rfl
  have hread := hv.get
  rw [hget, hvalue, Except.ok.injEq, Option.some.injEq] at hread
  exact absurd (longData_injective hread) (by decide)

end Mongo

end Archive

end MonadServices
