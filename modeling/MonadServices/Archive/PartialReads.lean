import MonadServices.Archive.ScannerSafe
import MonadServices.Archive.TxIndex

/-!
# Reading a part of an index record

A record of the index is read as a whole, or only its transaction, its receipt or its trace is.
Each of these goes its own way in each of the three versions of a record, and looks only at those
parts of the archive that it needs.

A part that is read alone is the same as in the record as a whole, and what is not there is an
error. The one exception is the transaction of a record of the first version: it is taken out of
the archived block **without a look at the length of the block**, and with the sender that is
archived there, where the record as a whole recovers the sender from the signature. All other
reads are as they should be (`MonadServices.Archive.partialReads_iff`).
-/

namespace MonadServices

namespace Archive

variable {alloy : Alloy} {α : Type}

/-! ### Reading the archive is safe -/

section Returns

variable {x : Except Fault α}

theorem returns_mapError {m : String} (h : Returns x) : Returns (wrapErr m x) := by
  intro f hf
  cases x with
  | ok a => cases hf
  | error g =>
    obtain ⟨m', rfl⟩ := h g rfl
    cases hf
    exact ⟨m, rfl⟩

theorem returns_found (value : Option Bytes) (missing : String) :
    Returns (found value missing) := by
  cases value with
  | none => exact returns_error missing
  | some bytes => exact returns_ok bytes

theorem returns_elim (o : Option α) (m : String) :
    Returns (o.elim (.error (.error m)) .ok : Except Fault α) := by
  cases o with
  | none => exact returns_error m
  | some a => exact returns_ok a

theorem elim_eq_ok {o : Option α} {fault : Fault} {a : α} :
    (o.elim (.error fault) .ok : Except Fault α) = .ok a ↔ o = some a := by
  cases o with
  | none => simp
  | some b => simp

theorem returns_dispatch {ρ : Type} (sentinel : UInt8) (arms : UInt8 → Option (Bytes → Option ρ))
    (raw : Bytes → Option ρ) (tooShort : ℕ → String) (buf : Bytes) :
    Returns (dispatch sentinel arms raw tooShort buf) := by
  unfold dispatch
  split
  · dsimp only
    split
    · exact returns_ok _
    · exact returns_elim _ _
  · exact returns_error _

theorem returns_recover (tx : alloy.TxEnvelope) : Returns (BlockStorageRepr.recover tx) := by
  unfold BlockStorageRepr.recover
  split
  · exact returns_ok _
  · exact returns_error _

theorem returns_mapM {β : Type} {f : α → Except Fault β} (hf : ∀ a, Returns (f a)) (l : List α) :
    Returns (l.mapM f) := by
  induction l with
  | nil => exact returns_ok []
  | cons a l ih =>
    rw [List.mapM_cons]
    exact (hf a).bind fun b _ => ih.bind fun bs _ => returns_ok (b :: bs)

theorem returns_convertBlock (block : BlockStorageRepr alloy) : Returns block.convert := by
  cases block with
  | v0 block => exact (returns_mapM returns_recover _).bind fun _ _ => returns_ok _
  | v1 block => exact returns_ok _
  | v2 block => exact returns_ok _

variable (archive : ArchiveKey → Option Bytes) (n : UInt64)

theorem returns_getBlockByNumber :
    Returns (getBlockByNumber archive n : Except Fault alloy.Block) :=
  (returns_found _ _).bind fun _ _ => returns_mapError <|
    (returns_dispatch _ _ _ _ _).bind fun block _ => returns_convertBlock block

theorem returns_getBlockReceipts :
    Returns (getBlockReceipts archive n : Except Fault (List alloy.Receipt)) := by
  refine (returns_found _ _).bind fun bytes _ => returns_mapError ?_
  unfold ReceiptStorageRepr.decodeAndConvert
  split
  · exact returns_ok []
  · intro f hf
    cases hdecode : (ReceiptStorageRepr.decode bytes : Except Fault (ReceiptStorageRepr alloy)) with
    | ok r =>
      rw [hdecode] at hf
      cases hf
    | error fault =>
      rw [hdecode] at hf
      cases hf
      exact returns_dispatch _ _ _ _ _ _ hdecode

theorem returns_getBlockTraces : Returns (getBlockTraces archive alloy n) :=
  (returns_found _ _).bind fun _ _ => returns_elim _ _

end Returns

section Lists

variable {l : List α} {idx : ℕ}

theorem returns_ensureLen (l : List α) (idx : ℕ) (message : String) :
    Returns (ensureLen l idx message) := by
  unfold ensureLen
  split
  · exact returns_ok ()
  · exact returns_error message

theorem lt_of_ensureLen {message : String} {u : Unit} (h : ensureLen l idx message = .ok u) :
    idx < l.length := by
  unfold ensureLen at h
  split at h
  · assumption
  · cases h

/-- An element is taken out safely if and only if it is there. -/
theorem returns_swapRemove_iff : Returns (swapRemove l idx) ↔ idx < l.length := by
  constructor
  · intro h
    by_contra hlt
    refine not_returns_outOfBounds ?_ h
    rw [swapRemove, List.getElem?_eq_none (Nat.le_of_not_lt hlt)]
    rfl
  · intro h
    rw [swapRemove, List.getElem?_eq_getElem h]
    exact returns_ok _

theorem swapRemove_eq_ok {a : α} : swapRemove l idx = .ok a ↔ l[idx]? = some a :=
  elim_eq_ok

theorem ensureLen_of_swapRemove {a : α} (h : swapRemove l idx = .ok a) (message : String) :
    ensureLen l idx message = .ok () :=
  ensureLen_eq (swapRemove_eq_ok.mp h) message

/-- An element that was looked for is taken out. -/
theorem returns_ensured {β : Type} {message : String} {g : α → Except Fault β}
    (hg : ∀ a, Returns (g a)) :
    Returns (ensureLen l idx message >>= fun _ => swapRemove l idx >>= g) :=
  (returns_ensureLen l idx message).bind fun _ h =>
    (returns_swapRemove_iff.mpr (lt_of_ensureLen h)).bind fun a _ => hg a

end Lists

/-! ### The parts of a record -/

section Parts

variable (archive : ArchiveKey → Option Bytes)

/-- The transaction and the trace in an inline record are those at its place in the archived
block. A record of the first version does not say who the sender is. -/
def SameAsArchived : IndexDataStorageRepr alloy → Prop
  | .inlineV0 data => ∃ (block : alloy.Block) (traces : List Bytes) (tx : alloy.Tx),
      getBlockByNumber archive data.headerSubset.blockNumber = .ok block ∧
      getBlockTraces archive alloy data.headerSubset.blockNumber = .ok traces ∧
      block.transactions[data.headerSubset.txIndex.toNat]? = some tx ∧ tx.tx = data.tx ∧
      traces[data.headerSubset.txIndex.toNat]? = some data.trace
  | .inlineV1 data => ∃ (block : alloy.Block) (traces : List Bytes),
      getBlockByNumber archive data.headerSubset.blockNumber = .ok block ∧
      getBlockTraces archive alloy data.headerSubset.blockNumber = .ok traces ∧
      block.transactions[data.headerSubset.txIndex.toNat]? = some data.tx ∧
      traces[data.headerSubset.txIndex.toNat]? = some data.trace
  | .referenceV0 _ => True

/-- **The parts of a record are read alone as they are in the whole record**, and none of the reads
panics. -/
structure PartialReads (repr : IndexDataStorageRepr alloy) : Prop where
  agree : SameAsArchived archive repr → ∀ data, repr.convert archive = .ok data →
    repr.getTx archive = .ok (data.tx, data.headerSubset) ∧
    repr.getReceipt archive = .ok (data.receipt, data.headerSubset) ∧
    repr.getTrace archive = .ok (data.trace, data.headerSubset)
  convert : Returns (repr.convert archive)
  tx : Returns (repr.getTx archive)
  receipt : Returns (repr.getReceipt archive)
  trace : Returns (repr.getTrace archive)

/-- A record of the first version has its place in the archived block, and if the block has its
transaction and its trace there, and there is a receipt, then also its sender. -/
structure InlineV0.Placed (data : InlineV0 alloy) : Prop where
  inBlock : ∀ block : alloy.Block,
    getBlockByNumber archive data.headerSubset.blockNumber = .ok block →
      data.headerSubset.txIndex.toNat < block.transactions.length
  sender : ∀ (block : alloy.Block) (tx : alloy.Tx),
    getBlockByNumber archive data.headerSubset.blockNumber = .ok block →
    block.transactions[data.headerSubset.txIndex.toNat]? = some tx → tx.tx = data.tx →
    ∀ traces, getBlockTraces archive alloy data.headerSubset.blockNumber = .ok traces →
    traces[data.headerSubset.txIndex.toNat]? = some data.trace →
    ∀ receipts : List alloy.Receipt,
      getBlockReceipts archive data.headerSubset.blockNumber = .ok receipts →
    data.headerSubset.txIndex.toNat < receipts.length →
    ∀ sender, alloy.recoverSigner data.tx = some sender → tx.sender = sender

/-- The condition on a record. -/
def Placed : IndexDataStorageRepr alloy → Prop
  | .inlineV0 data => data.Placed archive
  | _ => True

variable {archive}

theorem recover_eq_ok {tx : alloy.TxEnvelope} {tx' : alloy.Tx} :
    BlockStorageRepr.recover tx = .ok tx' ↔
      ∃ sender, alloy.recoverSigner tx = some sender ∧ tx' = ⟨sender, tx⟩ := by
  unfold BlockStorageRepr.recover
  cases alloy.recoverSigner tx with
  | none => simp
  | some sender => simp [eq_comm]

/-- The record as a whole, in its first version. -/
theorem convert_inlineV0_eq_ok {data : InlineV0 alloy} {whole : TxIndexedData alloy} :
    IndexDataStorageRepr.convert archive (.inlineV0 data) = .ok whole ↔
      ∃ (block : alloy.Block) (receipts : List alloy.Receipt) (sender : Address)
        (receipt : alloy.Receipt),
        getBlockByNumber archive data.headerSubset.blockNumber = .ok block ∧
        getBlockReceipts archive data.headerSubset.blockNumber = .ok receipts ∧
        alloy.recoverSigner data.tx = some sender ∧
        receipts[data.headerSubset.txIndex.toNat]? = some receipt ∧
        whole = ⟨⟨sender, data.tx⟩, data.trace, receipt,
          data.headerSubset.convert (alloy.timestamp block.header)⟩ := by
  rw [IndexDataStorageRepr.convert]
  constructor
  · intro h
    obtain ⟨block, hblock, h⟩ := bind_eq_ok.mp h
    obtain ⟨receipts, hreceipts, h⟩ := bind_eq_ok.mp h
    obtain ⟨tx, htx, h⟩ := bind_eq_ok.mp h
    obtain ⟨receipt, hreceipt, h⟩ := bind_eq_ok.mp h
    obtain ⟨sender, hsender, rfl⟩ := recover_eq_ok.mp htx
    cases h
    exact ⟨block, receipts, sender, receipt, hblock, hreceipts, hsender, elim_eq_ok.mp hreceipt,
      rfl⟩
  · rintro ⟨block, receipts, sender, receipt, hblock, hreceipts, hsender, hreceipt, rfl⟩
    rw [hblock, ok_bind, hreceipts, ok_bind, recover_eq_ok.mpr ⟨sender, hsender, rfl⟩, ok_bind,
      hreceipt]
    rfl

/-- The transaction alone, in the first version of a record. -/
theorem getTx_inlineV0_eq_ok {data : InlineV0 alloy} {block : alloy.Block} {tx : alloy.Tx}
    (hblock : getBlockByNumber archive data.headerSubset.blockNumber = .ok block)
    (htx : block.transactions[data.headerSubset.txIndex.toNat]? = some tx) :
    IndexDataStorageRepr.getTx archive (.inlineV0 data) =
      .ok (tx, data.headerSubset.convert (alloy.timestamp block.header)) := by
  rw [IndexDataStorageRepr.getTx, hblock, ok_bind, swapRemove_eq htx]
  rfl

/-- The transaction is taken out of a block that is too short. -/
theorem lt_of_returns_getTx {data : InlineV0 alloy} {block : alloy.Block}
    (hblock : getBlockByNumber archive data.headerSubset.blockNumber = .ok block)
    (h : Returns (IndexDataStorageRepr.getTx archive (.inlineV0 data))) :
    data.headerSubset.txIndex.toNat < block.transactions.length := by
  rw [IndexDataStorageRepr.getTx, hblock, ok_bind] at h
  exact returns_swapRemove_iff.mp h.of_bind

/-- **A whole record has the parts that are read alone.** -/
theorem parts_agree {repr : IndexDataStorageRepr alloy} {whole : TxIndexedData alloy}
    (hplaced : Placed archive repr) (hsame : SameAsArchived archive repr)
    (h : repr.convert archive = .ok whole) :
    repr.getTx archive = .ok (whole.tx, whole.headerSubset) ∧
    repr.getReceipt archive = .ok (whole.receipt, whole.headerSubset) ∧
    repr.getTrace archive = .ok (whole.trace, whole.headerSubset) := by
  cases repr with
  | inlineV0 data =>
    obtain ⟨block, traces, tx, hblock, htraces, htx, hsameTx, htrace⟩ := hsame
    refine ⟨?_, ?_, ?_⟩
    · obtain ⟨block', receipts, sender, receipt, hblock', hreceipts, hsender, hreceipt, rfl⟩ :=
        convert_inlineV0_eq_ok.mp h
      cases hblock.symm.trans hblock'
      have hlen := (List.getElem?_eq_some_iff.mp hreceipt).1
      have hsigned := hplaced.sender block tx hblock htx hsameTx traces htraces htrace receipts
        hreceipts hlen sender hsender
      obtain ⟨archived, envelope⟩ := tx
      cases hsameTx
      cases hsigned
      exact getTx_inlineV0_eq_ok hblock htx
    · rw [IndexDataStorageRepr.getReceipt, h]
      rfl
    · obtain ⟨block', receipts, sender, receipt, hblock', hreceipts, hsender, hreceipt, rfl⟩ :=
        convert_inlineV0_eq_ok.mp h
      rw [IndexDataStorageRepr.getTrace, hblock']
      rfl
  | inlineV1 data =>
    cases h
    exact ⟨rfl, rfl, rfl⟩
  | referenceV0 reference =>
    rw [IndexDataStorageRepr.convert] at h
    obtain ⟨block, hblock, h⟩ := bind_eq_ok.mp h
    obtain ⟨receipts, hreceipts, h⟩ := bind_eq_ok.mp h
    obtain ⟨traces, htraces, h⟩ := bind_eq_ok.mp h
    obtain ⟨-, -, h⟩ := bind_eq_ok.mp h
    obtain ⟨-, -, h⟩ := bind_eq_ok.mp h
    obtain ⟨-, -, h⟩ := bind_eq_ok.mp h
    obtain ⟨tx, htx, h⟩ := bind_eq_ok.mp h
    obtain ⟨trace, htrace, h⟩ := bind_eq_ok.mp h
    obtain ⟨receipt, hreceipt, h⟩ := bind_eq_ok.mp h
    cases h
    refine ⟨?_, ?_, ?_⟩
    · exact bind_eq_ok.mpr ⟨block, hblock, bind_eq_ok.mpr ⟨(), ensureLen_of_swapRemove htx _,
        bind_eq_ok.mpr ⟨tx, htx, rfl⟩⟩⟩
    · exact bind_eq_ok.mpr ⟨receipts, hreceipts, bind_eq_ok.mpr
        ⟨(), ensureLen_of_swapRemove hreceipt _, bind_eq_ok.mpr ⟨receipt, hreceipt, rfl⟩⟩⟩
    · exact bind_eq_ok.mpr ⟨traces, htraces, bind_eq_ok.mpr ⟨(), ensureLen_of_swapRemove htrace _,
        bind_eq_ok.mpr ⟨trace, htrace, rfl⟩⟩⟩

theorem returns_convert (repr : IndexDataStorageRepr alloy) : Returns (repr.convert archive) := by
  cases repr with
  | inlineV0 data =>
    exact (returns_getBlockByNumber archive _).bind fun block _ =>
      (returns_getBlockReceipts archive _).bind fun receipts _ =>
      (returns_recover data.tx).bind fun tx _ =>
      (returns_elim _ _).bind fun receipt _ => returns_ok _
  | inlineV1 data => exact returns_ok data
  | referenceV0 reference =>
    exact (returns_getBlockByNumber archive _).bind fun block _ =>
      (returns_getBlockReceipts archive _).bind fun receipts _ =>
      (returns_getBlockTraces archive _).bind fun traces _ =>
      (returns_ensureLen block.transactions _ _).bind fun _ htx =>
      (returns_ensureLen traces _ _).bind fun _ htrace =>
      (returns_ensureLen receipts _ _).bind fun _ hreceipt =>
      (returns_swapRemove_iff.mpr (lt_of_ensureLen htx)).bind fun tx _ =>
      (returns_swapRemove_iff.mpr (lt_of_ensureLen htrace)).bind fun trace _ =>
      (returns_swapRemove_iff.mpr (lt_of_ensureLen hreceipt)).bind fun receipt _ => returns_ok _

theorem returns_getTrace (repr : IndexDataStorageRepr alloy) :
    Returns (repr.getTrace archive) := by
  cases repr with
  | inlineV0 data => exact (returns_getBlockByNumber archive _).bind fun block _ => returns_ok _
  | inlineV1 data => exact returns_ok _
  | referenceV0 reference =>
    exact (returns_getBlockTraces archive _).bind fun traces _ =>
      returns_ensured fun trace => returns_ok _

theorem returns_getReceipt (repr : IndexDataStorageRepr alloy) :
    Returns (repr.getReceipt archive) := by
  cases repr with
  | inlineV0 data => exact (returns_convert (.inlineV0 data)).bind fun latest _ => returns_ok _
  | inlineV1 data => exact returns_ok _
  | referenceV0 reference =>
    exact (returns_getBlockReceipts archive _).bind fun receipts _ =>
      returns_ensured fun receipt => returns_ok _

theorem returns_getTx {repr : IndexDataStorageRepr alloy} (h : Placed archive repr) :
    Returns (repr.getTx archive) := by
  cases repr with
  | inlineV0 data =>
    exact (returns_getBlockByNumber archive _).bind fun block hblock =>
      (returns_swapRemove_iff.mpr (h.inBlock block hblock)).bind fun tx _ => returns_ok _
  | inlineV1 data => exact returns_ok _
  | referenceV0 reference =>
    exact (returns_getBlockByNumber archive _).bind fun block _ =>
      returns_ensured fun tx => returns_ok _

/-- **When the parts of a record are read right**: unless it is of the first version, and the
archived block has no transaction at its place or has another sender there. -/
theorem partialReads_iff (archive : ArchiveKey → Option Bytes)
    (repr : IndexDataStorageRepr alloy) : PartialReads archive repr ↔ Placed archive repr := by
  constructor
  · intro h
    cases repr with
    | inlineV0 data =>
      refine ⟨fun block hblock => ?_, fun block tx hblock htx hsameTx traces htraces htrace receipts
        hreceipts hlen sender hsender => ?_⟩
      · exact lt_of_returns_getTx hblock h.tx
      · -- The whole record has the sender that was recovered, the part the one that is archived.
        have hwhole := convert_inlineV0_eq_ok.mpr ⟨block, receipts, sender, _, hblock, hreceipts,
          hsender, List.getElem?_eq_getElem hlen, rfl⟩
        obtain ⟨hpart, -, -⟩ := h.agree ⟨block, traces, tx, hblock, htraces, htx, hsameTx, htrace⟩ _
          hwhole
        rw [getTx_inlineV0_eq_ok hblock htx, Except.ok.injEq, Prod.mk.injEq] at hpart
        rw [hpart.1]
    | inlineV1 data => trivial
    | referenceV0 reference => trivial
  · intro h
    exact ⟨fun hsame whole hwhole => parts_agree h hsame hwhole, returns_convert repr,
      returns_getTx h, returns_getReceipt repr, returns_getTrace repr⟩

end Parts

/-- A record of the first version, at a given place of the sample block. -/
def inlineAt (txIndex : UInt64) : IndexDataStorageRepr Alloy.sample :=
  .inlineV0 ⟨(5 : UInt64), [], (63000 : UInt64), ⟨Alloy.sample.hashSlow sampleBlock.header,
    Alloy.sample.number sampleBlock.header, txIndex, 42000, some 7⟩⟩

/-- The transaction of a record whose place is behind the end of its block. -/
theorem not_partialReads :
    ¬ ∀ (alloy : Alloy) (archive : ArchiveKey → Option Bytes) (repr : IndexDataStorageRepr alloy),
      PartialReads archive repr := by
  intro h
  have hholds : Holds (archiveAll (fun _ => none) sampleBlock indexedReceipts [[1, 2], []]
      .noClobber) (Alloy.sample.number sampleBlock.header) (.marked (.v1 sampleBlock))
      (.marked (.v1 indexedReceipts)) [[1, 2], []] :=
    holds_archiveAll indexedReceipts [[1, 2], []] fun _ => ⟨rfl, rfl, rfl⟩
  have hlt := lt_of_returns_getTx (getBlockByNumber_of_holds hholds (by decide))
    (h Alloy.sample _ (inlineAt 2)).tx
  exact absurd hlt (by decide)

end Archive

end MonadServices
