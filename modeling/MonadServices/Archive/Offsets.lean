import MonadServices.Archive.BlockRepr

/-!
# Offsets and versions

The offsets of a stored block are found in its bytes without the marker, and the block is
decoded from the bytes with it. The two agree (`MonadServices.Archive.OffsetsAgree`) when
the bytes at the offsets of each transaction, decoded in the coding of the version, are the
transaction that the decoder found at that place, and the same for the receipts.

They do agree in every version that both readers of the marker know. A block of the third
version is scanned with its marker: the two marker bytes are taken for the header and for
the list of transactions, and the only offset found points at a single byte.
-/

namespace MonadServices

namespace Archive

open Rlp (encode encodeAll)

variable {alloy : Alloy}

/-! ### The items of a stored block -/

namespace BlockStorageRepr

/-- The items of the transactions. -/
def txItems : BlockStorageRepr alloy → List Rlp
  | .v0 block => block.transactions.map alloy.txEnvelope.toRlp
  | .v1 block => block.transactions.map alloy.txWithSender.toRlp
  | .v2 block => block.transactions.map alloy.txWithSender.toRlp

/-- These bytes are those of a transaction, in the coding of the version. -/
def TxAt : BlockStorageRepr alloy → Bytes → alloy.Tx → Prop
  | .v0 _, bs, tx => alloy.txEnvelope.decode bs = some tx.tx
  | .v1 _, bs, tx => alloy.txWithSender.decode bs = some tx
  | .v2 _, bs, tx => alloy.txWithSender.decode bs = some tx

theorem payload_items (r : BlockStorageRepr alloy) :
    ∃ header rest, r.payload = Rlp.encode (.list (header :: .list r.txItems :: rest)) := by
  cases r <;> exact ⟨_, _, rfl⟩

end BlockStorageRepr

namespace ReceiptStorageRepr

/-- The items of the receipts. -/
def items : ReceiptStorageRepr alloy → List Rlp
  | .v0 receipts => receipts.map alloy.receiptEnvelope.toRlp
  | .v1 receipts => receipts.map alloy.receiptWithLogIndex.toRlp

/-- These bytes are those of a receipt, in the coding of the version. -/
def ReceiptAt : ReceiptStorageRepr alloy → Bytes → alloy.Receipt → Prop
  | .v0 _, bs, receipt => alloy.receiptEnvelope.decode bs = some receipt.receipt
  | .v1 _, bs, receipt => alloy.receiptWithLogIndex.decode bs = some receipt

theorem payload_items (r : ReceiptStorageRepr alloy) :
    r.payload = Rlp.encode (.list r.items) := by
  cases r <;> rfl

end ReceiptStorageRepr

theorem length_encode_le {x : Rlp} {xs : List Rlp} (h : x ∈ xs) :
    (encode x).length ≤ (encodeAll xs).length := by
  induction xs with
  | nil => simp at h
  | cons y ys ih =>
    rw [Rlp.encodeAll_cons, List.length_append]
    rcases List.mem_cons.mp h with rfl | h
    · omega
    · exact (ih h).trans (Nat.le_add_left _ _)

/-- The values of a coded list, one by one. -/
theorem decode_items {α : Type} (c : RlpCodec α) {as : List α}
    (h64 : (encodeAll (as.map c.toRlp)).length < 2 ^ 64) :
    ∀ a ∈ as, c.decode (encode (c.toRlp a)) = some a := fun a ha =>
  c.decode_encode_self a ((length_encode_le (List.mem_map_of_mem ha)).trans_lt h64)

/-- **Each transaction of a block is at its item.** -/
theorem txAt_items {r : BlockStorageRepr alloy} {block : alloy.Block}
    (h64 : (encodeAll r.txItems).length < 2 ^ 64) (h : r.convert = .ok block) :
    List.Forall₂ (fun x tx => r.TxAt (encode x) tx) r.txItems block.transactions := by
  cases r with
  | v0 b =>
    obtain ⟨txs, htxs, h⟩ := bind_eq_ok.mp h
    obtain rfl := Except.ok.inj h
    rw [mapM_eq_ok] at htxs
    rw [BlockStorageRepr.txItems, List.forall₂_map_left_iff]
    have hdecode := decode_items alloy.txEnvelope h64
    refine forall₂_imp_of_mem (fun tx htx tx' hrec => ?_) htxs
    -- The sender is added to the transaction.
    have htx' : tx'.tx = tx := by
      unfold BlockStorageRepr.recover at hrec
      split at hrec
      · rw [← Except.ok.inj hrec]
      · cases hrec
    rw [BlockStorageRepr.TxAt, htx']
    exact hdecode tx htx
  | v1 b =>
    obtain rfl := Except.ok.inj h
    rw [BlockStorageRepr.txItems, List.forall₂_map_left_iff, List.forall₂_same]
    exact decode_items alloy.txWithSender h64
  | v2 b =>
    obtain rfl := Except.ok.inj h
    rw [BlockStorageRepr.txItems, List.forall₂_map_left_iff, List.forall₂_same]
    exact decode_items alloy.txWithSender h64

theorem forall₂_withLogIndex {R : alloy.ReceiptEnvelope → alloy.Receipt → Prop} (n : ℕ)
    {receipts : List alloy.ReceiptEnvelope} (h : ∀ r ∈ receipts, ∀ i, R r ⟨r, i⟩) :
    List.Forall₂ R receipts (ReceiptStorageRepr.withLogIndex n receipts) := by
  induction receipts generalizing n with
  | nil => exact .nil
  | cons receipt receipts ih =>
    rw [List.forall_mem_cons] at h
    exact .cons (h.1 _) (ih _ h.2)

/-- **Each receipt is at its item.** -/
theorem receiptAt_items {r : ReceiptStorageRepr alloy}
    (h64 : (encodeAll r.items).length < 2 ^ 64) :
    List.Forall₂ (fun x receipt => r.ReceiptAt (encode x) receipt) r.items r.convert := by
  cases r with
  | v0 receipts =>
    rw [ReceiptStorageRepr.items, List.forall₂_map_left_iff]
    have hdecode := decode_items alloy.receiptEnvelope h64
    exact forall₂_withLogIndex 0 fun receipt hr i => hdecode receipt hr
  | v1 receipts =>
    rw [ReceiptStorageRepr.items, List.forall₂_map_left_iff]
    exact List.forall₂_same.mpr (decode_items alloy.receiptWithLogIndex h64)

/-! ### Agreement -/

/-- What is in the store for a block. -/
structure Holds (store : ArchiveKey → Option Bytes) (n : UInt64) (block : StoredBlock alloy)
    (receipts : StoredReceipts alloy) (traces : List Bytes) : Prop where
  block : store (.block n) = some block.bytes
  receipts : store (.receipts n) = some receipts.bytes
  traces : store (.traces n) = some (alloy.trace.vec.encode traces)

/-- **The offsets agree with the decoded block.** -/
def OffsetsAgree (store : ArchiveKey → Option Bytes) (n : UInt64) (block : StoredBlock alloy)
    (receipts : StoredReceipts alloy) : Prop :=
  ∃ data offsets, getBlockDataWithOffsets store n = .ok data ∧ data.offsets = some offsets ∧
    block.repr.convert = .ok data.block ∧ receipts.repr.convert = data.receipts ∧
    List.Forall₂ (fun o tx => block.repr.TxAt (o.tx.bytes block.repr.payload) tx) offsets
      data.block.transactions ∧
    List.Forall₂ (fun o receipt =>
      receipts.repr.ReceiptAt (o.receipt.bytes receipts.repr.payload) receipt) offsets
      data.receipts

section Agreement

variable {store : ArchiveKey → Option Bytes} {n : UInt64} {block : StoredBlock alloy}
  {receipts : StoredReceipts alloy} {traces : List Bytes} {decoded : alloy.Block}

/-- The archive returns what it decodes, with the offsets the scanner finds. -/
theorem getBlockDataWithOffsets_eq (h : Holds store n block receipts traces)
    (hconvert : block.repr.convert = .ok decoded)
    (hblock : block.repr.payload.length < 2 ^ 64)
    (hreceipts : receipts.repr.payload.length < 2 ^ 64)
    (htraces : (alloy.trace.vec.encode traces).length < 2 ^ 64) :
    getBlockDataWithOffsets store n =
      (getAllTxOffsets (BlockStorageRepr.rlpListSlice block.bytes) receipts.repr.payload
        (alloy.trace.vec.encode traces)).map
          fun offsets => ⟨decoded, receipts.repr.convert, traces, some offsets⟩ := by
  have hdecode : BlockStorageRepr.decodeAndConvert block.bytes = .ok decoded := by
    rw [BlockStorageRepr.decodeAndConvert, block.decode_bytes hblock]
    exact hconvert
  rw [getBlockDataWithOffsets, h.block, h.receipts, h.traces]
  simp only [found, Option.elim, bind, Except.bind]
  rw [hdecode, receipts.decodeAndConvert_bytes hreceipts, receipts.rlpListSlice_bytes hreceipts,
    alloy.trace.vec.decode_encode_self traces htraces]
  cases getAllTxOffsets (BlockStorageRepr.rlpListSlice block.bytes) receipts.repr.payload
    (alloy.trace.vec.encode traces) <;> rfl

/-- In the versions that are known in both places, the offsets agree. -/
theorem offsetsAgree_of_ne (h : Holds store n block receipts traces)
    (hconvert : block.repr.convert = .ok decoded)
    (hr : receipts.repr.items.length = block.repr.txItems.length)
    (ht : traces.length = block.repr.txItems.length)
    (hblock : block.repr.payload.length < 2 ^ 63)
    (hreceipts : receipts.repr.payload.length < 2 ^ 63)
    (htraces : (alloy.trace.vec.encode traces).length < 2 ^ 63)
    (hne : ∀ b, block ≠ .marked (.v2 b)) : OffsetsAgree store n block receipts := by
  obtain ⟨header, rest, hpayload⟩ := block.repr.payload_items
  have hitems := receipts.repr.payload_items
  have hslice := block.rlpListSlice_bytes (by omega) hne
  have hdata := getBlockDataWithOffsets_eq h hconvert (by omega) (by omega) (by omega)
  rw [hpayload] at hblock
  rw [hitems] at hreceipts
  obtain ⟨offsets, hoffsets, htx, hreceipt, -⟩ := getAllTxOffsets_encode header
    block.repr.txItems rest receipts.repr.items (traces.map alloy.trace.toRlp) hr
    (by rw [List.length_map]; exact ht) hblock hreceipts htraces
  refine ⟨⟨decoded, receipts.repr.convert, traces, some offsets⟩, offsets, ?_, rfl, hconvert, rfl,
    ?_, ?_⟩
  · rw [hdata, hslice, hpayload, hitems]
    show Except.map _ (getAllTxOffsets _ _ (encode (.list (traces.map alloy.trace.toRlp)))) = _
    rw [hoffsets]
    rfl
  · have hbytes := map_bytes htx (encodeAll rest)
    rw [← encode_block, ← hpayload] at hbytes
    have hsize : (encodeAll block.repr.txItems).length < 2 ^ 64 := by
      rw [encode_block, List.length_append, List.length_append, length_encode_list] at hblock
      omega
    have hat := txAt_items hsize hconvert
    rw [← List.forall₂_map_left_iff (f := encode) (R := block.repr.TxAt), ← hbytes,
      List.forall₂_map_left_iff] at hat
    exact hat
  · have hbytes := map_bytes_list hreceipt
    rw [← hitems] at hbytes
    have hsize : (encodeAll receipts.repr.items).length < 2 ^ 64 := by
      rw [length_encode_list] at hreceipts
      omega
    have hat := receiptAt_items hsize
    rw [← List.forall₂_map_left_iff (f := encode) (R := receipts.repr.ReceiptAt), ← hbytes,
      List.forall₂_map_left_iff] at hat
    exact hat

/-! ### The version the scanner does not know -/

/-- A block of the third version, with its marker, shows the scanner a single transaction. -/
theorem tx_getAllTxOffsets_v2 {payload receipts traces : Bytes} {offsets : List TxByteOffsets}
    (h : getAllTxOffsets (marked BlockStorageRepr.sentinel BlockStorageRepr.v2Marker payload)
      receipts traces = .ok offsets) : offsets.map (·.tx) = [⟨1, 2⟩] := by
  have hhead : ∀ p < 2, decodeLength
      (marked BlockStorageRepr.sentinel BlockStorageRepr.v2Marker payload) p = .ok (1, 1) := by
    intro p hp
    have hext : Rlp.extent ((marked BlockStorageRepr.sentinel BlockStorageRepr.v2Marker
        payload).drop p) = some (1, 1) := by
      interval_cases p <;> rfl
    rw [decodeLength_of_extent hext]
    rfl
  have hskip : skipHeader (marked BlockStorageRepr.sentinel BlockStorageRepr.v2Marker payload) =
      .ok 1 := by
    rw [skipHeader, hhead 0 (by decide)]
    simp only [bind, Except.bind, show sub 1 1 = .ok 0 from rfl, show add 0 0 = .ok 0 from rfl]
    rw [hhead 0 (by decide)]
    rfl
  have hslice : slice (marked BlockStorageRepr.sentinel BlockStorageRepr.v2Marker payload) 1 2 =
      .ok [BlockStorageRepr.v2Marker] := if_pos ⟨by decide, Nat.le_add_left 2 payload.length⟩
  have hranges : getRlpListRanges [BlockStorageRepr.v2Marker] = .ok [⟨0, 1⟩] := by decide
  rw [getAllTxOffsets, hskip] at h
  simp only [bind, Except.bind] at h
  rw [hhead 1 (by decide)] at h
  simp only [show add 1 1 = .ok 2 from rfl, hslice, hranges] at h
  obtain ⟨rr, -, h⟩ := bind_eq_ok.mp h
  obtain ⟨tt, -, h⟩ := bind_eq_ok.mp h
  have hshift : [(⟨0, 1⟩ : RangeRlp)].mapM (shift 1) = .ok [⟨1, 2⟩] := rfl
  simp only [hshift] at h
  exact (combine_eq_ok h).2.2.1

/-- A list in one byte is empty. -/
theorem decodeHead_byte {b : UInt8} {a : Rlp.Announced} (h : Rlp.decodeHead [b] = some a)
    (hlist : a.isList = true) : a.payload = [] := by
  have hcut : ∀ {isList n}, Rlp.cut isList n [] = some a → a.payload = [] := by
    intro isList n h
    unfold Rlp.cut at h
    split at h
    · cases h
      exact List.take_nil
    · cases h
  have hlong : ∀ {isList k}, Rlp.cutLong isList k [] = some a → a.payload = [] := by
    intro isList k h
    unfold Rlp.cutLong at h
    split at h
    · cases h
    · split at h
      · cases h
      · split at h
        · cases h
        · rw [List.drop_nil] at h
          exact hcut h
  rw [Rlp.decodeHead] at h
  split at h
  · cases h
    cases hlist
  · split at h
    · split at h
      · cases h
      · exact hcut h
    · split at h
      · exact hlong h
      · split at h
        · exact hcut h
        · exact hlong h

/-- One byte is not the coding of a transaction with its sender. -/
theorem txWithSender_decode_byte (b : UInt8) : alloy.txWithSender.decode [b] = none := by
  rw [Option.eq_none_iff_forall_ne_some]
  intro tx h
  obtain ⟨⟨x, rest⟩, hx, h⟩ := Option.bind_eq_some_iff.mp h
  obtain ⟨y, z, rfl⟩ := alloy.txWithSender_fields _ tx h
  have hx' : Rlp.decodeFuel 3 [b] = some (.list [y, z], rest) := hx
  rw [Rlp.decodeFuel] at hx'
  cases ha : Rlp.decodeHead [b] with
  | none =>
    rw [ha] at hx'
    cases hx'
  | some a =>
    simp only [ha] at hx'
    split at hx'
    · rw [decodeHead_byte ha ‹_›] at hx'
      cases hx'
    · cases hx'

/-- **The offsets agree exactly in the versions that the scanner's side knows.** -/
theorem offsets_agree_iff (store : ArchiveKey → Option Bytes) (n : UInt64)
    (block : StoredBlock alloy) (receipts : StoredReceipts alloy) (traces : List Bytes)
    (h : Holds store n block receipts traces)
    (haccepted : ∃ decoded, BlockStorageRepr.decodeAndConvert block.bytes =
      (.ok decoded : Except Fault alloy.Block))
    (hr : receipts.repr.items.length = block.repr.txItems.length)
    (ht : traces.length = block.repr.txItems.length)
    (hblock : block.bytes.length < 2 ^ 63) (hreceipts : receipts.bytes.length < 2 ^ 63)
    (htraces : (alloy.trace.vec.encode traces).length < 2 ^ 63) :
    OffsetsAgree store n block receipts ↔ ∀ b, block ≠ .marked (.v2 b) := by
  have hblock' := block.length_payload_le
  have hreceipts' := receipts.length_payload_le
  obtain ⟨decoded, hdecoded⟩ := haccepted
  have hconvert : block.repr.convert = .ok decoded := by
    rw [BlockStorageRepr.decodeAndConvert, block.decode_bytes (by omega)] at hdecoded
    exact hdecoded
  constructor
  · rintro ⟨data, offsets, hdata, hoffsets, hdblock, -, htxs, -⟩ b rfl
    rw [getBlockDataWithOffsets_eq h hconvert (by omega) (by omega) (by omega)] at hdata
    obtain ⟨offsets', hscan, rfl⟩ : ∃ offsets', getAllTxOffsets
        (marked BlockStorageRepr.sentinel BlockStorageRepr.v2Marker (alloy.block.encode b))
        receipts.repr.payload (alloy.trace.vec.encode traces) = .ok offsets' ∧
        ⟨decoded, receipts.repr.convert, traces, some offsets'⟩ = data := by
      have hslice : BlockStorageRepr.rlpListSlice (StoredBlock.marked (.v2 b)).bytes =
          marked BlockStorageRepr.sentinel BlockStorageRepr.v2Marker (alloy.block.encode b) :=
        stripMarker_unknown (show BlockStorageRepr.v2Marker ∉ _ by decide)
      rw [hslice] at hdata
      revert hdata
      cases getAllTxOffsets _ _ _ with
      | error f => exact nofun
      | ok offsets' => exact fun hdata => ⟨offsets', rfl, Except.ok.inj hdata⟩
    cases hoffsets
    -- The one offset found is that of the second byte of the block.
    have htx := tx_getAllTxOffsets_v2 hscan
    obtain ⟨o, rfl, ho⟩ := List.map_eq_singleton_iff.mp htx
    obtain ⟨tx, txs, hat, -, -⟩ := List.forall₂_cons_left_iff.mp htxs
    have hlen : 2 ≤ (alloy.block.encode b).length := two_le_length_encode _ _
    obtain ⟨b₀, b₁, rest, hbytes⟩ : ∃ b₀ b₁ rest, alloy.block.encode b = b₀ :: b₁ :: rest := by
      match alloy.block.encode b, hlen with
      | b₀ :: b₁ :: rest, _ => exact ⟨b₀, b₁, rest, rfl⟩
    have hat' : alloy.txWithSender.decode (o.tx.bytes (alloy.block.encode b)) = some tx := hat
    rw [ho, hbytes] at hat'
    exact absurd hat' (by rw [show RangeRlp.bytes ⟨1, 2⟩ (b₀ :: b₁ :: rest) = [b₁] from rfl,
      txWithSender_decode_byte]; nofun)
  · exact offsetsAgree_of_ne h hconvert hr ht (by omega) (by omega) htraces

end Agreement

/-! ### A block with two transactions -/

/-- A block with two transactions. -/
def sampleBlock : Alloy.sample.Block where
  header := (1 : UInt64)
  transactions := [⟨⟨toBe 20 7, length_toBe 20 7⟩, (300 : UInt64)⟩,
    ⟨⟨toBe 20 8, length_toBe 20 8⟩, (5 : UInt64)⟩]
  ommers := []
  withdrawals := none

/-- Its receipts, of the first version and without a marker. -/
def sampleReceipts : StoredReceipts Alloy.sample := .raw [(21000 : UInt64), (42000 : UInt64)]

/-- An archive that holds a block with the receipts and two traces. -/
def sampleStore (block : StoredBlock Alloy.sample) : ArchiveKey → Option Bytes
  | .block n => if n = 1 then some block.bytes else none
  | .receipts n => if n = 1 then some sampleReceipts.bytes else none
  | .traces n => if n = 1 then some (Alloy.sample.trace.vec.encode [[1, 2], []]) else none
  | .blockHash _ => none

theorem holds_sampleStore (block : StoredBlock Alloy.sample) :
    Holds (sampleStore block) 1 block sampleReceipts [[1, 2], []] := ⟨rfl, rfl, rfl⟩

/-- The block in the second version. -/
theorem offsets_agree_iff_sample :
    OffsetsAgree (sampleStore (.marked (.v1 sampleBlock))) 1 (.marked (.v1 sampleBlock))
      sampleReceipts :=
  (offsets_agree_iff _ 1 (.marked (.v1 sampleBlock)) sampleReceipts [[1, 2], []]
    (holds_sampleStore _) ⟨{ sampleBlock with withdrawals := some [] }, rfl⟩ rfl rfl
    (by decide) (by decide) (by decide)).mpr nofun

/-- The block in the third version: the scanner counts one transaction, and the archive
returns an error. -/
theorem v2_offsets_refused :
    BlockStorageRepr.decodeAndConvert (StoredBlock.marked (.v2 sampleBlock)).bytes =
        (.ok sampleBlock : Except Fault Alloy.sample.Block) ∧
      Holds (sampleStore (.marked (.v2 sampleBlock))) 1 (.marked (.v2 sampleBlock))
        sampleReceipts [[1, 2], []] ∧
      ¬OffsetsAgree (sampleStore (.marked (.v2 sampleBlock))) 1 (.marked (.v2 sampleBlock))
        sampleReceipts := by
  refine ⟨rfl, holds_sampleStore _, ?_⟩
  rintro ⟨data, offsets, h, -⟩
  have herror : (getBlockDataWithOffsets (sampleStore (.marked (.v2 sampleBlock))) 1 :
      Except Fault (BlockDataWithOffsets Alloy.sample)).toBool = false := by decide
  rw [h] at herror
  cases herror

end Archive

end MonadServices
