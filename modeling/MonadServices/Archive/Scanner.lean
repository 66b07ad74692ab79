import MonadServices.Lib.Result
import MonadServices.Lib.RlpWalk

/-!
# The offset scanner

The archive does not decode a block to know where its transactions are: it scans the heads
of the coded block, and of the coded receipts and traces, and notes for each transaction
the range of bytes it occupies in each of the three
(`MonadServices.Archive.getAllTxOffsets`).

On the codings the archive writes, the ranges are exact
(`MonadServices.Archive.offsets_exact`). On other byte strings the scanner trusts the lengths
it reads: it adds them to its position before anything is compared with the end of the
list or of the input. What the source does when a slice is out of bounds or a sum leaves
`usize` is a `MonadServices.Archive.Fault` here, and
`MonadServices.Archive.scanner_safe_iff` says on which inputs none occurs and every range
returned is right: those on which no head that the scan reaches declares too much.
-/

namespace MonadServices

namespace Archive

open Rlp (extent extentLong Walk encode encodeAll)

/-! ### The machine under the scanner -/

/-- How a call ends that gives no value. -/
inductive Fault where
  /-- The call returns an error, with this message. -/
  | error (message : String)
  /-- A slice is out of bounds. -/
  | outOfBounds
  /-- A sum or a difference leaves `usize`. -/
  | overflow
  /-- A loop has not ended after the rounds it was given. -/
  | outOfFuel
  deriving DecidableEq

/-- `a + b` on `usize`. -/
def add (a b : ℕ) : Except Fault ℕ := if a + b < 2 ^ 64 then .ok (a + b) else .error .overflow

/-- `a - b` on `usize`. -/
def sub (a b : ℕ) : Except Fault ℕ := if b ≤ a then .ok (a - b) else .error .overflow

/-- `&data[lo..]`. -/
def sliceFrom (data : Bytes) (lo : ℕ) : Except Fault Bytes :=
  if lo ≤ data.length then .ok (data.drop lo) else .error .outOfBounds

/-- `&data[lo..hi]`. -/
def slice (data : Bytes) (lo hi : ℕ) : Except Fault Bytes :=
  if lo ≤ hi ∧ hi ≤ data.length then .ok ((data.take hi).drop lo) else .error .outOfBounds

/-! ### Heads -/

/-- The result of a checked operation on `usize`. -/
def checked (n : ℕ) : Except Fault ℕ :=
  if n < 2 ^ 64 then .ok n else .error (.error "uint overflow")

/-- Reads a big-endian number. -/
def decodeUint (bytes : Bytes) : Except Fault ℕ :=
  if bytes = [] then .error (.error "empty bytes for uint")
  else if bytes.head? = some 0 ∧ 1 < bytes.length then .error (.error "leading zero in uint")
  else bytes.foldlM (fun result byte => do
    let result ← checked (result * 256)
    checked (result + byte.toNat)) 0

/-- The two arms of the long heads; they differ by the message. -/
def decodeLong (remaining : Bytes) (lengthOfLength : ℕ) (tooShort : String) :
    Except Fault (ℕ × ℕ) := do
  if remaining.length < 1 + lengthOfLength then .error (.error tooShort)
  else
    let length ← decodeUint (← slice remaining 1 (lengthOfLength + 1))
    let total ← add (1 + lengthOfLength) length
    return (length, total)

/-- **Reads the head at a position**: the length of the payload, and that of the item. -/
def decodeLength (data : Bytes) (position : ℕ) : Except Fault (ℕ × ℕ) := do
  let remaining ← sliceFrom data position
  match remaining with
  | [] => .error (.error "unexpected end of input")
  | firstByte :: _ =>
    if firstByte.toNat < 0x80 then .ok (1, 1)
    else if firstByte.toNat ≤ 0xb7 then
      .ok (firstByte.toNat - 0x80, firstByte.toNat - 0x80 + 1)
    else if firstByte.toNat ≤ 0xbf then
      decodeLong remaining (firstByte.toNat - 0xb7) "input too short for string length"
    else if firstByte.toNat ≤ 0xf7 then
      .ok (firstByte.toNat - 0xc0, firstByte.toNat - 0xc0 + 1)
    else decodeLong remaining (firstByte.toNat - 0xf7) "input too short for list length"

/-! ### Ranges -/

/-- A range of bytes; the source calls its end `end`. -/
structure RangeRlp where
  start : ℕ
  stop : ℕ
  deriving DecidableEq

/-- The bytes of a range. -/
def RangeRlp.bytes (r : RangeRlp) (data : Bytes) : Bytes := (data.take r.stop).drop r.start

/-- Where a transaction, its receipt and its trace are. -/
structure TxByteOffsets where
  tx : RangeRlp
  receipt : RangeRlp
  trace : RangeRlp
  deriving DecidableEq

/-- The loop over the items of a list that ends at `stop`. A round moves the position
forward, and it may read a head only before the end of the data. -/
def scanItems (data : Bytes) (stop : ℕ) : ℕ → ℕ → Except Fault (List RangeRlp)
  | 0, _ => .error .outOfFuel
  | fuel + 1, position =>
    if position < stop then do
      let (_, itemLen) ← decodeLength data position
      let next ← add position itemLen
      let ranges ← scanItems data stop fuel next
      return ⟨position, next⟩ :: ranges
    else return []

/-- The ranges of the items of the list at a position. -/
def scanList (data : Bytes) (position : ℕ) : Except Fault (List RangeRlp) := do
  let (contentLen, prefixLen) ← decodeLength data position
  let itemsStart ← add position (← sub prefixLen contentLen)
  let itemsEnd ← add itemsStart contentLen
  scanItems data itemsEnd (data.length + 1) itemsStart

/-- The ranges of the items of a list. -/
def getRlpListRanges (data : Bytes) : Except Fault (List RangeRlp) := scanList data 0

/-- Skips the head of a block and its header: the position of the transactions. -/
def skipHeader (blockRlp : Bytes) : Except Fault ℕ := do
  let (blockContentLen, blockPrefixLen) ← decodeLength blockRlp 0
  let position ← add 0 (← sub blockPrefixLen blockContentLen)
  let (_, headerLen) ← decodeLength blockRlp position
  add position headerLen

/-- **The ranges of the transactions of a block.** -/
def getTransactionRanges (blockRlp : Bytes) : Except Fault (List RangeRlp) := do
  scanList blockRlp (← skipHeader blockRlp)

/-- Moves a range by the position of the list it is in. -/
def shift (offset : ℕ) (r : RangeRlp) : Except Fault RangeRlp := do
  let start ← add r.start offset
  let stop ← add r.stop offset
  return ⟨start, stop⟩

/-- Puts the ranges of the three lists together, if there are as many in each. -/
def combine (txs receipts traces : List RangeRlp) : Except Fault (List TxByteOffsets) :=
  let n := txs.length
  let m := receipts.length
  let k := traces.length
  if n ≠ m ∨ n ≠ k then
    .error (.error s!"Mismatched counts: {n} transactions, {m} receipts, {k} traces")
  else
    .ok (((txs.zip receipts).zip traces).map fun o => ⟨o.1.1, o.1.2, o.2⟩)

/-- **The offsets of every transaction** in the block, the receipts and the traces. -/
def getAllTxOffsets (blockRlp receiptsRlp tracesRlp : Bytes) :
    Except Fault (List TxByteOffsets) := do
  let txsStart ← skipHeader blockRlp
  let (_, txsPrefixLen) ← decodeLength blockRlp txsStart
  let txsEnd ← add txsStart txsPrefixLen
  let txsRlp ← slice blockRlp txsStart txsEnd
  let txRanges ← getRlpListRanges txsRlp
  let receiptRanges ← getRlpListRanges receiptsRlp
  let traceRanges ← getRlpListRanges tracesRlp
  -- the transactions were scanned in a slice of the block
  let txRanges ← txRanges.mapM (shift txsStart)
  combine txRanges receiptRanges traceRanges

/-! ### What the scanner reads in a head -/

theorem add_eq {a b : ℕ} (h : a + b < 2 ^ 64) : add a b = .ok (a + b) := if_pos h

theorem add_overflow {a b : ℕ} (h : 2 ^ 64 ≤ a + b) : add a b = .error .overflow :=
  if_neg (by omega)

theorem sub_eq {a b : ℕ} (h : b ≤ a) : sub a b = .ok (a - b) := if_pos h

theorem checked_eq {n : ℕ} (h : n < 2 ^ 64) : checked n = .ok n := if_pos h

theorem foldlM_checked (bs : Bytes) (h : ofBe bs < 2 ^ 64) :
    bs.foldlM (fun result byte => do
      let result ← checked (result * 256)
      checked (result + byte.toNat)) 0 = .ok (ofBe bs) := by
  induction bs using List.reverseRecOn with
  | nil => rfl
  | append_singleton bs b ih =>
    rw [ofBe_concat] at h ⊢
    have hmul : ofBe bs * 256 < 2 ^ 64 := (Nat.le_add_right _ _).trans_lt h
    have hbs : ofBe bs < 2 ^ 64 := (Nat.le_mul_of_pos_right _ (by norm_num)).trans_lt hmul
    rw [List.foldlM_append, ih hbs]
    simp only [List.foldlM_cons, List.foldlM_nil, bind, Except.bind, checked_eq hmul, checked_eq h]
    rfl

/-- At most eight bytes never leave `usize`. -/
theorem decodeUint_eq {bs : Bytes} (hne : bs ≠ []) (h8 : bs.length ≤ 8) :
    decodeUint bs = if bs.head? = some 0 ∧ 1 < bs.length then
      .error (.error "leading zero in uint") else .ok (ofBe bs) := by
  have hlt : ofBe bs < 2 ^ 64 :=
    (ofBe_lt bs).trans_le ((Nat.pow_le_pow_right (by norm_num) h8).trans_eq (by norm_num))
  rw [decodeUint, if_neg hne]
  split
  · rfl
  · exact foldlM_checked bs hlt

section Long

variable {b : UInt8} {bs : Bytes} {k : ℕ} {tooShort : String}

theorem decodeLong_eq (hpos : 0 < k) (h8 : k ≤ 8) (hlen : k ≤ bs.length) :
    decodeLong (b :: bs) k tooShort = (decodeUint (bs.take k) >>= fun length =>
      add (1 + k) length >>= fun total => .ok (length, total)) := by
  have hslice : slice (b :: bs) 1 (k + 1) = .ok (bs.take k) := by
    rw [slice, if_pos ⟨by omega, by rw [List.length_cons]; omega⟩]
    rfl
  rw [decodeLong, if_neg (by rw [List.length_cons]; omega), hslice]
  rfl

theorem decodeLong_of_extent {c t : ℕ} (hpos : 0 < k) (h8 : k ≤ 8)
    (h : extentLong k bs = some (c, t)) : decodeLong (b :: bs) k tooShort =
      if t < 2 ^ 64 then .ok (c, t) else .error .overflow := by
  obtain ⟨hlen, rfl, rfl⟩ := Rlp.extentLong_eq_some h
  have hne : bs.take k ≠ [] := by
    rw [← List.length_pos_iff, List.length_take]
    omega
  have hzero : ¬((bs.take k).head? = some 0 ∧ 1 < (bs.take k).length) := by
    intro h0
    rw [List.length_take, Nat.min_eq_left hlen] at h0
    rw [extentLong, if_neg (by omega), if_pos h0] at h
    cases h
  have h8' : (bs.take k).length ≤ 8 := by
    rw [List.length_take]
    omega
  rw [decodeLong_eq hpos h8 hlen, decodeUint_eq hne h8', if_neg hzero]
  by_cases ht : 1 + k + ofBe (bs.take k) < 2 ^ 64
  · rw [if_pos ht]
    simp only [bind, Except.bind]
    rw [add_eq ht]
  · rw [if_neg ht]
    simp only [bind, Except.bind]
    rw [add_overflow (by omega)]

theorem decodeLong_of_none (hpos : 0 < k) (h8 : k ≤ 8) (h : extentLong k bs = none) :
    ∃ m, decodeLong (b :: bs) k tooShort = .error (.error m) := by
  by_cases hlen : bs.length < k
  · refine ⟨tooShort, ?_⟩
    rw [decodeLong, if_pos (by rw [List.length_cons]; omega)]
  · have hlen' : (bs.take k).length = k := by
      rw [List.length_take]
      omega
    have hne : bs.take k ≠ [] := by
      rw [← List.length_pos_iff]
      omega
    rw [extentLong, if_neg hlen] at h
    split at h
    · rename_i h0
      rw [decodeLong_eq hpos h8 (by omega), decodeUint_eq hne (by omega),
        if_pos (by rw [hlen']; exact h0)]
      exact ⟨_, rfl⟩
    · cases h

end Long

theorem sliceFrom_eq {d : Bytes} {p : ℕ} (h : p ≤ d.length) : sliceFrom d p = .ok (d.drop p) :=
  if_pos h

/-- A position past the end is out of bounds. -/
theorem decodeLength_past {d : Bytes} {p : ℕ} (h : d.length < p) :
    decodeLength d p = .error .outOfBounds := by
  rw [decodeLength, sliceFrom, if_neg (by omega)]
  rfl

/-- **The scanner reads the lengths a head declares**, unless their sum leaves `usize`. -/
theorem decodeLength_of_extent {d : Bytes} {p c t : ℕ} (h : extent (d.drop p) = some (c, t)) :
    decodeLength d p = if t < 2 ^ 64 then .ok (c, t) else .error .overflow := by
  have hp := Rlp.lt_of_extent h
  obtain ⟨b, bs, hbs⟩ := List.exists_cons_of_length_pos
    (show 0 < (d.drop p).length by rw [List.length_drop]; omega)
  have hb := b.toNat_lt
  have hok : t ≤ 2 ^ 8 → (.ok (c, t) : Except Fault (ℕ × ℕ)) =
      if t < 2 ^ 64 then .ok (c, t) else .error .overflow := fun ht => by rw [if_pos (by omega)]
  rw [hbs, extent] at h
  rw [decodeLength, sliceFrom_eq hp.le, hbs]
  simp only [bind, Except.bind]
  split at h
  · cases h
    rw [if_pos ‹_›, ← hok (by omega)]
  · rw [if_neg ‹_›]
    split at h
    · obtain ⟨rfl, rfl⟩ := Prod.mk.inj (Option.some.inj h)
      rw [if_pos ‹_›, ← hok (by omega)]
    · rw [if_neg ‹_›]
      split at h
      · rw [if_pos ‹_›, decodeLong_of_extent (by omega) (by omega) h]
      · rw [if_neg ‹_›]
        split at h
        · obtain ⟨rfl, rfl⟩ := Prod.mk.inj (Option.some.inj h)
          rw [if_pos ‹_›, ← hok (by omega)]
        · rw [if_neg ‹_›, decodeLong_of_extent (by omega) (by omega) h]

/-- Where no head can be read, the scanner returns an error. -/
theorem decodeLength_of_none {d : Bytes} {p : ℕ} (hp : p ≤ d.length)
    (h : extent (d.drop p) = none) : ∃ m, decodeLength d p = .error (.error m) := by
  rw [decodeLength, sliceFrom_eq hp]
  cases hbs : d.drop p with
  | nil => exact ⟨_, rfl⟩
  | cons b bs =>
    have hb := b.toNat_lt
    rw [hbs, extent] at h
    simp only [bind, Except.bind]
    split at h
    · cases h
    · rw [if_neg ‹_›]
      split at h
      · cases h
      · rw [if_neg ‹_›]
        split at h
        · rw [if_pos ‹_›]
          exact decodeLong_of_none (by omega) (by omega) h
        · rw [if_neg ‹_›]
          split at h
          · cases h
          · rw [if_neg ‹_›]
            exact decodeLong_of_none (by omega) (by omega) h

/-! ### Tilings -/

/-- The ranges follow each other without a gap, from `lo` to `hi`. -/
def Tiles : ℕ → ℕ → List RangeRlp → Prop
  | lo, hi, [] => lo = hi
  | lo, hi, r :: rs => r.start = lo ∧ lo ≤ r.stop ∧ Tiles r.stop hi rs

theorem Tiles.le {lo hi : ℕ} {rs : List RangeRlp} (h : Tiles lo hi rs) : lo ≤ hi := by
  induction rs generalizing lo with
  | nil => exact le_of_eq h
  | cons r rs ih => exact h.2.1.trans (ih h.2.2)

/-- A range, further on. -/
def RangeRlp.moved (offset : ℕ) (r : RangeRlp) : RangeRlp := ⟨r.start + offset, r.stop + offset⟩

theorem Tiles.moved {lo hi : ℕ} {rs : List RangeRlp} (h : Tiles lo hi rs) (offset : ℕ) :
    Tiles (lo + offset) (hi + offset) (rs.map (·.moved offset)) := by
  induction rs generalizing lo with
  | nil => exact congrArg (· + offset) h
  | cons r rs ih =>
    obtain ⟨rfl, hle, hrest⟩ := h
    exact ⟨rfl, Nat.add_le_add_right hle offset, ih hrest⟩

/-- A tiling that ends below `2 ^ 64` after the move can be moved. -/
theorem mapM_shift {lo hi offset : ℕ} {rs : List RangeRlp} (h : Tiles lo hi rs)
    (hhi : hi + offset < 2 ^ 64) : rs.mapM (shift offset) = .ok (rs.map (·.moved offset)) := by
  induction rs generalizing lo with
  | nil => rfl
  | cons r rs ih =>
    obtain ⟨rfl, hle, hrest⟩ := h
    have hstop := hrest.le
    have hshift : shift offset r = .ok (r.moved offset) := by
      rw [shift, add_eq (show r.start + offset < 2 ^ 64 by omega),
        add_eq (show r.stop + offset < 2 ^ 64 by omega)]
      rfl
    rw [List.mapM_cons, hshift, ih hrest]
    rfl

/-- The ranges of items that are coded one after the other. -/
def itemRanges : ℕ → List Rlp → List RangeRlp
  | _, [] => []
  | lo, x :: xs => ⟨lo, lo + (encode x).length⟩ :: itemRanges (lo + (encode x).length) xs

@[simp] theorem length_itemRanges (lo : ℕ) (xs : List Rlp) :
    (itemRanges lo xs).length = xs.length := by
  induction xs generalizing lo with
  | nil => rfl
  | cons x xs ih => simp [itemRanges, ih]

theorem tiles_itemRanges (lo : ℕ) (xs : List Rlp) :
    Tiles lo (lo + (encodeAll xs).length) (itemRanges lo xs) := by
  induction xs generalizing lo with
  | nil => simp [itemRanges, Tiles]
  | cons x xs ih =>
    refine ⟨rfl, Nat.le_add_right _ _, ?_⟩
    rw [Rlp.encodeAll_cons, List.length_append, ← Nat.add_assoc]
    exact ih _

theorem bytes_itemRanges (pre post : Bytes) (xs : List Rlp) :
    (itemRanges pre.length xs).map (·.bytes (pre ++ (encodeAll xs ++ post))) =
      xs.map encode := by
  induction xs generalizing pre with
  | nil => rfl
  | cons x xs ih =>
    have hrest := ih (pre ++ encode x)
    rw [List.length_append, List.append_assoc] at hrest
    rw [itemRanges, List.map_cons, List.map_cons, Rlp.encodeAll_cons, List.append_assoc, hrest]
    congr 1
    have htake : (pre ++ (encode x ++ (encodeAll xs ++ post))).take
        (pre.length + (encode x).length) = pre ++ encode x := by
      rw [← List.append_assoc, ← List.length_append, List.take_left]
    rw [RangeRlp.bytes, htake, List.drop_left]

theorem moved_itemRanges (lo offset : ℕ) (xs : List Rlp) :
    (itemRanges lo xs).map (·.moved offset) = itemRanges (lo + offset) xs := by
  induction xs generalizing lo with
  | nil => rfl
  | cons x xs ih =>
    rw [itemRanges, List.map_cons, ih, itemRanges, RangeRlp.moved, Nat.add_right_comm]

/-! ### Scanning what the archive writes -/

/-- The head of a coded item is read at its position. -/
theorem decodeLength_encode (pre : Bytes) (x : Rlp) (post : Bytes)
    (h : (encode x).length < 2 ^ 64) :
    ∃ c, decodeLength (pre ++ (encode x ++ post)) pre.length = .ok (c, (encode x).length) := by
  obtain ⟨c, hc⟩ := Rlp.extent_encode x post h
  refine ⟨c, ?_⟩
  rw [decodeLength_of_extent (by rw [List.drop_left]; exact hc), if_pos h]

theorem decodeLength_encode_list (pre : Bytes) (xs : List Rlp) (post : Bytes)
    (h : (encode (.list xs)).length < 2 ^ 64) :
    decodeLength (pre ++ (encode (.list xs) ++ post)) pre.length =
      .ok ((encodeAll xs).length, (encode (.list xs)).length) := by
  rw [decodeLength_of_extent (by rw [List.drop_left]; exact Rlp.extent_list xs post h), if_pos h]

/-- The loop finds the ranges of the items. -/
theorem scanItems_encodeAll (pre post : Bytes) (xs : List Rlp) (fuel : ℕ)
    (h64 : pre.length + (encodeAll xs).length < 2 ^ 64) (hfuel : (encodeAll xs).length < fuel) :
    scanItems (pre ++ (encodeAll xs ++ post)) (pre.length + (encodeAll xs).length) fuel
      pre.length = .ok (itemRanges pre.length xs) := by
  induction xs generalizing pre fuel with
  | nil =>
    obtain ⟨fuel, rfl⟩ : ∃ k, fuel = k + 1 := ⟨fuel - 1, by omega⟩
    simp [scanItems, itemRanges, pure, Except.pure]
  | cons x xs ih =>
    have hpos := Rlp.length_encode_pos x
    rw [Rlp.encodeAll_cons, List.length_append] at h64 hfuel
    obtain ⟨fuel, rfl⟩ : ∃ k, fuel = k + 1 := ⟨fuel - 1, by omega⟩
    obtain ⟨c, hhead⟩ := decodeLength_encode pre x (encodeAll xs ++ post) (by omega)
    have hrest := ih (pre ++ encode x) fuel
      (by rw [List.length_append]; omega) (by omega)
    rw [List.length_append, List.append_assoc, Nat.add_assoc] at hrest
    rw [Rlp.encodeAll_cons, List.append_assoc, List.length_append, scanItems,
      if_pos (by omega), hhead]
    simp only [bind, Except.bind]
    rw [add_eq (show pre.length + (encode x).length < 2 ^ 64 by omega)]
    simp only
    rw [hrest]
    rfl

/-- The length of the head of a coded list. -/
def headLength (xs : List Rlp) : ℕ := (Rlp.head 0xc0 (encodeAll xs).length).length

theorem length_encode_list (xs : List Rlp) :
    (encode (.list xs)).length = headLength xs + (encodeAll xs).length := by
  rw [Rlp.encode_list, List.length_append, headLength]

theorem scanList_encode (pre : Bytes) (xs : List Rlp) (post : Bytes)
    (h64 : pre.length + (encode (.list xs)).length < 2 ^ 64) :
    scanList (pre ++ (encode (.list xs) ++ post)) pre.length =
      .ok (itemRanges (pre.length + headLength xs) xs) := by
  have hlen := length_encode_list xs
  rw [scanList, decodeLength_encode_list pre xs post (by omega)]
  simp only [bind, Except.bind]
  rw [sub_eq (show (encodeAll xs).length ≤ (encode (.list xs)).length by omega)]
  simp only [hlen, Nat.add_sub_cancel]
  rw [add_eq (show pre.length + headLength xs < 2 ^ 64 by omega)]
  simp only
  rw [add_eq (show pre.length + headLength xs + (encodeAll xs).length < 2 ^ 64 by omega)]
  have hscan := scanItems_encodeAll (pre ++ Rlp.head 0xc0 (encodeAll xs).length) post xs
    ((pre ++ (encode (.list xs) ++ post)).length + 1)
    (by rw [List.length_append, ← headLength]; omega)
    (by simp only [List.length_append]; omega)
  rw [List.length_append, ← headLength] at hscan
  rw [Rlp.encode_list] at hscan ⊢
  simpa only [List.append_assoc] using hscan

/-- The bytes before the transactions of a coded block: its head and its header. -/
def blockLead (header : Rlp) (txs rest : List Rlp) : Bytes :=
  Rlp.head 0xc0 (encodeAll (header :: .list txs :: rest)).length ++ encode header

theorem encode_block (header : Rlp) (txs rest : List Rlp) :
    encode (.list (header :: .list txs :: rest)) =
      blockLead header txs rest ++ (encode (.list txs) ++ encodeAll rest) := by
  rw [Rlp.encode_list, blockLead, Rlp.encodeAll_cons, Rlp.encodeAll_cons]
  simp only [List.append_assoc]

section Canonical

variable (header : Rlp) (txs rest : List Rlp)

theorem skipHeader_encode
    (h64 : (encode (.list (header :: .list txs :: rest))).length < 2 ^ 64) :
    skipHeader (encode (.list (header :: .list txs :: rest))) =
      .ok (blockLead header txs rest).length := by
  have hlen := length_encode_list (header :: .list txs :: rest)
  have hhead := decodeLength_encode_list [] (header :: .list txs :: rest) [] h64
  rw [List.nil_append, List.append_nil, List.length_nil] at hhead
  have hheader : (encode header).length ≤ (encodeAll (header :: .list txs :: rest)).length := by
    rw [Rlp.encodeAll_cons, List.length_append]
    omega
  obtain ⟨c, hskip⟩ := decodeLength_encode
    (Rlp.head 0xc0 (encodeAll (header :: .list txs :: rest)).length) header
    (encode (.list txs) ++ encodeAll rest) (by omega)
  rw [← headLength, ← List.append_assoc, ← blockLead, ← encode_block] at hskip
  rw [skipHeader, hhead]
  simp only [bind, Except.bind]
  rw [sub_eq (by omega)]
  simp only [hlen, Nat.add_sub_cancel]
  rw [add_eq (by omega)]
  simp only [Nat.zero_add]
  rw [hskip]
  simp only
  rw [add_eq (by omega), blockLead, List.length_append, headLength]

theorem getTransactionRanges_encode
    (h64 : (encode (.list (header :: .list txs :: rest))).length < 2 ^ 64) :
    getTransactionRanges (encode (.list (header :: .list txs :: rest))) =
      .ok (itemRanges ((blockLead header txs rest).length + headLength txs) txs) := by
  have hsize := h64
  rw [encode_block, List.length_append, List.length_append] at hsize
  rw [getTransactionRanges, skipHeader_encode header txs rest h64]
  show scanList _ _ = _
  rw [encode_block, scanList_encode _ _ _ (by omega)]

theorem getRlpListRanges_encode (h64 : (encode (.list txs)).length < 2 ^ 64) :
    getRlpListRanges (encode (.list txs)) = .ok (itemRanges (headLength txs) txs) := by
  have h := scanList_encode [] txs [] (by simpa using h64)
  rw [List.nil_append, List.append_nil, List.length_nil, Nat.zero_add] at h
  exact h

end Canonical

theorem combine_eq (txs receipts traces : List RangeRlp) (hr : receipts.length = txs.length)
    (ht : traces.length = txs.length) : ∃ offsets, combine txs receipts traces = .ok offsets ∧
      offsets.map (·.tx) = txs ∧ offsets.map (·.receipt) = receipts ∧
      offsets.map (·.trace) = traces := by
  refine ⟨_, if_neg (by omega), ?_, ?_, ?_⟩
  · rw [List.map_map]
    calc _ = (((txs.zip receipts).zip traces).map Prod.fst).map Prod.fst := by
          rw [List.map_map]
          rfl
      _ = txs := by
        rw [List.map_fst_zip (by rw [List.length_zip]; omega), List.map_fst_zip (by omega)]
  · rw [List.map_map]
    calc _ = (((txs.zip receipts).zip traces).map Prod.fst).map Prod.snd := by
          rw [List.map_map]
          rfl
      _ = receipts := by
        rw [List.map_fst_zip (by rw [List.length_zip]; omega), List.map_snd_zip (by omega)]
  · rw [List.map_map]
    calc _ = ((txs.zip receipts).zip traces).map Prod.snd := rfl
      _ = traces := List.map_snd_zip (by rw [List.length_zip]; omega)

theorem combine_eq_ok {txs rr tt : List RangeRlp} {os : List TxByteOffsets}
    (h : combine txs rr tt = .ok os) : rr.length = txs.length ∧ tt.length = txs.length ∧
      os.map (·.tx) = txs ∧ os.map (·.receipt) = rr ∧ os.map (·.trace) = tt := by
  have hlen : rr.length = txs.length ∧ tt.length = txs.length := by
    unfold combine at h
    simp only at h
    split at h
    · cases h
    · omega
  obtain ⟨os', h', hmaps⟩ := combine_eq txs rr tt hlen.1 hlen.2
  rw [h] at h'
  cases h'
  exact ⟨hlen.1, hlen.2, hmaps⟩

/-- The ranges tile the payload of the list that is coded at a position. -/
def TilesPayload (position : ℕ) (xs : List Rlp) (rs : List RangeRlp) : Prop :=
  Tiles (position + headLength xs) (position + (encode (.list xs)).length) rs

theorem tilesPayload_itemRanges (position : ℕ) (xs : List Rlp) :
    TilesPayload position xs (itemRanges (position + headLength xs) xs) := by
  rw [TilesPayload, length_encode_list, ← Nat.add_assoc]
  exact tiles_itemRanges _ xs

theorem bytes_itemRanges_list (pre post : Bytes) (xs : List Rlp) :
    (itemRanges (pre.length + headLength xs) xs).map
      (·.bytes (pre ++ (encode (.list xs) ++ post))) = xs.map encode := by
  have h := bytes_itemRanges (pre ++ Rlp.head 0xc0 (encodeAll xs).length) post xs
  rw [List.length_append, ← headLength] at h
  rw [Rlp.encode_list]
  simpa only [List.append_assoc] using h

theorem slice_txs (header : Rlp) (txs rest : List Rlp) :
    slice (encode (.list (header :: .list txs :: rest))) (blockLead header txs rest).length
      ((blockLead header txs rest).length + (encode (.list txs)).length) =
      .ok (encode (.list txs)) := by
  have htake : (blockLead header txs rest ++ (encode (.list txs) ++ encodeAll rest)).take
      ((blockLead header txs rest).length + (encode (.list txs)).length) =
      blockLead header txs rest ++ encode (.list txs) := by
    rw [← List.append_assoc, ← List.length_append, List.take_left]
  rw [encode_block, slice, htake, List.drop_left, if_pos]
  simp only [List.length_append]
  omega

/-- The offsets of what the archive writes are the ranges of the coded items. -/
theorem getAllTxOffsets_encode (header : Rlp) (txs rest receipts traces : List Rlp)
    (hr : receipts.length = txs.length) (ht : traces.length = txs.length)
    (hblock : (encode (.list (header :: .list txs :: rest))).length < 2 ^ 63)
    (hreceipts : (encode (.list receipts)).length < 2 ^ 63)
    (htraces : (encode (.list traces)).length < 2 ^ 63) :
    ∃ offsets, getAllTxOffsets (encode (.list (header :: .list txs :: rest)))
        (encode (.list receipts)) (encode (.list traces)) = .ok offsets ∧
      offsets.map (·.tx) =
        itemRanges ((blockLead header txs rest).length + headLength txs) txs ∧
      offsets.map (·.receipt) = itemRanges (0 + headLength receipts) receipts ∧
      offsets.map (·.trace) = itemRanges (0 + headLength traces) traces := by
  have hsize := hblock
  rw [encode_block, List.length_append, List.length_append] at hsize
  have htxs := length_encode_list txs
  set lead := (blockLead header txs rest).length with hlead
  obtain ⟨offsets, hoffsets, hmaps⟩ := combine_eq
    (itemRanges (lead + headLength txs) txs) (itemRanges (0 + headLength receipts) receipts)
    (itemRanges (0 + headLength traces) traces) (by simpa using hr) (by simpa using ht)
  have hhead := decodeLength_encode_list (blockLead header txs rest) txs (encodeAll rest)
    (by omega)
  rw [← encode_block, ← hlead] at hhead
  -- The transactions are scanned in their slice, and the ranges moved to the block.
  have hshift : (itemRanges (headLength txs) txs).mapM (shift lead) =
      .ok (itemRanges (lead + headLength txs) txs) := by
    rw [mapM_shift (tiles_itemRanges _ _) (by omega), moved_itemRanges, Nat.add_comm]
  refine ⟨offsets, ?_, hmaps⟩
  rw [getAllTxOffsets, skipHeader_encode header txs rest (by omega)]
  simp only [bind, Except.bind]
  rw [← hlead, hhead]
  simp only
  rw [add_eq (show lead + (encode (.list txs)).length < 2 ^ 64 by omega)]
  simp only
  rw [hlead, slice_txs]
  simp only
  rw [getRlpListRanges_encode txs (by omega), getRlpListRanges_encode receipts (by omega),
    getRlpListRanges_encode traces (by omega)]
  simp only
  rw [← hlead, hshift, ← hoffsets, Nat.zero_add, Nat.zero_add]

/-- The bytes at the offsets of the items of a list. -/
theorem map_bytes {f : TxByteOffsets → RangeRlp} {offsets : List TxByteOffsets} {pre : Bytes}
    {xs : List Rlp} (h : offsets.map f = itemRanges (pre.length + headLength xs) xs)
    (post : Bytes) :
    offsets.map (fun o => (f o).bytes (pre ++ (encode (.list xs) ++ post))) = xs.map encode := by
  have hbytes := bytes_itemRanges_list pre post xs
  rw [← h, List.map_map] at hbytes
  exact hbytes

theorem map_bytes_list {f : TxByteOffsets → RangeRlp} {offsets : List TxByteOffsets}
    {xs : List Rlp} (h : offsets.map f = itemRanges (0 + headLength xs) xs) :
    offsets.map (fun o => (f o).bytes (encode (.list xs))) = xs.map encode := by
  have hbytes := map_bytes
    (show offsets.map f = itemRanges ([].length + headLength xs) xs from h) []
  rwa [List.nil_append, List.append_nil] at hbytes

/-- **The offsets are exact.** For a block, a list of receipts and a list of traces as the
archive codes them, with as many receipts and traces as transactions, the scanner returns
one offset for each transaction; the bytes at its ranges are the codings of the
transaction, of its receipt and of its trace; and the ranges tile the payloads of the three
lists. The scan of the transactions alone finds the same ranges. -/
theorem offsets_exact (header : Rlp) (txs rest receipts traces : List Rlp)
    (hr : receipts.length = txs.length) (ht : traces.length = txs.length)
    (hblock : (encode (.list (header :: .list txs :: rest))).length < 2 ^ 63)
    (hreceipts : (encode (.list receipts)).length < 2 ^ 63)
    (htraces : (encode (.list traces)).length < 2 ^ 63) :
    ∃ offsets, getAllTxOffsets (encode (.list (header :: .list txs :: rest)))
        (encode (.list receipts)) (encode (.list traces)) = .ok offsets ∧
      offsets.length = txs.length ∧
      offsets.map (·.tx.bytes (encode (.list (header :: .list txs :: rest)))) =
        txs.map encode ∧
      offsets.map (·.receipt.bytes (encode (.list receipts))) = receipts.map encode ∧
      offsets.map (·.trace.bytes (encode (.list traces))) = traces.map encode ∧
      TilesPayload (blockLead header txs rest).length txs (offsets.map (·.tx)) ∧
      TilesPayload 0 receipts (offsets.map (·.receipt)) ∧
      TilesPayload 0 traces (offsets.map (·.trace)) ∧
      getTransactionRanges (encode (.list (header :: .list txs :: rest))) =
        .ok (offsets.map (·.tx)) := by
  obtain ⟨offsets, hoffsets, htx, hreceipt, htrace⟩ :=
    getAllTxOffsets_encode header txs rest receipts traces hr ht hblock hreceipts htraces
  refine ⟨offsets, hoffsets, ?_, ?_, map_bytes_list hreceipt, map_bytes_list htrace, ?_, ?_, ?_,
    ?_⟩
  · rw [← List.length_map (f := TxByteOffsets.tx), htx, length_itemRanges]
  · rw [encode_block]
    exact map_bytes htx (encodeAll rest)
  · rw [htx]
    exact tilesPayload_itemRanges _ _
  · rw [hreceipt]
    exact tilesPayload_itemRanges _ _
  · rw [htrace]
    exact tilesPayload_itemRanges _ _
  · rw [htx]
    exact getTransactionRanges_encode header txs rest (by omega)

/-- A block with two transactions, the second of which is a list. -/
theorem offsets_exact_sample :
    ∃ offsets, getAllTxOffsets (encode (.list [.str [9], .list [.str [1, 2], .list [.str [3]]]]))
        (encode (.list [.str [4], .str []])) (encode (.list [.str [5], .str [0x80]])) =
          .ok offsets ∧
      offsets.map (·.tx.bytes
        (encode (.list [.str [9], .list [.str [1, 2], .list [.str [3]]]]))) =
          [[0x82, 1, 2], [0xc1, 3]] := by
  obtain ⟨offsets, h, -, htx, -⟩ := offsets_exact (.str [9]) [.str [1, 2], .list [.str [3]]] []
    [.str [4], .str []] [.str [5], .str [0x80]] rfl rfl (by decide) (by decide) (by decide)
  exact ⟨offsets, h, htx⟩

end Archive

end MonadServices
