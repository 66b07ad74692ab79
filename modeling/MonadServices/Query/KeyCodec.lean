import MonadServices.Query.Cell
import MonadServices.Query.Tables

/-!
# The coding of keys

The keys of the query tables are coded in two ways. The blob tables have byte strings as keys: a
tag for the family, and then the filter and the page, or the partition, or the id, whose lengths
follow from tags or are written down. The metadata tables have tuples of cells.

**No two keys share a coding**, and a key is read back from its coding, the key of a payload as
long as its length fits the four bytes it is written on. A byte string that is read is the coding
of what it is read as. This is not so for all tuples: the decoders look at neither the names nor
the number of the cells, and read numbers in any spelling. Of the tuples, **exactly those of the
right columns and with numbers as they are written** are codings
(`MonadServices.Query.key_codecs`).
-/

namespace MonadServices

namespace Query

/-! ### Tags -/

/-- The number of a family. -/
def Family.toByte : Family → UInt8
  | .blockHeader => 0
  | .transaction => 1
  | .log => 2
  | .trace => 3

/-- `Family::try_from`. -/
def Family.ofByte (b : UInt8) : Option Family :=
  if b = 0 then some .blockHeader
  else if b = 1 then some .transaction
  else if b = 2 then some .log
  else if b = 3 then some .trace
  else none

theorem Family.ofByte_eq_some {b : UInt8} {family : Family} :
    Family.ofByte b = some family ↔ family.toByte = b := by
  constructor
  · intro h
    unfold ofByte at h
    split_ifs at h with h0 h1 h2 h3
    · rw [← Option.some.inj h, h0, toByte]
    · rw [← Option.some.inj h, h1, toByte]
    · rw [← Option.some.inj h, h2, toByte]
    · rw [← Option.some.inj h, h3, toByte]
  · rintro rfl
    cases family <;> rfl

/-- The kinds of filters, `BitmapFilterValueDiscriminants`. -/
inductive BitmapFilterKind where
  | address
  | sentFrom
  | hasTransfer
  | selector
  | sentTo
  | topLevel
  | topic0
  | topic1
  | topic2
  | topic3
  | miner
  deriving DecidableEq

/-- The number of a kind. -/
def BitmapFilterKind.toByte : BitmapFilterKind → UInt8
  | .address => 0
  | .sentFrom => 1
  | .hasTransfer => 2
  | .selector => 3
  | .sentTo => 4
  | .topLevel => 5
  | .topic0 => 6
  | .topic1 => 7
  | .topic2 => 8
  | .topic3 => 9
  | .miner => 10

/-- The kinds in the order of their numbers. -/
def BitmapFilterKind.all : List BitmapFilterKind :=
  [.address, .sentFrom, .hasTransfer, .selector, .sentTo, .topLevel, .topic0, .topic1, .topic2,
    .topic3, .miner]

/-- `BitmapFilterValueDiscriminants::try_from`. -/
def BitmapFilterKind.ofByte (b : UInt8) : Option BitmapFilterKind :=
  BitmapFilterKind.all.find? fun kind => kind.toByte == b

theorem BitmapFilterKind.ofByte_toByte (kind : BitmapFilterKind) :
    BitmapFilterKind.ofByte kind.toByte = some kind := by cases kind <;> rfl

theorem BitmapFilterKind.toByte_of_ofByte {b : UInt8} {kind : BitmapFilterKind}
    (h : BitmapFilterKind.ofByte b = some kind) : kind.toByte = b := by
  simpa using List.find?_some h

/-! ### Filters -/

/-- The kind of a filter. -/
def BitmapFilterValue.kind : BitmapFilterValue → BitmapFilterKind
  | .address _ => .address
  | .sentFrom _ => .sentFrom
  | .hasTransfer => .hasTransfer
  | .selector _ => .selector
  | .sentTo _ => .sentTo
  | .topLevel => .topLevel
  | .topic0 _ => .topic0
  | .topic1 _ => .topic1
  | .topic2 _ => .topic2
  | .topic3 _ => .topic3
  | .miner _ => .miner

/-- What is written of a filter after its kind. -/
def BitmapFilterValue.body : BitmapFilterValue → Bytes
  | .address value | .sentFrom value | .sentTo value | .miner value => value.1
  | .hasTransfer | .topLevel => []
  | .selector value => value.1
  | .topic0 value | .topic1 value | .topic2 value | .topic3 value => value.1

/-- `BitmapFilterValue::encode`. -/
def BitmapFilterValue.encode (value : BitmapFilterValue) : Bytes :=
  value.kind.toByte :: value.body

/-- A body of a given length. -/
def decodeFixed (n : ℕ) (message : String) (body : Bytes) : Except QueryError (FixedBytes n) :=
  if h : body.length = n then .ok ⟨body, h⟩ else .error (.decode message)

/-- `decode_topic`. -/
def decodeTopic (body : Bytes) : Except QueryError B256 :=
  decodeFixed 32 "invalid topic bitmap value" body

/-- `decode_flag`. -/
def decodeFlag (body : Bytes) (value : BitmapFilterValue) : Except QueryError BitmapFilterValue :=
  if body.isEmpty then .ok value else .error (.decode "invalid flag bitmap value")

/-- The filter of a kind with a given body. -/
def BitmapFilterKind.decodeBody (body : Bytes) :
    BitmapFilterKind → Except QueryError BitmapFilterValue
  | .address => (decodeFixed 20 "invalid address bitmap value" body).map .address
  | .sentFrom => (decodeFixed 20 "invalid from bitmap value" body).map .sentFrom
  | .hasTransfer => decodeFlag body .hasTransfer
  | .selector => (decodeFixed 4 "invalid selector bitmap value" body).map .selector
  | .sentTo => (decodeFixed 20 "invalid to bitmap value" body).map .sentTo
  | .topLevel => decodeFlag body .topLevel
  | .topic0 => (decodeTopic body).map .topic0
  | .topic1 => (decodeTopic body).map .topic1
  | .topic2 => (decodeTopic body).map .topic2
  | .topic3 => (decodeTopic body).map .topic3
  | .miner => (decodeFixed 20 "invalid miner bitmap value" body).map .miner

/-- `BitmapFilterValue::decode`. -/
def BitmapFilterValue.decode : Bytes → Except QueryError BitmapFilterValue
  | [] => .error (.decode "empty bitmap filter value")
  | tag :: body =>
    match BitmapFilterKind.ofByte tag with
    | none => .error (.decode "invalid bitmap filter value kind")
    | some kind => kind.decodeBody body

theorem decodeFixed_eq_ok {n : ℕ} {message : String} {body : Bytes} {value : FixedBytes n} :
    decodeFixed n message body = .ok value ↔ value.1 = body := by
  unfold decodeFixed
  split_ifs with h
  · rw [Except.ok.injEq, eq_comm, Subtype.ext_iff]
  · simp only [false_iff]
    rintro rfl
    exact h value.2

theorem decodeFlag_eq_ok {body : Bytes} {value value' : BitmapFilterValue} :
    decodeFlag body value = .ok value' ↔ value = value' ∧ [] = body := by
  unfold decodeFlag
  split_ifs with h
  · rw [Except.ok.injEq, eq_comm (a := []), ← List.isEmpty_iff, and_iff_left h]
  · simp only [false_iff, not_and]
    rintro - rfl
    exact h rfl

/-- **A filter is told** from its kind and its body. -/
theorem BitmapFilterKind.decodeBody_eq_ok {kind : BitmapFilterKind} {body : Bytes}
    {value : BitmapFilterValue} :
    kind.decodeBody body = .ok value ↔ value.kind = kind ∧ value.body = body := by
  cases kind <;>
    simp only [decodeBody, decodeTopic, map_eq_ok, decodeFixed_eq_ok, decodeFlag_eq_ok] <;>
    cases value <;> simp [BitmapFilterValue.kind, BitmapFilterValue.body, eq_comm]

/-- **A byte string is read as a filter** exactly when it is its coding. -/
theorem BitmapFilterValue.decode_eq_ok {bytes : Bytes} {value : BitmapFilterValue} :
    BitmapFilterValue.decode bytes = .ok value ↔ value.encode = bytes := by
  cases bytes with
  | nil => simp [decode, encode]
  | cons tag body =>
    rw [encode, List.cons.injEq]
    unfold decode
    dsimp only
    rcases hkind : BitmapFilterKind.ofByte tag with _ | kind
    · simp only [reduceCtorEq, false_iff, not_and]
      rintro rfl
      rw [BitmapFilterKind.ofByte_toByte] at hkind
      cases hkind
    · obtain rfl := BitmapFilterKind.toByte_of_ofByte hkind
      dsimp only
      rw [BitmapFilterKind.decodeBody_eq_ok]
      refine and_congr_left fun _ => ⟨fun h => by rw [h], fun h => ?_⟩
      have htag := congrArg BitmapFilterKind.ofByte h
      rw [BitmapFilterKind.ofByte_toByte, BitmapFilterKind.ofByte_toByte] at htag
      exact Option.some.inj htag

/-! ### Byte strings -/

/-- `Family::try_from`, with the error of a decoder. -/
def decodeFamily (message : String) (b : UInt8) : Except QueryError Family :=
  match Family.ofByte b with
  | none => .error (.decode message)
  | some family => .ok family

theorem decodeFamily_eq_ok {message : String} {b : UInt8} {family : Family} :
    decodeFamily message b = .ok family ↔ family.toByte = b := by
  rw [← Family.ofByte_eq_some]
  unfold decodeFamily
  rcases Family.ofByte b with _ | family'
  · simp
  · simp

/-- `BitmapIndexKey::encode`. -/
def BitmapIndexKey.encode (key : BitmapIndexKey) : Bytes :=
  key.family.toByte :: (key.filter.encode ++ toBe 8 key.page)

/-- `BitmapIndexKey::decode`. -/
def BitmapIndexKey.decode (bytes : Bytes) : Except QueryError BitmapIndexKey :=
  if bytes.length < 10 then .error (.decode "invalid bitmap key")
  else do
    let family ← decodeFamily "invalid family tag" (bytes.getD 0 0)
    let filter ← BitmapFilterValue.decode ((bytes.take (bytes.length - 8)).drop 1)
    .ok ⟨family, filter, ofBe (bytes.drop (bytes.length - 8))⟩

/-- `PayloadKey::encode`: the length is cut to a `u32`. -/
def PayloadKey.encode (key : PayloadKey) : Bytes :=
  key.family.toByte :: (toBe 4 (key.key.length % 2 ^ 32) ++ key.key)

/-- `PayloadKey::decode`. -/
def PayloadKey.decode (bytes : Bytes) : Except QueryError PayloadKey :=
  if bytes.length < 5 then .error (.decode "invalid payload key")
  else if bytes.length ≠ 5 + ofBe ((bytes.drop 1).take 4) then
    .error (.decode "invalid payload key length")
  else do
    let family ← decodeFamily "invalid family tag" (bytes.getD 0 0)
    .ok ⟨family, bytes.drop 5⟩

/-- The key of the location of a payload. -/
structure PayloadLocationKey where
  family : Family
  id : UInt64
  deriving DecidableEq

/-- `PayloadLocationKey::encode`. -/
def PayloadLocationKey.encode (key : PayloadLocationKey) : Bytes :=
  key.family.toByte :: toBe 8 key.id.toNat

/-- `PayloadLocationKey::decode`. -/
def PayloadLocationKey.decode (bytes : Bytes) : Except QueryError PayloadLocationKey :=
  if bytes.length ≠ 9 then .error (.decode "invalid payload location key")
  else do
    let family ← decodeFamily "invalid family tag" (bytes.getD 0 0)
    .ok ⟨family, UInt64.ofNat (ofBe (bytes.drop 1))⟩

/-- A number of `w` bytes is that of its bytes. -/
theorem toBe_ofBe (bytes : Bytes) : toBe bytes.length (ofBe bytes) = bytes := by
  induction bytes using List.reverseRecOn with
  | nil => rfl
  | append_singleton bytes b ih =>
    have hb := b.toNat_lt
    rw [List.length_append, List.length_singleton, toBe, ofBe_concat,
      show (ofBe bytes * 256 + b.toNat) / 256 = ofBe bytes by omega,
      show (ofBe bytes * 256 + b.toNat) % 256 = b.toNat by omega, ih, UInt8.ofNat_toNat]

/-- **A byte string is read as the key of a page** exactly when it is its coding. -/
theorem BitmapIndexKey.decode_eq_ok {bytes : Bytes} {key : BitmapIndexKey} :
    BitmapIndexKey.decode bytes = .ok key ↔ key.page < 2 ^ 64 ∧ key.encode = bytes := by
  unfold decode
  constructor
  · intro h
    split_ifs at h with hlen
    obtain ⟨family, hfamily, h⟩ := bind_eq_ok.mp h
    obtain ⟨filter, hfilter, h⟩ := bind_eq_ok.mp h
    rw [decodeFamily_eq_ok] at hfamily
    rw [BitmapFilterValue.decode_eq_ok] at hfilter
    obtain rfl := Except.ok.inj h
    have hpage : (bytes.drop (bytes.length - 8)).length = 8 := by
      rw [List.length_drop]
      omega
    have hlt := ofBe_lt (bytes.drop (bytes.length - 8))
    have hbe := toBe_ofBe (bytes.drop (bytes.length - 8))
    rw [hpage] at hlt hbe
    refine ⟨by omega, ?_⟩
    obtain ⟨tag, rest, rfl⟩ : ∃ tag rest, bytes = tag :: rest :=
      List.exists_cons_of_ne_nil (by rintro rfl; exact hlen (by decide))
    rw [List.length_cons] at hlen hbe hfilter
    rw [show rest.length + 1 - 8 = rest.length - 8 + 1 by omega, List.take_succ_cons,
      List.drop_succ_cons, List.drop_zero] at hfilter
    rw [show rest.length + 1 - 8 = rest.length - 8 + 1 by omega, List.drop_succ_cons] at hbe
    rw [encode]
    dsimp only
    rw [hfamily, hfilter, List.length_cons, show rest.length + 1 - 8 = rest.length - 8 + 1 by omega,
      List.drop_succ_cons, hbe, List.take_append_drop]
    rfl
  · rintro ⟨hpage, rfl⟩
    obtain ⟨family, filter, page⟩ := key
    dsimp only at hpage
    have hlength : (encode ⟨family, filter, page⟩).length = filter.encode.length + 9 := by
      rw [encode, List.length_cons, List.length_append, length_toBe]
    have hpos : 0 < filter.encode.length := by
      rw [BitmapFilterValue.encode, List.length_cons]
      exact Nat.succ_pos _
    have htake : ((encode ⟨family, filter, page⟩).take
        ((encode ⟨family, filter, page⟩).length - 8)).drop 1 = filter.encode := by
      rw [hlength, show filter.encode.length + 9 - 8 = filter.encode.length + 1 by omega, encode,
        List.take_succ_cons, List.drop_succ_cons, List.drop_zero, List.take_left]
    have hdrop : (encode ⟨family, filter, page⟩).drop
        ((encode ⟨family, filter, page⟩).length - 8) = toBe 8 page := by
      rw [hlength, show filter.encode.length + 9 - 8 = filter.encode.length + 1 by omega, encode,
        List.drop_succ_cons, List.drop_left]
    have hfamily : decodeFamily "invalid family tag"
        ((encode ⟨family, filter, page⟩).getD 0 0) = .ok family := decodeFamily_eq_ok.mpr rfl
    rw [if_neg (by omega), hfamily, htake, hdrop, BitmapFilterValue.decode_eq_ok.mpr rfl,
      ofBe_toBe (by omega)]
    rfl

/-- **A byte string is read as the key of a payload** exactly when it is its coding, and its length
is written in full. -/
theorem PayloadKey.decode_eq_ok {bytes : Bytes} {key : PayloadKey} :
    PayloadKey.decode bytes = .ok key ↔ key.key.length < 2 ^ 32 ∧ key.encode = bytes := by
  unfold decode
  constructor
  · intro h
    split_ifs at h with hlen hkey
    obtain ⟨family, hfamily, h⟩ := bind_eq_ok.mp h
    rw [decodeFamily_eq_ok] at hfamily
    obtain rfl := Except.ok.inj h
    rw [not_ne_iff] at hkey
    have hfour : ((bytes.drop 1).take 4).length = 4 := by
      rw [List.length_take, List.length_drop]
      omega
    have hlt := ofBe_lt ((bytes.drop 1).take 4)
    have hbe := toBe_ofBe ((bytes.drop 1).take 4)
    rw [hfour] at hlt hbe
    have hlength : (bytes.drop 5).length = ofBe ((bytes.drop 1).take 4) := by
      rw [List.length_drop]
      omega
    refine ⟨by rw [hlength]; omega, ?_⟩
    obtain ⟨tag, rest, rfl⟩ : ∃ tag rest, bytes = tag :: rest :=
      List.exists_cons_of_ne_nil (by rintro rfl; exact hlen (by decide))
    rw [encode]
    dsimp only
    rw [hfamily, hlength, Nat.mod_eq_of_lt (by omega), hbe, List.drop_succ_cons, List.drop_zero,
      List.drop_succ_cons, List.take_append_drop]
    rfl
  · rintro ⟨hkey, rfl⟩
    obtain ⟨family, key⟩ := key
    dsimp only at hkey
    have hlength : (encode ⟨family, key⟩).length = 5 + key.length := by
      rw [encode, List.length_cons, List.length_append, length_toBe]
      show 4 + key.length + 1 = 5 + key.length
      omega
    have hfour : ((encode ⟨family, key⟩).drop 1).take 4 = toBe 4 key.length := by
      rw [encode, List.drop_succ_cons, List.drop_zero, Nat.mod_eq_of_lt hkey,
        List.take_left' (length_toBe 4 _)]
    have hdrop : (encode ⟨family, key⟩).drop 5 = key := by
      rw [encode, List.drop_succ_cons, List.drop_left' (length_toBe 4 _)]
    have hfamily : decodeFamily "invalid family tag" ((encode ⟨family, key⟩).getD 0 0) =
        .ok family := decodeFamily_eq_ok.mpr rfl
    rw [if_neg (by omega), hfour, ofBe_toBe (by omega), if_neg (by simpa using hlength), hfamily,
      hdrop]
    rfl

/-- **A byte string is read as the key of a location** exactly when it is its coding. -/
theorem PayloadLocationKey.decode_eq_ok {bytes : Bytes} {key : PayloadLocationKey} :
    PayloadLocationKey.decode bytes = .ok key ↔ key.encode = bytes := by
  unfold decode
  constructor
  · intro h
    split_ifs at h with hlen
    rw [not_ne_iff] at hlen
    obtain ⟨family, hfamily, h⟩ := bind_eq_ok.mp h
    rw [decodeFamily_eq_ok] at hfamily
    obtain rfl := Except.ok.inj h
    obtain ⟨tag, rest, rfl⟩ : ∃ tag rest, bytes = tag :: rest :=
      List.exists_cons_of_ne_nil (by rintro rfl; cases hlen)
    have hrest : rest.length = 8 := Nat.succ.inj hlen
    have hlt := ofBe_lt rest
    have hbe := toBe_ofBe rest
    rw [hrest] at hlt hbe
    rw [encode]
    dsimp only
    rw [hfamily, List.drop_succ_cons, List.drop_zero, UInt64.toNat_ofNat',
      Nat.mod_eq_of_lt (by omega), hbe]
    rfl
  · rintro rfl
    obtain ⟨family, id⟩ := key
    have hid := id.toNat_lt
    have hlength : (encode ⟨family, id⟩).length = 9 := by
      rw [encode, List.length_cons, length_toBe]
    have hdrop : (encode ⟨family, id⟩).drop 1 = toBe 8 id.toNat := by
      rw [encode, List.drop_succ_cons, List.drop_zero]
    have hfamily : decodeFamily "invalid family tag" ((encode ⟨family, id⟩).getD 0 0) =
        .ok family := decodeFamily_eq_ok.mpr rfl
    rw [if_neg (by simp [hlength]), hfamily, hdrop, ofBe_toBe (by omega), UInt64.ofNat_toNat]
    rfl

/-! ### Tuples of cells -/

/-- A cell of a key; there is none beyond the end. -/
def cellAt (cells : List Cell) (i : ℕ) : Except Stop CellValue :=
  match cells[i]? with
  | none => .error (.panic "index out of bounds")
  | some cell => .ok cell.value

/-- A number of a key, below a bound. -/
def decodeNumber (bound : ℕ) (invalid message : String) : CellValue → Except Stop ℕ
  | .number value =>
    match parseUnsigned bound value with
    | none => .error (.error (.decode invalid))
    | some n => .ok n
  | _ => .error (.error (.decode message))

/-- The key of the statistics of a page. -/
structure BitmapPageStatsKey where
  family : Family
  filter : BitmapFilterValue
  page : UInt64
  deriving DecidableEq

namespace BitmapPageStatsSchema

/-- `BitmapPageStatsSchema::key`. -/
def key (key : BitmapPageStatsKey) : MetaKey where
  partition := [Cell.newNumber "family" key.family.toByte.toUInt64,
    Cell.newBytes "filter" key.filter.encode]
  clustering := [Cell.newNumber "page" key.page]

/-- The filter of a key. -/
def decodeFilter : CellValue → Except Stop BitmapFilterValue
  | .bytes value => (BitmapFilterValue.decode value).mapError Stop.error
  | _ => .error (.error (.decode "invalid bitmap filter"))

/-- `BitmapPageStatsSchema::decode_key`. -/
def decodeKey (key : MetaKey) : Except Stop BitmapPageStatsKey := do
  let family ← decodeNumber (2 ^ 8) "invalid bitmap family" "invalid bitmap family"
    (← cellAt key.partition 0)
  let filter ← decodeFilter (← cellAt key.partition 1)
  let page ← decodeNumber (2 ^ 64) "invalid bitmap page number" "invalid bitmap stats number"
    (← cellAt key.clustering 0)
  let family ← (decodeFamily "invalid bitmap family" (UInt8.ofNat family)).mapError Stop.error
  .ok ⟨family, filter, UInt64.ofNat page⟩

end BitmapPageStatsSchema

namespace PayloadLocationSchema

/-- `PayloadLocationSchema::key`. -/
def key (key : PayloadLocationKey) : MetaKey where
  partition := [Cell.newNumber "family" key.family.toByte.toUInt64]
  clustering := [Cell.newNumber "primary_id" key.id]

/-- `PayloadLocationSchema::decode_key`. -/
def decodeKey (key : MetaKey) : Except Stop PayloadLocationKey := do
  let family ← decodeNumber (2 ^ 8) "invalid payload family" "invalid payload family"
    (← cellAt key.partition 0)
  let id ← decodeNumber (2 ^ 64) "invalid payload id" "invalid payload id"
    (← cellAt key.clustering 0)
  let family ← (decodeFamily "invalid payload family" (UInt8.ofNat family)).mapError Stop.error
  .ok ⟨family, UInt64.ofNat id⟩

end PayloadLocationSchema

/-- **A plain tuple**: its cells are those of the columns, and its numbers are as they are
written. -/
structure MetaKey.Plain (partition clustering : List String) (key : MetaKey) : Prop where
  partition_eq : key.partition.map Cell.column = partition
  clustering_eq : key.clustering.map Cell.column = clustering
  canonical : ∀ cell ∈ key.partition ++ key.clustering, ∀ s, cell.value = .number s → Canonical s

theorem cellAt_eq_ok {cells : List Cell} {i : ℕ} {value : CellValue} :
    cellAt cells i = .ok value ↔ ∃ column, cells[i]? = some ⟨column, value⟩ := by
  unfold cellAt
  rcases cells[i]? with _ | ⟨column, value'⟩
  · simp
  · simp

theorem decodeNumber_eq_ok {bound n : ℕ} {invalid message : String} {value : CellValue} :
    decodeNumber bound invalid message value = .ok n ↔
      ∃ s, value = .number s ∧ parseUnsigned bound s = some n := by
  cases value with
  | bool value => simp [decodeNumber]
  | bytes value => simp [decodeNumber]
  | number s =>
    unfold decodeNumber
    dsimp only
    rcases hparse : parseUnsigned bound s with _ | n'
    · simp [hparse]
    · simp [hparse]

theorem BitmapPageStatsSchema.decodeFilter_eq_ok {value : CellValue} {filter : BitmapFilterValue} :
    decodeFilter value = .ok filter ↔ value = .bytes filter.encode := by
  cases value with
  | bool value => simp [decodeFilter]
  | number value => simp [decodeFilter]
  | bytes value =>
    unfold decodeFilter
    dsimp only
    rw [mapError_eq_ok, BitmapFilterValue.decode_eq_ok, CellValue.bytes.injEq, eq_comm]

/-- The number of a family is read back. -/
theorem toByte_of_decodeFamily {n : ℕ} {message : String} {family : Family} (hn : n < 2 ^ 8)
    (h : (decodeFamily message (UInt8.ofNat n)).mapError Stop.error = .ok family) :
    family.toByte.toUInt64.toNat = n := by
  rw [mapError_eq_ok, decodeFamily_eq_ok] at h
  rw [h, UInt8.toNat_toUInt64, UInt8.toNat_ofNat', Nat.mod_eq_of_lt hn]

theorem decodeFamily_toNat (message : String) (family : Family) :
    (decodeFamily message (UInt8.ofNat family.toByte.toUInt64.toNat)).mapError Stop.error =
      .ok family := by
  rw [mapError_eq_ok, decodeFamily_eq_ok, UInt8.toNat_toUInt64, UInt8.ofNat_toNat]

/-- A number cell is the written one, if it has the name of the column and the number is as it is
written. -/
theorem newNumber_eq_iff {name column s : String} {n : UInt64} {bound : ℕ}
    (h : parseUnsigned bound s = some n.toNat) :
    Cell.newNumber name n = ⟨column, .number s⟩ ↔ column = name ∧ Canonical s := by
  rw [Cell.newNumber, Cell.mk.injEq, CellValue.number.injEq, repr_eq_iff h, eq_comm]

namespace BitmapPageStatsSchema

/-- **The key of the statistics of a page is read back.** -/
theorem decodeKey_key (k : BitmapPageStatsKey) : decodeKey (key k) = .ok k := by
  obtain ⟨family, filter, page⟩ := k
  have hfamily := family.toByte.toNat_lt
  have hpage := page.toNat_lt
  simp only [decodeKey, bind_eq_ok]
  refine ⟨_, cellAt_eq_ok.mpr ⟨_, rfl⟩, family.toByte.toUInt64.toNat,
    decodeNumber_eq_ok.mpr ⟨_, rfl, parseUnsigned_repr ?_⟩, _, cellAt_eq_ok.mpr ⟨_, rfl⟩, filter,
    decodeFilter_eq_ok.mpr rfl, _, cellAt_eq_ok.mpr ⟨_, rfl⟩, page.toNat,
    decodeNumber_eq_ok.mpr ⟨_, rfl, parseUnsigned_repr hpage⟩, family,
    decodeFamily_toNat _ family, ?_⟩
  · rw [UInt8.toNat_toUInt64]
    exact hfamily
  · rw [UInt64.ofNat_toNat]

/-- **A tuple that is read** is the coding of its key if it is plain. -/
theorem key_eq_iff {t : MetaKey} {k : BitmapPageStatsKey} (h : decodeKey t = .ok k) :
    key k = t ↔ t.Plain ["family", "filter"] ["page"] := by
  simp only [decodeKey, bind_eq_ok] at h
  obtain ⟨_, hcell0, family, hnumber, _, hcell1, filter, hfilter, _, hcell2, page, hpage, family',
    hfamily, h⟩ := h
  obtain rfl := Except.ok.inj h
  obtain ⟨column0, hget0⟩ := cellAt_eq_ok.mp hcell0
  obtain ⟨column1, hget1⟩ := cellAt_eq_ok.mp hcell1
  obtain ⟨column2, hget2⟩ := cellAt_eq_ok.mp hcell2
  obtain ⟨s0, rfl, hs0⟩ := decodeNumber_eq_ok.mp hnumber
  obtain rfl := decodeFilter_eq_ok.mp hfilter
  obtain ⟨s2, rfl, hs2⟩ := decodeNumber_eq_ok.mp hpage
  have hfam := toByte_of_decodeFamily (parseUnsigned_lt hs0) hfamily
  have hpg : (UInt64.ofNat page).toNat = page := by
    rw [UInt64.toNat_ofNat', Nat.mod_eq_of_lt (parseUnsigned_lt hs2)]
  rw [← hfam] at hs0
  rw [← hpg] at hs2
  obtain ⟨partition, clustering⟩ := t
  dsimp only at hget0 hget1 hget2
  constructor
  · intro heq
    rw [key, MetaKey.mk.injEq] at heq
    obtain ⟨rfl, rfl⟩ := heq
    refine ⟨rfl, rfl, fun cell hcell s hs => ?_⟩
    simp only [Cell.newNumber, Cell.newBytes, List.cons_append, List.nil_append, List.mem_cons,
      List.not_mem_nil, or_false] at hcell
    rcases hcell with rfl | rfl | rfl
    · rw [← CellValue.number.inj hs]
      exact canonical_repr _
    · cases hs
    · rw [← CellValue.number.inj hs]
      exact canonical_repr _
  · rintro ⟨hpartition, hclustering, hcanonical⟩
    obtain ⟨cell0, cell1, rfl⟩ : ∃ cell0 cell1, partition = [cell0, cell1] :=
      List.length_eq_two.mp (by simpa using congrArg List.length hpartition)
    obtain ⟨cell2, rfl⟩ : ∃ cell2, clustering = [cell2] :=
      List.length_eq_one_iff.mp (by simpa using congrArg List.length hclustering)
    obtain rfl := Option.some.inj hget0
    obtain rfl := Option.some.inj hget1
    obtain rfl := Option.some.inj hget2
    simp only [List.map_cons, List.map_nil, List.cons.injEq, and_true] at hpartition hclustering
    have hc0 := hcanonical ⟨column0, .number s0⟩ (by simp) s0 rfl
    have hc2 := hcanonical ⟨column2, .number s2⟩ (by simp) s2 rfl
    rw [key, (newNumber_eq_iff hs0).mpr ⟨hpartition.1, hc0⟩,
      (newNumber_eq_iff hs2).mpr ⟨hclustering, hc2⟩, Cell.newBytes, hpartition.2]

end BitmapPageStatsSchema

namespace PayloadLocationSchema

/-- **The key of the location of a payload is read back.** -/
theorem decodeKey_key (k : PayloadLocationKey) : decodeKey (key k) = .ok k := by
  obtain ⟨family, id⟩ := k
  have hfamily := family.toByte.toNat_lt
  have hid := id.toNat_lt
  simp only [decodeKey, bind_eq_ok]
  refine ⟨_, cellAt_eq_ok.mpr ⟨_, rfl⟩, family.toByte.toUInt64.toNat,
    decodeNumber_eq_ok.mpr ⟨_, rfl, parseUnsigned_repr ?_⟩, _, cellAt_eq_ok.mpr ⟨_, rfl⟩, id.toNat,
    decodeNumber_eq_ok.mpr ⟨_, rfl, parseUnsigned_repr hid⟩, family,
    decodeFamily_toNat _ family, ?_⟩
  · rw [UInt8.toNat_toUInt64]
    exact hfamily
  · rw [UInt64.ofNat_toNat]

/-- **A tuple that is read** is the coding of its key if it is plain. -/
theorem key_eq_iff {t : MetaKey} {k : PayloadLocationKey} (h : decodeKey t = .ok k) :
    key k = t ↔ t.Plain ["family"] ["primary_id"] := by
  simp only [decodeKey, bind_eq_ok] at h
  obtain ⟨_, hcell0, family, hnumber, _, hcell1, id, hid, family', hfamily, h⟩ := h
  obtain rfl := Except.ok.inj h
  obtain ⟨column0, hget0⟩ := cellAt_eq_ok.mp hcell0
  obtain ⟨column1, hget1⟩ := cellAt_eq_ok.mp hcell1
  obtain ⟨s0, rfl, hs0⟩ := decodeNumber_eq_ok.mp hnumber
  obtain ⟨s1, rfl, hs1⟩ := decodeNumber_eq_ok.mp hid
  have hfam := toByte_of_decodeFamily (parseUnsigned_lt hs0) hfamily
  have hnum : (UInt64.ofNat id).toNat = id := by
    rw [UInt64.toNat_ofNat', Nat.mod_eq_of_lt (parseUnsigned_lt hs1)]
  rw [← hfam] at hs0
  rw [← hnum] at hs1
  obtain ⟨partition, clustering⟩ := t
  dsimp only at hget0 hget1
  constructor
  · intro heq
    rw [key, MetaKey.mk.injEq] at heq
    obtain ⟨rfl, rfl⟩ := heq
    refine ⟨rfl, rfl, fun cell hcell s hs => ?_⟩
    simp only [Cell.newNumber, List.cons_append, List.nil_append, List.mem_cons,
      List.not_mem_nil, or_false] at hcell
    rcases hcell with rfl | rfl
    · rw [← CellValue.number.inj hs]
      exact canonical_repr _
    · rw [← CellValue.number.inj hs]
      exact canonical_repr _
  · rintro ⟨hpartition, hclustering, hcanonical⟩
    obtain ⟨cell0, rfl⟩ : ∃ cell0, partition = [cell0] :=
      List.length_eq_one_iff.mp (by simpa using congrArg List.length hpartition)
    obtain ⟨cell1, rfl⟩ : ∃ cell1, clustering = [cell1] :=
      List.length_eq_one_iff.mp (by simpa using congrArg List.length hclustering)
    obtain rfl := Option.some.inj hget0
    obtain rfl := Option.some.inj hget1
    simp only [List.map_cons, List.map_nil, List.cons.injEq, and_true] at hpartition hclustering
    have hc0 := hcanonical ⟨column0, .number s0⟩ (by simp) s0 rfl
    have hc1 := hcanonical ⟨column1, .number s1⟩ (by simp) s1 rfl
    rw [key, (newNumber_eq_iff hs0).mpr ⟨hpartition, hc0⟩,
      (newNumber_eq_iff hs1).mpr ⟨hclustering, hc1⟩]

end PayloadLocationSchema

/-! ### All codings -/

/-- **A coding** of keys, on the keys of `D`: a key is read back from what is written, so that no
two have the same, and what is read is what is written if it is in `C`. -/
structure IsCoding {K E ε : Type} (D : Set K) (C : Set E) (encode : K → E)
    (decode : E → Except ε K) : Prop where
  decode_encode : ∀ k ∈ D, decode (encode k) = .ok k
  encode_decode : ∀ e k, decode e = .ok k → (encode k = e ↔ e ∈ C)
  injOn : Set.InjOn encode D

/-- Keys that are read back have different codings. -/
theorem injOn_of_decode {K E ε : Type} {D : Set K} {encode : K → E} {decode : E → Except ε K}
    (h : ∀ k ∈ D, decode (encode k) = .ok k) : Set.InjOn encode D := by
  intro k hk k' hk' heq
  have hread := h k hk
  rw [heq, h k' hk'] at hread
  exact (Except.ok.inj hread).symm

/-- A coding where everything that is read is the written one. -/
theorem isCoding_of_iff {K E ε : Type} {D : Set K} {encode : K → E} {decode : E → Except ε K}
    (h : ∀ e k, decode e = .ok k ↔ k ∈ D ∧ encode k = e) : IsCoding D Set.univ encode decode := by
  have hread : ∀ k ∈ D, decode (encode k) = .ok k := fun k hk => (h _ k).mpr ⟨hk, rfl⟩
  refine ⟨hread, fun e k hk => ?_, injOn_of_decode hread⟩
  exact iff_of_true ((h e k).mp hk).2 (Set.mem_univ e)

/-- No two keys of payloads have the same coding, however long they are. -/
theorem PayloadKey.encode_injective : Function.Injective PayloadKey.encode := by
  intro k k' heq
  obtain ⟨family, key⟩ := k
  obtain ⟨family', key'⟩ := k'
  rw [encode, encode, List.cons.injEq] at heq
  obtain ⟨hfamily, hkey⟩ := heq
  dsimp only at hfamily hkey
  have hsome := Family.ofByte_eq_some.mpr hfamily
  rw [Family.ofByte_eq_some.mpr rfl] at hsome
  rw [Option.some.inj hsome, (List.append_inj hkey (by rw [length_toBe, length_toBe])).2]

/-- **The codings of the keys.** The filters, and the keys of pages, of payloads and of locations,
are coded as byte strings, and what is read is exactly what is written. The keys of the statistics
of pages and of locations are coded as tuples, and what is read is what is written if it is
plain. -/
theorem key_codecs :
    IsCoding Set.univ Set.univ BitmapFilterValue.encode BitmapFilterValue.decode ∧
    IsCoding {key | key.page < 2 ^ 64} Set.univ BitmapIndexKey.encode BitmapIndexKey.decode ∧
    IsCoding {key | key.key.length < 2 ^ 32} Set.univ PayloadKey.encode PayloadKey.decode ∧
    Function.Injective PayloadKey.encode ∧
    IsCoding Set.univ Set.univ PayloadLocationKey.encode PayloadLocationKey.decode ∧
    IsCoding Set.univ {t | t.Plain ["family", "filter"] ["page"]} BitmapPageStatsSchema.key
      BitmapPageStatsSchema.decodeKey ∧
    IsCoding Set.univ {t | t.Plain ["family"] ["primary_id"]} PayloadLocationSchema.key
      PayloadLocationSchema.decodeKey := by
  refine ⟨isCoding_of_iff fun bytes value => ?_,
    isCoding_of_iff fun bytes key => BitmapIndexKey.decode_eq_ok,
    isCoding_of_iff fun bytes key => PayloadKey.decode_eq_ok, PayloadKey.encode_injective,
    isCoding_of_iff fun bytes key => ?_,
    ⟨fun k _ => BitmapPageStatsSchema.decodeKey_key k,
      fun t k h => BitmapPageStatsSchema.key_eq_iff h,
      injOn_of_decode fun k _ => BitmapPageStatsSchema.decodeKey_key k⟩,
    ⟨fun k _ => PayloadLocationSchema.decodeKey_key k,
      fun t k h => PayloadLocationSchema.key_eq_iff h,
      injOn_of_decode fun k _ => PayloadLocationSchema.decodeKey_key k⟩⟩
  · rw [BitmapFilterValue.decode_eq_ok, and_iff_right (Set.mem_univ value)]
  · rw [PayloadLocationKey.decode_eq_ok, and_iff_right (Set.mem_univ key)]

/-- Not every tuple that is read is the one that is written: the number of the page may have
superfluous zeros. -/
theorem not_key_of_decodeKey :
    ¬ ∀ t k, BitmapPageStatsSchema.decodeKey t = .ok k → BitmapPageStatsSchema.key k = t := by
  intro h
  have hkey := h ⟨[⟨"family", .number "1"⟩, ⟨"filter", .bytes [2]⟩], [⟨"page", .number "007"⟩]⟩
    ⟨.transaction, .hasTransfer, 7⟩ rfl
  revert hkey
  decide

end Query

end MonadServices
