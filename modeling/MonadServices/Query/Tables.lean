import MonadServices.Lib.Faulty
import MonadServices.Lib.Frontier
import MonadServices.Query.Family

/-!
# The tables of the query index

Eight tables, each a plain map. They are taken together as **one map with a key per
table** (`MonadServices.Query.TableKey`), the way a store keys its rows by table and
key. A row is a value of its table, or a row that the table's decoder refuses: the
writer never writes such a row, but the validator has to face it.

Operations on the tables are programs of `MonadServices.Faulty`: any of them may fail,
and a failed batch may have been applied in part. A program that stops either
returns a `MonadServices.Query.QueryError` or panics.
-/

namespace MonadServices

namespace Query

/-! ### Keys and values -/

/-- A range of primary ids: the records of one family in one block. -/
structure FamilyMetadata where
  firstPrimaryId : ℕ
  count : ℕ
  deriving DecidableEq, Repr

/-- The number of ids a bitmap page spans. -/
def pageSpan : ℕ := 64 * 1024

/-- The key of a bitmap page. -/
structure BitmapIndexKey where
  family : Family
  filter : BitmapFilterValue
  page : ℕ
  deriving DecidableEq

/-- A stored bitmap page: the positions in the page that are set. -/
structure BitmapIndexValue where
  idStart : ℕ
  idEnd : ℕ
  bitmap : Finset ℕ
  deriving DecidableEq

/-- The number of records in a payload blob. -/
def itemsPerBlob : ℕ := 1024

/-- The key of a payload blob. -/
structure PayloadKey where
  family : Family
  key : Bytes
  deriving DecidableEq

/-- `PayloadKey::from_id`. -/
def PayloadKey.fromId (family : Family) (id : ℕ) : PayloadKey :=
  ⟨family, toBe 8 (id / itemsPerBlob)⟩

@[simp] theorem PayloadKey.fromId_family (family : Family) (id : ℕ) :
    (PayloadKey.fromId family id).family = family := rfl

/-- **Two ids share a blob** when they are in the same partition. -/
theorem PayloadKey.fromId_inj {family : Family} {id id' : ℕ} (h : id < 2 ^ 64)
    (h' : id' < 2 ^ 64) :
    PayloadKey.fromId family id = PayloadKey.fromId family id' ↔
      id / itemsPerBlob = id' / itemsPerBlob := by
  constructor
  · intro heq
    have hbytes : toBe 8 (id / itemsPerBlob) = toBe 8 (id' / itemsPerBlob) :=
      congrArg PayloadKey.key heq
    exact toBe_injOn (by unfold itemsPerBlob; omega) (by unfold itemsPerBlob; omega) hbytes
  · intro heq
    unfold PayloadKey.fromId
    rw [heq]

/-- `PayloadKey::partition_start`. -/
def partitionStart (id : ℕ) : ℕ := id / itemsPerBlob * itemsPerBlob

/-- What the writer has committed. -/
structure StateIndex where
  indexedStart : Option ℕ
  nextBlockId : ℕ
  nextLogId : ℕ
  nextTxId : ℕ
  nextTraceId : ℕ
  deriving DecidableEq, Repr

/-- `StateIndex::default`. -/
def StateIndex.default : StateIndex := ⟨none, 0, 0, 0, 0⟩

/-- The first id of a family that is not committed. -/
def StateIndex.frontier (s : StateIndex) : Family → ℕ
  | .blockHeader => s.nextBlockId
  | .transaction => s.nextTxId
  | .log => s.nextLogId
  | .trace => s.nextTraceId

/-- The columns of the row that stores a `MonadServices.Query.StateIndex`. -/
structure StateIndexRow where
  indexedStart : ℕ
  nextBlockId : ℕ
  nextLogId : ℕ
  nextTxId : ℕ
  nextTraceId : ℕ
  deriving DecidableEq, Repr

/-- `StateIndexSchema::columns`: an absent start is written as zero. -/
def StateIndex.columns (s : StateIndex) : StateIndexRow :=
  ⟨s.indexedStart.getD 0, s.nextBlockId, s.nextLogId, s.nextTxId, s.nextTraceId⟩

/-- `StateIndexSchema::decode`: the start is always present. -/
def StateIndexRow.decode (r : StateIndexRow) : StateIndex :=
  ⟨some r.indexedStart, r.nextBlockId, r.nextLogId, r.nextTxId, r.nextTraceId⟩

/-- The keys of the eight tables. -/
inductive TableKey where
  | bitmapIndex (key : BitmapIndexKey)
  | pageStats (key : BitmapIndexKey)
  | blockHash (blockHeight : ℕ)
  | family (family : Family) (blockHeight : ℕ)
  | familyBlockIndex (family : Family) (firstPrimaryId : ℕ)
  | payload (key : PayloadKey)
  | payloadLocation (family : Family) (id : ℕ)
  | stateIndex
  deriving DecidableEq

/-- The values of a table: a page, a number of set positions, a hash, a range of
ids, a block height, a blob, the end of a payload in its blob, a state. -/
@[reducible] def TableKey.Value : TableKey → Type
  | .bitmapIndex _ => BitmapIndexValue
  | .pageStats _ => ℕ
  | .blockHash _ => B256
  | .family _ _ => FamilyMetadata
  | .familyBlockIndex _ _ => ℕ
  | .payload _ => Bytes
  | .payloadLocation _ _ => ℕ
  | .stateIndex => StateIndexRow

/-- A row: absent, refused by the decoder, or a value. -/
abbrev TableKey.Row (k : TableKey) : Type := Option (Except QueryError k.Value)

/-- **The content of the tables.** -/
abbrev Tables := ∀ k : TableKey, k.Row

/-- The tables before anything is written. -/
def Tables.empty : Tables := fun _ => none

/-! ### Operations -/

/-- How a program stops early: it returns an error, or it panics. -/
inductive Stop where
  | error (e : QueryError)
  | panic (message : String)
  deriving DecidableEq, Repr

/-- A program over the tables. -/
abbrev StoreM := Faulty Tables Stop

/-- The error of an operation that the store has failed. -/
def storeError : Stop := .error (.backend "store operation failed")

/-- The value of a row, for a decoder that may refuse it. -/
def rowValue {α : Type} : Option (Except QueryError α) → Except QueryError (Option α)
  | none => .ok none
  | some (.ok v) => .ok (some v)
  | some (.error e) => .error e

/-- Reads the value under a key. -/
def get (k : TableKey) : StoreM (Option k.Value) :=
  Faulty.read storeError fun t => (rowValue (t k)).mapError Stop.error

/-- A write to a table. -/
abbrev TableWrite := KeyWrite TableKey.Row

/-- The write of a value. -/
def put (k : TableKey) (v : k.Value) : TableWrite := ⟨k, some (.ok v)⟩

/-- Writes a batch. -/
def putBatch (ws : List TableWrite) : StoreM Unit := Faulty.write storeError applyWrite ws

/-- `MetaTable::seek_le` on the block index: the row with the greatest key that is
at most `id`, and its key. -/
def seekLe (t : Tables) (family : Family) : ℕ → Except QueryError (Option (ℕ × ℕ))
  | 0 =>
    match rowValue (t (.familyBlockIndex family 0)) with
    | .error e => .error e
    | .ok (some block) => .ok (some (0, block))
    | .ok none => .ok none
  | id + 1 =>
    match rowValue (t (.familyBlockIndex family (id + 1))) with
    | .error e => .error e
    | .ok (some block) => .ok (some (id + 1, block))
    | .ok none => seekLe t family id

/-- **A seek finds the last row at or before the id.** -/
theorem seekLe_eq {t : Tables} {family : Family} {id first block : ℕ}
    (hrow : t (.familyBlockIndex family first) = some (.ok block)) (hle : first ≤ id)
    (hnone : ∀ k, first < k → k ≤ id → t (.familyBlockIndex family k) = none) :
    seekLe t family id = .ok (some (first, block)) := by
  induction id with
  | zero =>
    obtain rfl : first = 0 := by omega
    simp [seekLe, hrow, rowValue]
  | succ id ih =>
    rcases Nat.lt_or_ge id first with h | h
    · obtain rfl : first = id + 1 := by omega
      simp [seekLe, hrow, rowValue]
    · have hid := hnone (id + 1) (by omega) le_rfl
      simp only [seekLe, hid, rowValue]
      exact ih h fun k h1 h2 => hnone k h1 (by omega)

/-- A seek finds a row at or before the id. -/
theorem le_of_seekLe {t : Tables} {family : Family} {id first block : ℕ}
    (h : seekLe t family id = .ok (some (first, block))) : first ≤ id := by
  induction id with
  | zero =>
    rcases hrow : t (.familyBlockIndex family 0) with _ | (e | v) <;>
      simp_all [seekLe, rowValue]
  | succ id ih =>
    rcases hrow : t (.familyBlockIndex family (id + 1)) with _ | (e | v)
    · have := ih (by simpa [seekLe, hrow, rowValue] using h)
      omega
    · simp [seekLe, hrow, rowValue] at h
    · simp only [seekLe, hrow, rowValue, Except.ok.injEq, Option.some.injEq,
        Prod.mk.injEq] at h
      omega

/-- A seek that finds a row under the id itself has read it. -/
theorem eq_some_of_seekLe_self {t : Tables} {family : Family} {id block : ℕ}
    (h : seekLe t family id = .ok (some (id, block))) :
    t (.familyBlockIndex family id) = some (.ok block) := by
  cases id with
  | zero =>
    rcases hrow : t (.familyBlockIndex family 0) with _ | (e | v) <;>
      simp_all [seekLe, rowValue]
  | succ id =>
    rcases hrow : t (.familyBlockIndex family (id + 1)) with _ | (e | v)
    · have := le_of_seekLe (t := t) (by simpa [seekLe, hrow, rowValue] using h)
      omega
    · simp [seekLe, hrow, rowValue] at h
    · simpa [seekLe, hrow, rowValue] using h

end Query

end MonadServices
