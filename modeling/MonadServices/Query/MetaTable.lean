import MonadServices.Lib.Compare
import MonadServices.Query.KeyCodec

/-!
# Tables of metadata

A table of metadata has a schema, which says what its columns are, how a key is made into a tuple
of cells and how a value is read from the cells of a row. A store is asked for one key or for
many, and what it returns for many keys comes in any order, so that the rows are looked up again
under the keys.

**A list of keys gets what each of its keys gets**
(`MonadServices.Query.MetaTable.getMany_eq_ok_iff`), if the store returns the rows of the keys
and no others (`MonadServices.Query.MetaStore.Answers`).
-/

namespace MonadServices

namespace Query

/-! ### Schemas -/

/-- The kinds of cells. -/
inductive CellType where
  | bool
  | number
  | bytes
  deriving DecidableEq

/-- `CellType::from`. -/
def CellValue.type : CellValue → CellType
  | .bool _ => .bool
  | .number _ => .number
  | .bytes _ => .bytes

structure ColumnDef where
  name : String
  kind : CellType
  deriving DecidableEq

/-- `ColumnDef::new_number`. -/
def ColumnDef.newNumber (name : String) : ColumnDef := ⟨name, .number⟩

/-- `ColumnDef::new_byte`. -/
def ColumnDef.newByte (name : String) : ColumnDef := ⟨name, .bytes⟩

structure MetaTableDef where
  partitionKey : List ColumnDef
  clusteringKey : List ColumnDef
  columns : List ColumnDef

/-- `MetaTableDef::validate_row`. -/
def MetaTableDef.validateRow (rowDef : List ColumnDef) (row : List Cell) : Except QueryError Unit :=
  if rowDef.length ≠ row.length ∨ (rowDef.zip row).any fun pair =>
      pair.1.name != pair.2.column || pair.1.kind != pair.2.value.type then
    .error (.invalidRequest "metadata row does not match table schema")
  else .ok ()

/-- `MetaTableDef::validate_key`. -/
def MetaTableDef.validateKey (definition : MetaTableDef) (key : MetaKey) :
    Except QueryError Unit := do
  validateRow definition.partitionKey key.partition
  validateRow definition.clusteringKey key.clustering

/-- **A number cell as numbers are written** by `Cell::new_number`. -/
def Cell.IsWritten (cell : Cell) : Prop :=
  ∀ s, cell.value = .number s → ∃ n : UInt64, s = n.toNat.repr

theorem Cell.isWritten_newNumber (name : String) (n : UInt64) :
    (Cell.newNumber name n).IsWritten := by
  intro s hs
  exact ⟨n, (CellValue.number.inj hs).symm⟩

theorem Cell.isWritten_newBytes (name : String) (value : Bytes) :
    (Cell.newBytes name value).IsWritten := by
  intro s hs
  cases hs

/-- **The schema of a table.** The keys that it makes have their numbers as they are written. -/
structure MetaTableSchema (Key Value : Type) where
  table : String
  definition : MetaTableDef
  key : Key → MetaKey
  decode : List Cell → Except QueryError Value
  isWritten : ∀ k, ∀ cell ∈ (key k).partition ++ (key k).clustering, cell.IsWritten

/-! ### Reading rows -/

/-- The values of the cells of a row, which have to be those of given columns. -/
def decodeColumns (names : List String) (message : String) (columns : List Cell) :
    Except QueryError (List CellValue) :=
  if columns.map Cell.column = names then .ok (columns.map Cell.value) else .error (.decode message)

/-- A number of a `u64`. -/
def decodeU64 (message : String) : CellValue → Except QueryError ℕ
  | .number value =>
    match parseUnsigned (2 ^ 64) value with
    | none => .error (.decode message)
    | some n => .ok n
  | _ => .error (.decode message)

/-- A number of a `u64` that has to be one of a `u32`. -/
def decodeU32 (message small : String) (value : CellValue) : Except QueryError ℕ := do
  let n ← decodeU64 message value
  if n < 2 ^ 32 then .ok n else .error (.decode small)

/-- The value of a row of one cell. -/
def decodeOne {Value : Type} (name message : String)
    (decode : CellValue → Except QueryError Value) (columns : List Cell) :
    Except QueryError Value := do
  match ← decodeColumns [name] message columns with
  | [value] => decode value
  | _ => .error (.decode message)

/-- `BitmapPageStatsSchema`. -/
def BitmapPageStatsSchema.schema : MetaTableSchema BitmapPageStatsKey ℕ where
  table := "bitmap_page_stats"
  definition := ⟨[.newNumber "family", .newByte "filter"], [.newNumber "page"],
    [.newNumber "count"]⟩
  key := BitmapPageStatsSchema.key
  decode := decodeOne "count" "invalid bitmap page stats"
    (decodeU32 "invalid bitmap stats number" "invalid bitmap page count")
  isWritten := fun k => by
    simp only [BitmapPageStatsSchema.key, List.cons_append, List.nil_append, List.forall_mem_cons]
    exact ⟨Cell.isWritten_newNumber _ _, Cell.isWritten_newBytes _ _, Cell.isWritten_newNumber _ _,
      by simp⟩

/-- `PayloadLocationSchema`. -/
def PayloadLocationSchema.schema : MetaTableSchema PayloadLocationKey ℕ where
  table := "payload_location"
  definition := ⟨[.newNumber "family"], [.newNumber "primary_id"], [.newNumber "offset_end"]⟩
  key := PayloadLocationSchema.key
  decode := decodeOne "offset_end" "invalid payload location columns"
    (decodeU64 "invalid payload location number")
  isWritten := fun k => by
    simp only [PayloadLocationSchema.key, List.cons_append, List.nil_append, List.forall_mem_cons]
    exact ⟨Cell.isWritten_newNumber _ _, Cell.isWritten_newNumber _ _, by simp⟩

structure MetadataFamilyKey where
  family : Family
  blockHeight : UInt64
  deriving DecidableEq

/-- `MetadataFamilySchema::decode`. -/
def MetadataFamilySchema.decode (columns : List Cell) : Except QueryError FamilyMetadata := do
  match ← decodeColumns ["first_primary_id", "row_count"] "invalid family metadata columns"
      columns with
  | [firstPrimaryId, count] => do
    let firstPrimaryId ← decodeU64 "invalid family metadata number" firstPrimaryId
    let count ← decodeU32 "invalid family metadata number" "invalid row count" count
    .ok ⟨firstPrimaryId, count⟩
  | _ => .error (.decode "invalid family metadata columns")

/-- `MetadataFamilySchema`. -/
def MetadataFamilySchema.schema : MetaTableSchema MetadataFamilyKey FamilyMetadata where
  table := "metadata_family"
  definition := ⟨[.newNumber "family"], [.newNumber "block_height"],
    [.newNumber "first_primary_id", .newNumber "row_count"]⟩
  key := fun key => ⟨[.newNumber "family" key.family.toByte.toUInt64],
    [.newNumber "block_height" key.blockHeight]⟩
  decode := MetadataFamilySchema.decode
  isWritten := fun k => by
    simp only [List.cons_append, List.nil_append, List.forall_mem_cons]
    exact ⟨Cell.isWritten_newNumber _ _, Cell.isWritten_newNumber _ _, by simp⟩

structure MetadataFamilyBlockIndexKey where
  family : Family
  firstPrimaryId : UInt64
  deriving DecidableEq

/-- `MetadataFamilyBlockIndexSchema`. -/
def MetadataFamilyBlockIndexSchema.schema : MetaTableSchema MetadataFamilyBlockIndexKey ℕ where
  table := "metadata_family_block_index"
  definition := ⟨[.newNumber "family"], [.newNumber "first_primary_id"],
    [.newNumber "block_height"]⟩
  key := fun key => ⟨[.newNumber "family" key.family.toByte.toUInt64],
    [.newNumber "first_primary_id" key.firstPrimaryId]⟩
  decode := decodeOne "block_height" "invalid family block index columns"
    (decodeU64 "invalid block height")
  isWritten := fun k => by
    simp only [List.cons_append, List.nil_append, List.forall_mem_cons]
    exact ⟨Cell.isWritten_newNumber _ _, Cell.isWritten_newNumber _ _, by simp⟩

/-- A byte string that is a hash. -/
def decodeHash : CellValue → Except QueryError B256
  | .bytes value =>
    if h : value.length = 32 then .ok ⟨value, h⟩ else .error (.decode "invalid block hash")
  | _ => .error (.decode "invalid block hash")

/-- `MetadataBlockHashSchema`, whose keys are the heights of blocks. -/
def MetadataBlockHashSchema.schema : MetaTableSchema UInt64 B256 where
  table := "metadata_block_hash"
  definition := ⟨[.newNumber "id"], [.newNumber "block_height"], [.newByte "block_hash"]⟩
  key := fun blockHeight => ⟨[.newNumber "id" 0], [.newNumber "block_height" blockHeight]⟩
  decode := decodeOne "block_hash" "invalid block hash columns" decodeHash
  isWritten := fun k => by
    simp only [List.cons_append, List.nil_append, List.forall_mem_cons]
    exact ⟨Cell.isWritten_newNumber _ _, Cell.isWritten_newNumber _ _, by simp⟩

/-- `StateIndexSchema::decode`. -/
def StateIndexSchema.decode (columns : List Cell) : Except QueryError StateIndex := do
  let values ← decodeColumns
    ["indexed_start", "next_block_id", "next_log_id", "next_tx_id", "next_trace_id"]
    "invalid state index columns" columns
  match ← values.mapM (decodeU64 "invalid state index Cell::new_number") with
  | [indexedStart, nextBlockId, nextLogId, nextTxId, nextTraceId] =>
    .ok ⟨some indexedStart, nextBlockId, nextLogId, nextTxId, nextTraceId⟩
  | _ => .error (.decode "invalid state index columns")

/-- `StateIndexSchema`, which has one key. -/
def StateIndexSchema.schema : MetaTableSchema Unit StateIndex where
  table := "state_index"
  definition := ⟨[.newNumber "id"], [], [.newNumber "indexed_start", .newNumber "next_block_id",
    .newNumber "next_log_id", .newNumber "next_tx_id", .newNumber "next_trace_id"]⟩
  key := fun _ => ⟨[⟨"id", .number "0"⟩], []⟩
  decode := StateIndexSchema.decode
  isWritten := fun _ => by
    simp only [List.append_nil, List.forall_mem_cons]
    exact ⟨Cell.isWritten_newNumber "id" 0, by simp⟩

/-! ### Tables -/

/-- A store, as one of its tables sees it. -/
structure MetaStore where
  get : MetaKey → Except QueryError (Option MetaRow)
  getMany : List MetaKey → Except QueryError (List MetaRow)

/-- **The rows that a store returns** are an answer to a list of keys: they are those of the keys,
in any order. -/
structure MetaStore.Answers (store : MetaStore) (keys : List MetaKey) (rows : List MetaRow) :
    Prop where
  total : ∀ key ∈ keys, ∃ row, store.get key = .ok row
  sound : ∀ row ∈ rows, store.get row.key = .ok (some row)
  complete : ∀ key ∈ keys, ∀ row, store.get key = .ok (some row) → row.key = key ∧ row ∈ rows

namespace MetaTable

variable {Key Value : Type} (store : MetaStore) (schema : MetaTableSchema Key Value)

/-- `MetaTable::get`. -/
def get (key : Key) : Except QueryError (Option Value) := do
  schema.definition.validateKey (schema.key key)
  match ← store.get (schema.key key) with
  | none => .ok none
  | some row => (schema.decode row.columns).map some

/-- The key in the store, if it fits the schema. -/
def physicalKey (key : Key) : Except QueryError MetaKey := do
  schema.definition.validateKey (schema.key key)
  .ok (schema.key key)

/-- The value of a key among the rows that have been returned. -/
def lookup (rows : List MetaRow) (key : Key) : Except QueryError (Option Value) :=
  match OrdMap.lastPut (rows.map fun row => (row.key, row.columns)) (schema.key key) with
  | none => .ok none
  | some columns => (schema.decode columns).map some

/-- `MetaTable::get_many`. -/
def getMany (keys : List Key) : Except QueryError (List (Option Value)) := do
  let physicalKeys ← keys.mapM (physicalKey schema)
  let rows ← store.getMany physicalKeys
  keys.mapM (lookup schema rows)

theorem physicalKey_eq_ok {schema : MetaTableSchema Key Value} {key : Key} {k : MetaKey} :
    physicalKey schema key = .ok k ↔
      schema.definition.validateKey (schema.key key) = .ok () ∧ k = schema.key key := by
  unfold physicalKey
  rw [bind_eq_ok]
  constructor
  · rintro ⟨⟨⟩, hvalid, hkey⟩
    exact ⟨hvalid, (Except.ok.inj hkey).symm⟩
  · rintro ⟨hvalid, rfl⟩
    exact ⟨(), hvalid, rfl⟩

variable {store schema}

/-- **The keys of a list**, when all of them fit the schema. -/
theorem mapM_physicalKey {keys : List Key} {physicalKeys : List MetaKey} :
    keys.mapM (physicalKey schema) = .ok physicalKeys ↔
      (∀ key ∈ keys, schema.definition.validateKey (schema.key key) = .ok ()) ∧
        physicalKeys = keys.map schema.key := by
  constructor
  · intro h
    obtain ⟨rfl, hkeys⟩ := eq_map_of_mapM (g := schema.key) h
      fun key _ k hk => (physicalKey_eq_ok.mp hk).2
    exact ⟨fun key hkey => (physicalKey_eq_ok.mp (hkeys key hkey)).1, rfl⟩
  · rintro ⟨hvalid, rfl⟩
    exact mapM_eq_ok_map fun key hkey => physicalKey_eq_ok.mpr ⟨hvalid key hkey, rfl⟩

/-- **A key is found among the rows** as it is found in the store, if the rows are an answer. -/
theorem lookup_eq_get {keys : List Key} {rows : List MetaRow}
    (h : store.Answers (keys.map schema.key) rows) {key : Key} (hkey : key ∈ keys)
    (hvalid : schema.definition.validateKey (schema.key key) = .ok ()) :
    lookup schema rows key = get store schema key := by
  have hmem : schema.key key ∈ keys.map schema.key := List.mem_map_of_mem hkey
  obtain ⟨found, hfound⟩ := h.total _ hmem
  -- The rows under the key are what the store returns for it.
  have hunder : ∀ row ∈ rows, row.key = schema.key key → found = some row := by
    intro row hrow heq
    have hrow' := h.sound row hrow
    rw [heq, hfound] at hrow'
    exact Except.ok.inj hrow'
  unfold lookup get
  rw [hvalid, hfound]
  rcases found with _ | row
  · rw [OrdMap.lastPut_eq_none]
    · rfl
    · intro p hp heq
      obtain ⟨row, hrow, rfl⟩ := List.mem_map.mp hp
      cases hunder row hrow heq
  · obtain ⟨heq, hrow⟩ := h.complete _ hmem row hfound
    rw [OrdMap.lastPut_eq_some (v := row.columns)]
    · rfl
    · exact List.mem_map.mpr ⟨row, hrow, by rw [heq]⟩
    · intro p hp hkey'
      obtain ⟨row', hrow', rfl⟩ := List.mem_map.mp hp
      rw [Option.some.inj (hunder row' hrow' hkey')]

/-- **A list of keys gets what each of its keys gets**, if the store answers the lists of keys of
the schema, and does so when it answers each of the keys. -/
theorem getMany_eq_ok_iff {keys : List Key} {values : List (Option Value)}
    (hsound : ∀ rows, (∀ key ∈ keys, schema.definition.validateKey (schema.key key) = .ok ()) →
      store.getMany (keys.map schema.key) = .ok rows → store.Answers (keys.map schema.key) rows)
    (htotal : (∀ key ∈ keys, schema.definition.validateKey (schema.key key) = .ok ()) →
      (∀ key ∈ keys, ∃ row, store.get (schema.key key) = .ok row) →
        ∃ rows, store.getMany (keys.map schema.key) = .ok rows) :
    getMany store schema keys = .ok values ↔
      List.Forall₂ (fun key value => get store schema key = .ok value) keys values := by
  unfold getMany
  simp only [bind_eq_ok]
  constructor
  · rintro ⟨physicalKeys, hkeys, rows, hrows, hvalues⟩
    obtain ⟨hvalid, rfl⟩ := mapM_physicalKey.mp hkeys
    refine forall₂_imp_of_mem (fun key hkey value hvalue => ?_) (mapM_eq_ok.mp hvalues)
    rw [← lookup_eq_get (hsound rows hvalid hrows) hkey (hvalid key hkey)]
    exact hvalue
  · intro hvalues
    have hget : ∀ key ∈ keys, ∃ value, get store schema key = .ok value :=
      exists_of_mapM_eq_ok (mapM_eq_ok.mpr hvalues)
    have hvalid : ∀ key ∈ keys, schema.definition.validateKey (schema.key key) = .ok () := by
      intro key hkey
      obtain ⟨value, hvalue⟩ := hget key hkey
      obtain ⟨⟨⟩, hvalid, -⟩ := bind_eq_ok.mp hvalue
      exact hvalid
    obtain ⟨rows, hrows⟩ := htotal hvalid fun key hkey => by
      obtain ⟨value, hvalue⟩ := hget key hkey
      obtain ⟨⟨⟩, -, hvalue⟩ := bind_eq_ok.mp hvalue
      obtain ⟨row, hrow, -⟩ := bind_eq_ok.mp hvalue
      exact ⟨row, hrow⟩
    refine ⟨_, mapM_physicalKey.mpr ⟨hvalid, rfl⟩, rows, hrows, mapM_eq_ok.mpr ?_⟩
    refine forall₂_imp_of_mem (fun key hkey value hvalue => ?_) hvalues
    rw [lookup_eq_get (hsound rows hvalid hrows) hkey (hvalid key hkey)]
    exact hvalue

end MetaTable

end Query

end MonadServices
