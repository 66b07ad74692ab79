import Mathlib.Data.List.ReduceOption
import MonadServices.Query.MetaTable

/-!
# The metadata store in SQLite

A table of metadata is a table in SQLite whose columns are those of the definition and whose
primary key is made of the key columns, so that no two rows agree on these. What SQLite does is
taken from its documentation: a select returns the rows that satisfy the condition, in any order.
Integers and blobs are bound to the statements, and are equal to a value in a row only if they are
of the same kind and the same.

Many keys are looked up in one statement where all of them are in one partition of one column and
have one more column, unless they are more than a statement may have parameters. Otherwise they
are looked up one by one. The one statement does not tell which row is that of which key, so that
the keys are made again from the rows.

**Many keys are answered as each of them is** (`MonadServices.Query.getMany_sqlite`), for
every content of the table and all lists of keys.
-/

namespace MonadServices

namespace Query

/-! ### Tables -/

/-- A value in a row. A real number is given by its bits. -/
inductive SqlValue where
  | integer (value : ℤ)
  | real (bits : UInt64)
  | text (value : String)
  | blob (value : Bytes)
  deriving DecidableEq

/-- A row, by its columns. -/
abbrev SqlRow := List (String × SqlValue)

/-- The columns of the key. -/
def MetaTableDef.keyColumns (definition : MetaTableDef) : List ColumnDef :=
  definition.partitionKey ++ definition.clusteringKey

/-- **A table in SQLite** that was made for a definition. A select returns the rows that satisfy a
condition, in any order. -/
structure SqliteTable (definition : MetaTableDef) where
  rows : List SqlRow
  columns_eq : ∀ row ∈ rows,
    row.map Prod.fst = (definition.keyColumns ++ definition.columns).map ColumnDef.name
  primaryKey : rows.Pairwise fun a b =>
    ∃ column ∈ definition.keyColumns, a.lookup column.name ≠ b.lookup column.name
  select : (SqlRow → Bool) → List SqlRow
  select_perm : ∀ p, (select p).Perm (rows.filter p)

/-- **The store**: the table, the number of parameters that a statement may have, the definition
that the process has of the table, and the types that the columns are declared with. -/
structure SqliteMetaStore (definition : MetaTableDef) where
  table : SqliteTable definition
  maxVariableNumber : ℕ
  definitions : Option MetaTableDef
  declared : String → String

namespace SqliteMetaStore

/-! ### Statements -/

/-- `SqliteMetaStore::unsupported_column`. -/
def unsupportedColumn (name : String) : QueryError :=
  .backend ("unsupported sqlite column `" ++ name ++ "`")

/-- What is bound for a value, `SqliteMetaStore::bind_values`. -/
def bindValue : CellValue → Except QueryError SqlValue
  | .bool value => .ok (.integer (if value then 1 else 0))
  | .number value =>
    match parseSigned (2 ^ 63) value with
    | none => .error (.invalidRequest "SQLite numbers must be signed 64-bit integers")
    | some n => .ok (.integer n)
  | .bytes value => .ok (.blob value)

/-- A value read as an integer. -/
def getInteger : SqlValue → Option ℤ
  | .integer value => some value
  | _ => none

/-- A value read as a byte string, which a text may be, too. -/
def getBytes : SqlValue → Option Bytes
  | .blob value => some value
  | .text value => some value.toUTF8.toList
  | _ => none

/-- `SqliteMetaStore::equality_predicate`: the columns have the bound values. -/
def equalityPredicate (columns : List Cell) (values : List SqlValue) (row : SqlRow) : Bool :=
  (columns.zip values).all fun pair => row.lookup pair.1.column == some pair.2

/-- The condition of a statement for many keys: a column has the bound value, and another one has
one of the bound values. -/
def inPredicate (partition clustering : String) (value : SqlValue) (values : List SqlValue)
    (row : SqlRow) : Bool :=
  row.lookup partition == some value &&
    values.any fun value => row.lookup clustering == some value

variable {definition : MetaTableDef} (store : SqliteMetaStore definition)

/-- Whether a column is one of truth values. -/
def isBool (name : String) : Bool :=
  match store.definitions.bind fun definition => definition.columns.find? (·.name == name) with
  | some column => column.kind == .bool
  | none => store.declared name == "BOOLEAN"

/-- The cell of a column. -/
def decodeCell (column : String × SqlValue) : Except QueryError Cell :=
  if store.isBool column.1 then
    match getInteger column.2 with
    | some value => .ok ⟨column.1, .bool (value ≠ 0)⟩
    | none => .error (unsupportedColumn column.1)
  else
    match getInteger column.2 with
    | some value => .ok ⟨column.1, .number value.repr⟩
    | none =>
      match getBytes column.2 with
      | some value => .ok ⟨column.1, .bytes value⟩
      | none => .error (unsupportedColumn column.1)

/-- `SqliteMetaStore::decode_row`. -/
def decodeRow (row : SqlRow) (key : MetaKey) : Except QueryError MetaRow := do
  let columns ← (row.filter fun column =>
    !(key.partition ++ key.clustering).any (·.column == column.1)).mapM store.decodeCell
  .ok ⟨key, columns⟩

/-- The value of a row that stands where a cell of the key has a value. -/
def keyValue (name : String) (value : SqlValue) : CellType → Except QueryError CellValue
  | .bool =>
    match getInteger value with
    | some value => .ok (.bool (value ≠ 0))
    | none => .error (unsupportedColumn name)
  | .number =>
    match getInteger value with
    | some value => .ok (.number value.repr)
    | none => .error (unsupportedColumn name)
  | .bytes =>
    match getBytes value with
    | some value => .ok (.bytes value)
    | none => .error (unsupportedColumn name)

/-- `SqliteMetaStore::row_key`. -/
def rowKey (row : SqlRow) (partition : List Cell) (clustering : Cell) :
    Except QueryError MetaKey :=
  match row.lookup clustering.column with
  | none => .error (unsupportedColumn clustering.column)
  | some value => do
    let value ← keyValue clustering.column value clustering.value.type
    .ok ⟨partition, [⟨clustering.column, value⟩]⟩

/-- `SqliteMetaStore::get`. -/
def get (key : MetaKey) : Except QueryError (Option MetaRow) :=
  if key.partition.isEmpty then .error (.invalidRequest "missing partition key")
  else do
    let columns := key.partition ++ key.clustering
    let values ← columns.mapM fun column => bindValue column.value
    match (store.table.select (equalityPredicate columns values)).head? with
    | none => .ok none
    | some row => (store.decodeRow row key).map some

/-- Looks the keys up one by one. -/
def getEach (keys : List MetaKey) : Except QueryError (List MetaRow) := do
  let rows ← keys.mapM store.get
  .ok rows.reduceOption

/-- Looks the keys up in one statement. The columns are those of the first key. -/
def getIn (partition clustering : Cell) (keys : List MetaKey) :
    Except QueryError (List MetaRow) := do
  let value ← bindValue partition.value
  let values ← (keys.flatMap MetaKey.clustering).mapM fun column => bindValue column.value
  let rows := store.table.select (inPredicate partition.column clustering.column value values)
  rows.mapM fun row => do
    let key ← rowKey row [partition] clustering
    store.decodeRow row key

/-- `SqliteMetaStore::get_many`. The keys have the same columns, so that where the first one has
one column beyond the partition, all of them do. -/
def getMany (keys : List MetaKey) : Except QueryError (List MetaRow) := do
  MetaKey.validateBatchLayout keys
  match keys with
  | [] => .ok []
  | first :: _ =>
    match first.partition, first.clustering with
    | [partition], [clustering] =>
      if keys.all (fun key => key.partition == [partition]) &&
          keys.length < store.maxVariableNumber then
        store.getIn partition clustering keys
      else store.getEach keys
    | _, _ => store.getEach keys

/-- The store, as the table sees it. -/
def metaStore : MetaStore := ⟨store.get, store.getMany⟩

end SqliteMetaStore

/-! ### Keys that fit the schema -/

/-- A key that fits the schema, with its numbers as they are written. -/
structure MetaKey.Fits (definition : MetaTableDef) (key : MetaKey) : Prop where
  partition : List.Forall₂ (fun column cell => column.name = cell.column ∧
    column.kind = CellValue.type cell.value) definition.partitionKey key.partition
  clustering : List.Forall₂ (fun column cell => column.name = cell.column ∧
    column.kind = CellValue.type cell.value) definition.clusteringKey key.clustering
  isWritten : ∀ cell ∈ key.partition ++ key.clustering, cell.IsWritten

theorem MetaTableDef.validateRow_eq_ok {rowDef : List ColumnDef} {row : List Cell} :
    MetaTableDef.validateRow rowDef row = .ok () ↔
      List.Forall₂ (fun column cell => column.name = cell.column ∧
        column.kind = CellValue.type cell.value) rowDef row := by
  unfold MetaTableDef.validateRow
  rw [List.forall₂_iff_zip]
  by_cases hlength : rowDef.length = row.length
  · simp only [hlength, ne_eq, not_true_eq_false, false_or, true_and]
    rw [ite_eq_right_iff]
    simp
  · simp [hlength]

theorem MetaKey.fits_of_validateKey {definition : MetaTableDef} {key : MetaKey}
    (h : definition.validateKey key = .ok ())
    (hwritten : ∀ cell ∈ key.partition ++ key.clustering, cell.IsWritten) :
    key.Fits definition := by
  obtain ⟨⟨⟩, hpartition, hclustering⟩ := bind_eq_ok.mp h
  exact ⟨MetaTableDef.validateRow_eq_ok.mp hpartition,
    MetaTableDef.validateRow_eq_ok.mp hclustering, hwritten⟩

theorem map_column_eq {columns : List ColumnDef} {cells : List Cell}
    (h : List.Forall₂ (fun column cell => column.name = cell.column ∧
      column.kind = CellValue.type cell.value) columns cells) :
    cells.map Cell.column = columns.map ColumnDef.name := by
  induction h with
  | nil => rfl
  | cons hcell _ ih => rw [List.map_cons, List.map_cons, hcell.1, ih]

/-- **Keys that fit a schema have the same columns.** -/
theorem MetaKey.validateBatchLayout_eq_ok {definition : MetaTableDef} {keys : List MetaKey}
    (h : ∀ key ∈ keys, key.Fits definition) : MetaKey.validateBatchLayout keys = .ok () := by
  unfold MetaKey.validateBatchLayout
  refine if_neg ?_
  rw [Bool.not_eq_true, List.any_eq_false]
  rintro ⟨key, key'⟩ hpair
  obtain ⟨hkey, hkey'⟩ := List.of_mem_zip hpair
  have hfits := h key hkey
  have hfits' := h key' (List.mem_of_mem_tail hkey')
  simp [MetaKey.hasSameColumns, sameColumns, map_column_eq hfits.partition,
    map_column_eq hfits'.partition, map_column_eq hfits.clustering,
    map_column_eq hfits'.clustering]

namespace SqliteMetaStore

/-- **The value of a key is made again** from what was bound for it. -/
theorem keyValue_of_bindValue {value : CellValue} {bound : SqlValue} (name column : String)
    (hwritten : Cell.IsWritten ⟨column, value⟩) (h : bindValue value = .ok bound) :
    keyValue name bound value.type = .ok value := by
  cases value with
  | bool value =>
    obtain rfl := Except.ok.inj h
    cases value <;> rfl
  | bytes value =>
    obtain rfl := Except.ok.inj h
    rfl
  | number value =>
    obtain ⟨n, rfl⟩ := hwritten value rfl
    unfold bindValue at h
    dsimp only at h
    rw [parseSigned_repr] at h
    split_ifs at h with hlt
    obtain rfl := Except.ok.inj h
    rfl

/-! ### One key -/

variable {definition : MetaTableDef} {store : SqliteMetaStore definition}

/-- **A row of the table that a key is looked up in**: the columns have the values that are bound
for the key. -/
structure Matches (store : SqliteMetaStore definition) (key : MetaKey) (row : SqlRow) : Prop where
  mem : row ∈ store.table.rows
  lookup : ∀ cell ∈ key.partition ++ key.clustering, ∃ value,
    bindValue cell.value = .ok value ∧ row.lookup cell.column = some value

/-- The condition of a statement, when values are bound for all cells. -/
theorem equalityPredicate_iff {columns : List Cell} {values : List SqlValue} {row : SqlRow}
    (h : List.Forall₂ (fun cell value => bindValue cell.value = .ok value) columns values) :
    equalityPredicate columns values row ↔ ∀ cell ∈ columns, ∃ value,
      bindValue cell.value = .ok value ∧ row.lookup cell.column = some value := by
  unfold equalityPredicate
  induction h with
  | nil => simp
  | @cons cell value columns values hvalue _ ih =>
    rw [List.zip_cons_cons, List.all_cons, Bool.and_eq_true, ih, List.forall_mem_cons, beq_iff_eq]
    refine and_congr_left fun _ => ⟨fun hrow => ⟨value, hvalue, hrow⟩, ?_⟩
    rintro ⟨value', hvalue', hrow⟩
    rwa [Except.ok.inj (hvalue.symm.trans hvalue')]

/-- The names of the cells of a key are those of the key columns. -/
theorem exists_cell_of_column {key : MetaKey} (hkey : key.Fits definition) {column : ColumnDef}
    (hcolumn : column ∈ definition.keyColumns) :
    ∃ cell ∈ key.partition ++ key.clustering, cell.column = column.name := by
  have hnames : (key.partition ++ key.clustering).map Cell.column =
      definition.keyColumns.map ColumnDef.name := by
    rw [List.map_append, MetaTableDef.keyColumns, List.map_append, map_column_eq hkey.partition,
      map_column_eq hkey.clustering]
  have hmem : column.name ∈ (key.partition ++ key.clustering).map Cell.column := by
    rw [hnames]
    exact List.mem_map_of_mem hcolumn
  exact List.mem_map.mp hmem

/-- **A key is that of one row** at most. -/
theorem Matches.unique {key : MetaKey} (hkey : key.Fits definition) {row row' : SqlRow}
    (h : store.Matches key row) (h' : store.Matches key row') : row = row' := by
  by_contra hne
  have hsymm : Std.Symm fun a b : SqlRow =>
      ∃ column ∈ definition.keyColumns, a.lookup column.name ≠ b.lookup column.name := by
    constructor
    rintro a b ⟨column, hcolumn, hab⟩
    exact ⟨column, hcolumn, hab.symm⟩
  obtain ⟨column, hcolumn, hrows⟩ := store.table.primaryKey.forall h.mem h'.mem hne
  obtain ⟨cell, hcell, hname⟩ := exists_cell_of_column hkey hcolumn
  obtain ⟨value, hvalue, hrow⟩ := h.lookup cell hcell
  obtain ⟨value', hvalue', hrow'⟩ := h'.lookup cell hcell
  refine hrows ?_
  rw [← hname, hrow, hrow', Except.ok.inj (hvalue.symm.trans hvalue')]

/-- The rows that a statement returns. -/
theorem mem_select {p : SqlRow → Bool} {row : SqlRow} :
    row ∈ store.table.select p ↔ row ∈ store.table.rows ∧ p row := by
  rw [(store.table.select_perm p).mem_iff, List.mem_filter]

/-- What is bound for the cells of a key that is looked up. -/
theorem exists_bindValue_of_get {key : MetaKey} {found : Option MetaRow}
    (h : store.get key = .ok found) :
    key.partition ≠ [] ∧ ∀ cell ∈ key.partition ++ key.clustering, ∃ value,
      bindValue cell.value = .ok value := by
  unfold get at h
  split_ifs at h with hempty
  obtain ⟨values, hvalues, -⟩ := bind_eq_ok.mp h
  rw [List.isEmpty_iff] at hempty
  exact ⟨hempty, exists_of_mapM_eq_ok hvalues⟩

/-- **A key of a row** is looked up by reading the row. -/
theorem get_of_matches {key : MetaKey} (hkey : key.Fits definition) (hne : key.partition ≠ [])
    {row : SqlRow} (h : store.Matches key row) :
    store.get key = (store.decodeRow row key).map some := by
  obtain ⟨values, hvalues⟩ := exists_mapM_eq_ok (l := key.partition ++ key.clustering)
    fun cell hcell => (h.lookup cell hcell).imp fun value hvalue => hvalue.1
  have hbound := mapM_eq_ok.mp hvalues
  have hselect : row ∈ store.table.select
      (equalityPredicate (key.partition ++ key.clustering) values) :=
    mem_select.mpr ⟨h.mem, (equalityPredicate_iff hbound).mpr h.lookup⟩
  obtain ⟨row', hhead⟩ : ∃ row', (store.table.select
      (equalityPredicate (key.partition ++ key.clustering) values)).head? = some row' :=
    ⟨_, List.head?_eq_some_head (List.ne_nil_of_mem hselect)⟩
  obtain ⟨hmem, hrow'⟩ := mem_select.mp (List.mem_of_head? hhead)
  have heq : row' = row := Matches.unique hkey ⟨hmem, (equalityPredicate_iff hbound).mp hrow'⟩ h
  unfold get
  rw [if_neg (by simpa using hne)]
  dsimp only
  rw [hvalues, ok_bind, hhead, heq]

/-- A key of no row is looked up in vain. -/
theorem get_of_not_matches {key : MetaKey} (hne : key.partition ≠ [])
    (hbind : ∀ cell ∈ key.partition ++ key.clustering, ∃ value, bindValue cell.value = .ok value)
    (h : ∀ row, ¬ store.Matches key row) : store.get key = .ok none := by
  obtain ⟨values, hvalues⟩ := exists_mapM_eq_ok hbind
  have hbound := mapM_eq_ok.mp hvalues
  have hselect : store.table.select
      (equalityPredicate (key.partition ++ key.clustering) values) = [] := by
    rw [List.eq_nil_iff_forall_not_mem]
    intro row hrow
    obtain ⟨hmem, hrow⟩ := mem_select.mp hrow
    exact h row ⟨hmem, (equalityPredicate_iff hbound).mp hrow⟩
  unfold get
  rw [if_neg (by simpa using hne)]
  dsimp only
  rw [hvalues, ok_bind, hselect]
  rfl

theorem decodeRow_key {row : SqlRow} {key : MetaKey} {metaRow : MetaRow}
    (h : store.decodeRow row key = .ok metaRow) : metaRow.key = key := by
  obtain ⟨columns, -, hrow⟩ := bind_eq_ok.mp h
  rw [← Except.ok.inj hrow]

/-- **What is found for a key** is a row of the table that has been read. -/
theorem get_eq_some {key : MetaKey} (hkey : key.Fits definition) {metaRow : MetaRow}
    (h : store.get key = .ok (some metaRow)) :
    ∃ row, store.Matches key row ∧ store.decodeRow row key = .ok metaRow := by
  obtain ⟨hne, hbind⟩ := exists_bindValue_of_get h
  by_cases hmatch : ∃ row, store.Matches key row
  · obtain ⟨row, hrow⟩ := hmatch
    rw [get_of_matches hkey hne hrow, map_eq_ok] at h
    obtain ⟨metaRow', hdecode, heq⟩ := h
    exact ⟨row, hrow, Option.some.inj heq ▸ hdecode⟩
  · rw [get_of_not_matches hne hbind (not_exists.mp hmatch)] at h
    cases Except.ok.inj h

theorem key_of_get {key : MetaKey} (hkey : key.Fits definition) {metaRow : MetaRow}
    (h : store.get key = .ok (some metaRow)) : metaRow.key = key := by
  obtain ⟨row, -, hdecode⟩ := get_eq_some hkey h
  exact decodeRow_key hdecode

/-! ### Many keys -/

section Keys

variable {keys : List MetaKey} (hkeys : ∀ key ∈ keys, key.Fits definition)

include hkeys

/-- **Keys that are looked up one by one** are answered. -/
theorem answers_of_getEach {rows : List MetaRow} (h : store.getEach keys = .ok rows) :
    store.metaStore.Answers keys rows := by
  obtain ⟨found, hfound, hrows⟩ := bind_eq_ok.mp h
  obtain rfl := Except.ok.inj hrows
  have hforall := mapM_eq_ok.mp hfound
  have hmem : ∀ row ∈ found.reduceOption, ∃ key ∈ keys, store.get key = .ok (some row) := by
    intro row hrow
    exact exists_of_mem_right hforall (List.reduceOption_mem_iff.mp hrow)
  refine ⟨exists_of_mapM_eq_ok hfound, fun row hrow => ?_, fun key hkey row hrow => ?_⟩
  · obtain ⟨key, hkey, hget⟩ := hmem row hrow
    rw [key_of_get (hkeys key hkey) hget]
    exact hget
  · refine ⟨key_of_get (hkeys key hkey) hrow, List.reduceOption_mem_iff.mpr ?_⟩
    obtain ⟨found', hmem', hget⟩ := exists_of_mem_left hforall hkey
    rwa [← Except.ok.inj (hget.symm.trans hrow)]

omit hkeys in
theorem exists_getEach (h : ∀ key ∈ keys, ∃ row, store.get key = .ok row) :
    ∃ rows, store.getEach keys = .ok rows := by
  obtain ⟨found, hfound⟩ := exists_mapM_eq_ok h
  exact ⟨found.reduceOption, bind_eq_ok.mpr ⟨found, hfound, rfl⟩⟩

section In

variable {partition clustering : Cell}
  (hpartition : ∀ key ∈ keys, key.partition = [partition])
  (hclustering : ∀ key ∈ keys, ∃ value, key.clustering = [⟨clustering.column, value⟩] ∧
    value.type = clustering.value.type)

include hpartition hclustering

/-- **The key of a row is made again** from the row. -/
theorem rowKey_of_matches {key : MetaKey} (hkey : key ∈ keys) {row : SqlRow}
    (h : store.Matches key row) : rowKey row [partition] clustering = .ok key := by
  obtain ⟨value, hvalue, htype⟩ := hclustering key hkey
  have hmem : ⟨clustering.column, value⟩ ∈ key.partition ++ key.clustering := by
    rw [hvalue]
    exact List.mem_append_right _ List.mem_cons_self
  obtain ⟨bound, hbound, hlookup⟩ := h.lookup _ hmem
  have hwritten := (hkeys key hkey).isWritten _ hmem
  unfold rowKey
  rw [hlookup]
  dsimp only
  rw [← htype, keyValue_of_bindValue _ _ hwritten hbound, ok_bind, ← hvalue,
    ← hpartition key hkey]

omit hkeys in
/-- **The rows that the one statement returns** are those of the keys. -/
theorem matches_iff {bound : SqlValue} {values : List SqlValue}
    (hbound : bindValue partition.value = .ok bound)
    (hvalues : (keys.flatMap MetaKey.clustering).mapM (fun column => bindValue column.value) =
      .ok values) {row : SqlRow} :
    row ∈ store.table.select (inPredicate partition.column clustering.column bound values) ↔
      ∃ key ∈ keys, store.Matches key row := by
  have hforall := mapM_eq_ok.mp hvalues
  rw [mem_select, inPredicate, Bool.and_eq_true, beq_iff_eq, List.any_eq_true]
  constructor
  · rintro ⟨hmem, hrow, value, hvalue, hlookup⟩
    obtain ⟨cell, hcell, hvalue⟩ := exists_of_mem_right hforall hvalue
    obtain ⟨key, hkey, hcell⟩ := List.mem_flatMap.mp hcell
    obtain ⟨v, hsingle, -⟩ := hclustering key hkey
    refine ⟨key, hkey, hmem, ?_⟩
    rw [hpartition key hkey, hsingle, List.singleton_append, List.forall_mem_cons,
      List.forall_mem_singleton]
    rw [hsingle, List.mem_singleton] at hcell
    obtain rfl := hcell
    exact ⟨⟨bound, hbound, hrow⟩, ⟨value, hvalue, beq_iff_eq.mp hlookup⟩⟩
  · rintro ⟨key, hkey, hmatch⟩
    obtain ⟨value, hsingle, -⟩ := hclustering key hkey
    have hlookup := hmatch.lookup
    rw [hpartition key hkey, hsingle, List.singleton_append, List.forall_mem_cons,
      List.forall_mem_singleton] at hlookup
    obtain ⟨⟨bound', hbound', hrow⟩, ⟨v, hv, hrow'⟩⟩ := hlookup
    refine ⟨hmatch.mem, ?_, ?_⟩
    · rw [hrow, Except.ok.inj (hbound.symm.trans hbound')]
    · have hin : ⟨clustering.column, value⟩ ∈ keys.flatMap MetaKey.clustering :=
        List.mem_flatMap.mpr ⟨key, hkey, by rw [hsingle]; exact List.mem_cons_self⟩
      obtain ⟨v', hmem', hv'⟩ := exists_of_mem_left hforall hin
      refine ⟨v', hmem', ?_⟩
      rw [beq_iff_eq, hrow', Except.ok.inj (hv.symm.trans hv')]

/-- **Keys that are looked up in one statement** are answered. -/
theorem answers_of_getIn (hne : ∀ key ∈ keys, key.partition ≠ []) {rows : List MetaRow}
    (h : store.getIn partition clustering keys = .ok rows) :
    store.metaStore.Answers keys rows := by
  obtain ⟨bound, hbound, h⟩ := bind_eq_ok.mp h
  obtain ⟨values, hvalues, h⟩ := bind_eq_ok.mp h
  have hselect : ∀ row, row ∈ store.table.select (inPredicate partition.column clustering.column
      bound values) ↔ ∃ key ∈ keys, store.Matches key row :=
    fun row => matches_iff hpartition hclustering hbound hvalues
  have hrows := mapM_eq_ok.mp h
  -- What is read from a row of a key.
  have hread : ∀ key ∈ keys, ∀ row, store.Matches key row → ∃ metaRow ∈ rows,
      store.get key = .ok (some metaRow) := by
    intro key hkey row hmatch
    obtain ⟨metaRow, hmem, hrow⟩ := exists_of_mem_left hrows
      ((hselect row).mpr ⟨key, hkey, hmatch⟩)
    rw [rowKey_of_matches hkeys hpartition hclustering hkey hmatch, ok_bind] at hrow
    refine ⟨metaRow, hmem, ?_⟩
    rw [get_of_matches (hkeys key hkey) (hne key hkey) hmatch, hrow]
    rfl
  have hbind : ∀ key ∈ keys, ∀ cell ∈ key.partition ++ key.clustering,
      ∃ value, bindValue cell.value = .ok value := by
    intro key hkey cell hcell
    rcases List.mem_append.mp hcell with hcell | hcell
    · rw [hpartition key hkey, List.mem_singleton] at hcell
      exact ⟨bound, hcell ▸ hbound⟩
    · exact exists_of_mapM_eq_ok hvalues cell (List.mem_flatMap.mpr ⟨key, hkey, hcell⟩)
  refine ⟨fun key hkey => ?_, fun metaRow hrow => ?_, fun key hkey metaRow hget => ?_⟩
  · by_cases hmatch : ∃ row, store.Matches key row
    · obtain ⟨row, hmatch⟩ := hmatch
      obtain ⟨metaRow, -, hget⟩ := hread key hkey row hmatch
      exact ⟨some metaRow, hget⟩
    · exact ⟨none, get_of_not_matches (hne key hkey) (hbind key hkey) (not_exists.mp hmatch)⟩
  · obtain ⟨row, hmem, hread⟩ := exists_of_mem_right hrows hrow
    obtain ⟨key, hkey, hmatch⟩ := (hselect row).mp hmem
    rw [rowKey_of_matches hkeys hpartition hclustering hkey hmatch, ok_bind] at hread
    change store.get metaRow.key = _
    rw [decodeRow_key hread, get_of_matches (hkeys key hkey) (hne key hkey) hmatch, hread]
    rfl
  · obtain ⟨row, hmatch, -⟩ := get_eq_some (hkeys key hkey) hget
    obtain ⟨metaRow', hmem, hget'⟩ := hread key hkey row hmatch
    have heq := Option.some.inj (Except.ok.inj (hget.symm.trans hget'))
    exact ⟨key_of_get (hkeys key hkey) hget, heq ▸ hmem⟩

theorem exists_getIn (hne : keys ≠ []) (h : ∀ key ∈ keys, ∃ row, store.get key = .ok row) :
    ∃ rows, store.getIn partition clustering keys = .ok rows := by
  have hbind : ∀ key ∈ keys, ∀ cell ∈ key.partition ++ key.clustering,
      ∃ value, bindValue cell.value = .ok value := by
    intro key hkey
    obtain ⟨row, hrow⟩ := h key hkey
    exact (exists_bindValue_of_get hrow).2
  obtain ⟨first, hfirst⟩ := List.exists_mem_of_ne_nil keys hne
  obtain ⟨bound, hbound⟩ := hbind first hfirst partition (by simp [hpartition first hfirst])
  obtain ⟨values, hvalues⟩ := exists_mapM_eq_ok (l := keys.flatMap MetaKey.clustering)
    (f := fun column => bindValue column.value) fun cell hcell => by
      obtain ⟨key, hkey, hcell⟩ := List.mem_flatMap.mp hcell
      exact hbind key hkey cell (List.mem_append_right _ hcell)
  have hselect : ∀ row, row ∈ store.table.select (inPredicate partition.column clustering.column
      bound values) ↔ ∃ key ∈ keys, store.Matches key row :=
    fun row => matches_iff hpartition hclustering hbound hvalues
  obtain ⟨rows, hrows⟩ := exists_mapM_eq_ok (l := store.table.select
      (inPredicate partition.column clustering.column bound values))
    (f := fun row => rowKey row [partition] clustering >>= store.decodeRow row) fun row hrow => by
      obtain ⟨key, hkey, hmatch⟩ := (hselect row).mp hrow
      obtain ⟨found, hfound⟩ := h key hkey
      rw [get_of_matches (hkeys key hkey) (exists_bindValue_of_get hfound).1 hmatch, map_eq_ok]
        at hfound
      obtain ⟨metaRow, hread, -⟩ := hfound
      exact ⟨metaRow, by rw [rowKey_of_matches hkeys hpartition hclustering hkey hmatch, ok_bind,
        hread]⟩
  exact ⟨rows, bind_eq_ok.mpr ⟨bound, hbound, bind_eq_ok.mpr ⟨values, hvalues, hrows⟩⟩⟩

end In

/-- **The clustering of the keys** has one cell, of one column and one kind, if that of one of the
keys does. -/
theorem clustering_eq {first : MetaKey} (hfirst : first ∈ keys) {clustering : Cell}
    (h : first.clustering = [clustering]) : ∀ key ∈ keys, ∃ value,
      key.clustering = [⟨clustering.column, value⟩] ∧ value.type = clustering.value.type := by
  have hfits := (hkeys first hfirst).clustering
  rw [h, List.forall₂_cons_right_iff] at hfits
  obtain ⟨column, columns, ⟨hname, hkind⟩, hnil, hcolumns⟩ := hfits
  rw [List.forall₂_nil_right_iff] at hnil
  obtain rfl := hnil
  intro key hkey
  have hfits := (hkeys key hkey).clustering
  rw [hcolumns, List.forall₂_cons_left_iff] at hfits
  obtain ⟨cell, cells, ⟨hname', hkind'⟩, hnil, hcells⟩ := hfits
  rw [List.forall₂_nil_left_iff] at hnil
  obtain rfl := hnil
  obtain ⟨column', value⟩ := cell
  dsimp only at hname' hkind'
  refine ⟨value, ?_, by rw [← hkind, ← hkind']⟩
  rw [hcells, ← hname, ← hname']

/-- **Many keys that fit the schema** are answered, in one statement or one by one. -/
theorem answers_of_getMany {rows : List MetaRow} (h : store.getMany keys = .ok rows) :
    store.metaStore.Answers keys rows := by
  unfold getMany at h
  rw [MetaKey.validateBatchLayout_eq_ok hkeys, ok_bind] at h
  rcases keys with _ | ⟨first, rest⟩
  · obtain rfl := Except.ok.inj h
    exact ⟨by simp, by simp, by simp⟩
  · dsimp only at h
    split at h
    · rename_i partition clustering hpartition hclustering
      split_ifs at h with hcompatible
      · rw [Bool.and_eq_true, List.all_eq_true] at hcompatible
        have hall : ∀ key ∈ first :: rest, key.partition = [partition] :=
          fun key hkey => beq_iff_eq.mp (hcompatible.1 key hkey)
        refine answers_of_getIn hkeys hall (clustering_eq hkeys List.mem_cons_self hclustering)
          (fun key hkey => ?_) h
        rw [hall key hkey]
        exact List.cons_ne_nil _ _
      · exact answers_of_getEach hkeys h
    · exact answers_of_getEach hkeys h

theorem exists_getMany (h : ∀ key ∈ keys, ∃ row, store.get key = .ok row) :
    ∃ rows, store.getMany keys = .ok rows := by
  unfold getMany
  rw [MetaKey.validateBatchLayout_eq_ok hkeys, ok_bind]
  rcases keys with _ | ⟨first, rest⟩
  · exact ⟨[], rfl⟩
  · dsimp only
    split
    · rename_i partition clustering hpartition hclustering
      split_ifs with hcompatible
      · rw [Bool.and_eq_true, List.all_eq_true] at hcompatible
        exact exists_getIn hkeys (fun key hkey => beq_iff_eq.mp (hcompatible.1 key hkey))
          (clustering_eq hkeys List.mem_cons_self hclustering) (List.cons_ne_nil _ _) h
      · exact exists_getEach h
    · exact exists_getEach h

end Keys

end SqliteMetaStore

/-- **A list of keys gets what each of its keys gets** from SQLite, whatever the table holds, in
whatever order its rows come, however many keys there are and however often they are repeated. -/
theorem getMany_sqlite {Key Value : Type} (schema : MetaTableSchema Key Value)
    (store : SqliteMetaStore schema.definition) (keys : List Key) (values : List (Option Value)) :
    MetaTable.getMany store.metaStore schema keys = .ok values ↔
      List.Forall₂ (fun key value => MetaTable.get store.metaStore schema key = .ok value) keys
        values := by
  have hfits : (∀ key ∈ keys, schema.definition.validateKey (schema.key key) = .ok ()) →
      ∀ key ∈ keys.map schema.key, key.Fits schema.definition := by
    intro hvalid key hkey
    obtain ⟨k, hk, rfl⟩ := List.mem_map.mp hkey
    exact MetaKey.fits_of_validateKey (hvalid k hk) (schema.isWritten k)
  refine MetaTable.getMany_eq_ok_iff (fun rows hvalid hrows => ?_) fun hvalid hget => ?_
  · exact SqliteMetaStore.answers_of_getMany (hfits hvalid) hrows
  · refine SqliteMetaStore.exists_getMany (hfits hvalid) fun key hkey => ?_
    obtain ⟨k, hk, rfl⟩ := List.mem_map.mp hkey
    exact hget k hk

/-- A table whose rows come in the order in which they are listed. -/
def SqliteTable.ofRows (definition : MetaTableDef) (rows : List SqlRow)
    (columns_eq : ∀ row ∈ rows,
      row.map Prod.fst = (definition.keyColumns ++ definition.columns).map ColumnDef.name)
    (primaryKey : rows.Pairwise fun a b =>
      ∃ column ∈ definition.keyColumns, a.lookup column.name ≠ b.lookup column.name) :
    SqliteTable definition where
  rows := rows
  columns_eq := columns_eq
  primaryKey := primaryKey
  select := fun p => rows.filter p
  select_perm := fun _ => .refl _

example : MetaTable.getMany
    (⟨.ofRows PayloadLocationSchema.schema.definition
      [[("family", .integer 2), ("primary_id", .integer 7), ("offset_end", .integer 70)],
        [("family", .integer 2), ("primary_id", .integer 3), ("offset_end", .integer 30)]]
      (by decide) (by decide), 100, none, fun _ => "INTEGER"⟩ :
        SqliteMetaStore PayloadLocationSchema.schema.definition).metaStore
    PayloadLocationSchema.schema [⟨.log, 3⟩, ⟨.log, 5⟩, ⟨.log, 7⟩, ⟨.log, 3⟩] =
      .ok [some 30, none, some 70, some 30] := rfl

end Query

end MonadServices
