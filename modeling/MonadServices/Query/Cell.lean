import MonadServices.Lib.Bytes
import MonadServices.Lib.Decimal
import MonadServices.Query.Family

/-!
# Cells

The metadata tables are stored in rows of cells. A cell has the name of its column and a value,
which is a truth value, a number or a byte string; numbers are kept as text. A row is found by its
key, a tuple of cells in two parts. Rows and keys are only taken in batches when their cells have
the same names.
-/

namespace MonadServices

namespace Query

inductive CellValue where
  | bool (value : Bool)
  | number (value : String)
  | bytes (value : Bytes)
  deriving DecidableEq

structure Cell where
  column : String
  value : CellValue
  deriving DecidableEq

/-- `Cell::new_number`. -/
def Cell.newNumber (name : String) (value : UInt64) : Cell := ⟨name, .number value.toNat.repr⟩

/-- `Cell::new_bytes`. -/
def Cell.newBytes (name : String) (value : Bytes) : Cell := ⟨name, .bytes value⟩

/-- The key of a row. -/
structure MetaKey where
  partition : List Cell
  clustering : List Cell
  deriving DecidableEq

structure MetaRow where
  key : MetaKey
  columns : List Cell
  deriving DecidableEq

/-- `same_columns`. -/
def sameColumns (left right : List Cell) : Bool :=
  left.map Cell.column == right.map Cell.column

/-- `MetaKey::has_same_columns`. -/
def MetaKey.hasSameColumns (key other : MetaKey) : Bool :=
  sameColumns key.partition other.partition && sameColumns key.clustering other.clustering

/-- `MetaKey::validate_batch_layout`. -/
def MetaKey.validateBatchLayout (keys : List MetaKey) : Except QueryError Unit :=
  if (keys.zip keys.tail).any fun pair => !pair.1.hasSameColumns pair.2 then
    .error (.invalidRequest "metadata batch keys must have identical ordered columns")
  else .ok ()

/-- `MetaRow::validate_batch_layout`. -/
def MetaRow.validateBatchLayout (rows : List MetaRow) : Except QueryError Unit :=
  if (rows.zip rows.tail).any fun pair =>
      !pair.1.key.hasSameColumns pair.2.key || !sameColumns pair.1.columns pair.2.columns then
    .error (.invalidRequest "metadata batch rows must have identical ordered columns")
  else .ok ()

end Query

end MonadServices
