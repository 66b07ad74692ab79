import MonadServices.Query.Family

/-!
# Records

A record of any of the four families, with its coding and its filters. The filters of a
trace depend on the frames above it, so that a trace is a record together with the status
of its ancestors; stored traces are decoded to such records **all together**
(`MonadServices.Query.decodeRecords`).
-/

namespace MonadServices

namespace Query

/-- A record of one of the families, with all its filters depend on. -/
inductive Record where
  | blockHeader (item : StoredBlockQueryItem)
  | transaction (item : StoredTxQueryItem)
  | log (item : StoredLogQueryItem)
  | trace (item : TraceWithAncestorStatus)
  deriving DecidableEq

namespace Record

variable (ext : Externals)

/-- The stored coding of a record. -/
def encode : Record → Bytes
  | .blockHeader item => (StoredBlockQueryItem.codec ext).encode item
  | .transaction item => StoredTxQueryItem.codec.encode item
  | .log item => StoredLogQueryItem.codec.encode item
  | .trace item => StoredTraceQueryItem.codec.encode item.trace

/-- `BitmapIndexable::bitmap_filters`. -/
def bitmapFilters : Record → Except QueryError (List BitmapFilterValue)
  | .blockHeader item => item.bitmapFilters
  | .transaction item => item.bitmapFilters ext
  | .log item => item.bitmapFilters
  | .trace item => item.bitmapFilters

/-- The filters of a record; none if they cannot be told. -/
def filters (r : Record) : List BitmapFilterValue :=
  match r.bitmapFilters ext with
  | .ok values => values
  | .error _ => []

variable {ext}

theorem filters_eq {r : Record} {values : List BitmapFilterValue}
    (h : r.bitmapFilters ext = .ok values) : r.filters ext = values := by
  simp [filters, h]

theorem mem_filters {r : Record} {filter : BitmapFilterValue} :
    filter ∈ r.filters ext ↔ ∃ values, r.bitmapFilters ext = .ok values ∧ filter ∈ values := by
  unfold filters
  rcases r.bitmapFilters ext with e | values <;> simp

/-- Every record has a filter. -/
theorem ne_nil_of_bitmapFilters {r : Record} {values : List BitmapFilterValue}
    (h : r.bitmapFilters ext = .ok values) : values ≠ [] := by
  cases r with
  | blockHeader item =>
    obtain rfl := Except.ok.inj h
    simp
  | transaction item =>
    simp only [bitmapFilters, StoredTxQueryItem.bitmapFilters] at h
    split at h
    · cases h
    · obtain rfl := Except.ok.inj h
      simp
  | log item =>
    obtain rfl := Except.ok.inj h
    simp
  | trace item =>
    obtain rfl := Except.ok.inj h
    simp

end Record

/-- The records that payloads of a family code, if all of them can be decoded. -/
def decodeRecords (ext : Externals) (family : Family) (payloads : List Bytes) :
    Option (List Record) :=
  match family with
  | .blockHeader =>
    payloads.mapM fun b => ((StoredBlockQueryItem.codec ext).decode b).map .blockHeader
  | .transaction => payloads.mapM fun b => (StoredTxQueryItem.codec.decode b).map .transaction
  | .log => payloads.mapM fun b => (StoredLogQueryItem.codec.decode b).map .log
  | .trace => (payloads.mapM StoredTraceQueryItem.codec.decode).map fun traces =>
      (fromTraces traces).map .trace

/-- Every payload gives one record. -/
theorem length_decodeRecords {ext : Externals} {family : Family} {payloads : List Bytes}
    {rs : List Record} (h : decodeRecords ext family payloads = some rs) :
    rs.length = payloads.length := by
  cases family with
  | blockHeader => exact (mapM_eq_some.mp h).length_eq.symm
  | transaction => exact (mapM_eq_some.mp h).length_eq.symm
  | log => exact (mapM_eq_some.mp h).length_eq.symm
  | trace =>
    obtain ⟨traces, htraces, rfl⟩ := Option.map_eq_some_iff.mp h
    have hlen := congrArg List.length (map_trace_fromTraces traces)
    rw [List.length_map] at hlen
    rw [List.length_map, hlen, (mapM_eq_some.mp htraces).length_eq]

end Query

end MonadServices
