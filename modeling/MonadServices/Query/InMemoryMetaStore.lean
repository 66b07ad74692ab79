import Mathlib.Data.String.Basic
import MonadServices.Lib.Compare
import MonadServices.Query.Cell

/-!
# The order of cells and the store in memory

The metadata store in memory keeps its rows in an ordered map, and so relies on the order of the
cells. Truth values come before numbers and numbers before byte strings; two numbers are compared
as the numbers that they are, where both of the texts are numbers of an `i128`, and as texts
otherwise. Two texts of the same number are thus not told apart. Also, since `9` is less than `10`,
which comes before `1a` as a text, which comes before `9`, no order is consistent with all of
these.

**The comparison is an order, and the store returns what was put last**, on those cells on which
neither of these happens (`MonadServices.Query.cmp_lawful_iff`), and on no others.
-/

namespace MonadServices

namespace Query

/-! ### The comparison of cells -/

/-- Reads a number of an `i128`. -/
def parseI128 (s : String) : Option ℤ := parseSigned (2 ^ 127) s

/-- The comparison of two numbers. -/
def compareNumber (a b : String) : Ordering :=
  match parseI128 a, parseI128 b with
  | some m, some n => compare m n
  | _, _ => compare a b

/-- `CellValue::cmp`. -/
def CellValue.cmp : CellValue → CellValue → Ordering
  | .bool a, .bool b => compare a b
  | .number a, .number b => compareNumber a b
  | .bytes a, .bytes b => compare a b
  | .bool _, _ => .lt
  | .number _, .bool _ => .gt
  | .number _, .bytes _ => .lt
  | .bytes _, _ => .gt

/-- The comparison of cells, by the column and then by the value. -/
def Cell.cmp (a b : Cell) : Ordering :=
  comparePair compare CellValue.cmp (a.column, a.value) (b.column, b.value)

/-- The comparison of keys, by the partition and then by the clustering. -/
def MetaKey.cmp (a b : MetaKey) : Ordering :=
  comparePair (List.compareLex Cell.cmp) (List.compareLex Cell.cmp) (a.partition, a.clustering)
    (b.partition, b.clustering)

/-- The keys of the map: the name of a table and a key. -/
abbrev RowKey := String × MetaKey

/-- The comparison of the keys of the map. -/
def RowKey.cmp : RowKey → RowKey → Ordering := comparePair compare MetaKey.cmp

/-! ### The store -/

/-- The rows of the store, in the order of their keys. -/
abbrev InMemoryMetaStore := List (RowKey × MetaRow)

namespace InMemoryMetaStore

/-- `InMemoryMetaStore::get`. -/
def get (store : InMemoryMetaStore) (table : String) (key : MetaKey) : Option MetaRow :=
  OrdMap.find RowKey.cmp store (table, key)

/-- `InMemoryMetaStore::put`. -/
def put (store : InMemoryMetaStore) (table : String) (row : MetaRow) : InMemoryMetaStore :=
  OrdMap.insert RowKey.cmp store (table, row.key) row

/-- `InMemoryMetaStore::put_batch`. -/
def putBatch (store : InMemoryMetaStore) (table : String) (rows : List MetaRow) :
    Except QueryError Unit × InMemoryMetaStore :=
  match MetaRow.validateBatchLayout rows with
  | .error e => (.error e, store)
  | .ok () => (.ok (), rows.foldl (fun store row => put store table row) store)

/-- A write to the store. -/
inductive Write where
  | put (table : String) (row : MetaRow)
  | putBatch (table : String) (rows : List MetaRow)

/-- The store after a write. -/
def write (store : InMemoryMetaStore) : Write → InMemoryMetaStore
  | .put table row => store.put table row
  | .putBatch table rows => (store.putBatch table rows).2

/-- The store after a list of writes, empty at first. -/
def run (writes : List Write) : InMemoryMetaStore := writes.foldl write []

/-- What a write puts, which is nothing when a batch is refused. -/
def Write.rows : Write → List (RowKey × MetaRow)
  | .put table row => [((table, row.key), row)]
  | .putBatch table rows =>
    match MetaRow.validateBatchLayout rows with
    | .error _ => []
    | .ok () => rows.map fun row => ((table, row.key), row)

/-- The rows put by a list of writes, in the order in which they are put. -/
def rows (writes : List Write) : List (RowKey × MetaRow) := writes.flatMap Write.rows

end InMemoryMetaStore

/-- The keys whose values are in `K`. -/
def MetaKey.Over (K : Set CellValue) (key : MetaKey) : Prop :=
  ∀ cell ∈ key.partition ++ key.clustering, cell.value ∈ K

/-- **The law of a store** on the keys whose values are in `K`: after any writes, a key is found
with the row that was put last under it, or not at all. -/
def InMemoryMetaStore.Lawful (K : Set CellValue) : Prop :=
  ∀ writes, (∀ p ∈ rows writes, p.1.2.Over K) → ∀ table (key : MetaKey), key.Over K →
    (run writes).get table key = OrdMap.lastPut (rows writes) (table, key)

/-- **The numbers of a set of values can be ordered**: no two are the same, and no text that is
not a number comes as a text between two numbers in the wrong order. -/
structure NumbersOrdered (K : Set CellValue) : Prop where
  injective : ∀ s t m, .number s ∈ K → .number t ∈ K → parseI128 s = some m →
    parseI128 t = some m → s = t
  between : ∀ s t u m n, .number s ∈ K → .number t ∈ K → .number u ∈ K → parseI128 s = some m →
    parseI128 t = some n → parseI128 u = none → m < n → ¬ (t < u ∧ u < s)

/-! ### When the comparison is an order -/

theorem compareNumber_of_some {a b : String} {m n : ℤ} (ha : parseI128 a = some m)
    (hb : parseI128 b = some n) : compareNumber a b = compare m n := by
  rw [compareNumber, ha, hb]

theorem compareNumber_of_none_left {a b : String} (ha : parseI128 a = none) :
    compareNumber a b = compare a b := by
  rw [compareNumber, ha]

theorem compareNumber_of_none_right {a b : String} (hb : parseI128 b = none) :
    compareNumber a b = compare a b := by
  rw [compareNumber, hb]
  rcases parseI128 a with _ | m <;> rfl

theorem compareNumber_lt_of_some {a b : String} {m n : ℤ} (ha : parseI128 a = some m)
    (hb : parseI128 b = some n) : compareNumber a b = .lt ↔ m < n := by
  rw [compareNumber_of_some ha hb, Std.compare_eq_lt]

theorem compare_string_eq_lt {a b : String} : compare a b = .lt ↔ a < b :=
  compareOfLessAndEq_eq_lt

theorem compareNumber_lt_of_none_left {a b : String} (ha : parseI128 a = none) :
    compareNumber a b = .lt ↔ a < b := by
  rw [compareNumber_of_none_left ha, compare_string_eq_lt]

theorem compareNumber_lt_of_none_right {a b : String} (hb : parseI128 b = none) :
    compareNumber a b = .lt ↔ a < b := by
  rw [compareNumber_of_none_right hb, compare_string_eq_lt]

/-- The comparisons of numbers the two ways around. -/
theorem compareNumber_swap (a b : String) : compareNumber b a = (compareNumber a b).swap := by
  rcases ha : parseI128 a with _ | m
  · rw [compareNumber_of_none_left ha, compareNumber_of_none_right ha, Std.OrientedOrd.eq_swap]
  · rcases hb : parseI128 b with _ | n
    · rw [compareNumber_of_none_left hb, compareNumber_of_none_right hb, Std.OrientedOrd.eq_swap]
    · rw [compareNumber_of_some ha hb, compareNumber_of_some hb ha, Std.OrientedOrd.eq_swap]

/-- Of two texts of which one is a number and the other one is not, one comes before the other. -/
theorem lt_of_not_lt_of_parse {a b : String} (h : parseI128 a ≠ parseI128 b) (hlt : ¬ a < b) :
    b < a :=
  lt_of_le_of_ne (not_lt.mp hlt) fun heq => h (congrArg parseI128 heq.symm)

namespace NumbersOrdered

variable {K : Set CellValue} (h : NumbersOrdered K)

include h

/-- **The comparison of numbers is transitive.** Only where one of three texts is not a number,
and the other two are, do the two ways of comparing meet. -/
theorem compareNumber_trans {a b c : String} (ha : .number a ∈ K) (hb : .number b ∈ K)
    (hc : .number c ∈ K) (hab : compareNumber a b = .lt) (hbc : compareNumber b c = .lt) :
    compareNumber a c = .lt := by
  rcases hpa : parseI128 a with _ | l <;> rcases hpb : parseI128 b with _ | m <;>
    rcases hpc : parseI128 c with _ | n
  case some.some.some =>
    rw [compareNumber_lt_of_some hpa hpb] at hab
    rw [compareNumber_lt_of_some hpb hpc] at hbc
    exact (compareNumber_lt_of_some hpa hpc).mpr (hab.trans hbc)
  case some.some.none =>
    rw [compareNumber_lt_of_some hpa hpb] at hab
    rw [compareNumber_lt_of_none_right hpc] at hbc ⊢
    by_contra hac
    have hca : c < a := lt_of_not_lt_of_parse (by simp [hpa, hpc]) hac
    exact h.between a b c l m ha hb hc hpa hpb hpc hab ⟨hbc, hca⟩
  case some.none.some =>
    rw [compareNumber_lt_of_none_right hpb] at hab
    rw [compareNumber_lt_of_none_left hpb] at hbc
    rw [compareNumber_lt_of_some hpa hpc]
    rcases lt_trichotomy l n with hlt | heq | hgt
    · exact hlt
    · rw [h.injective a c l ha hc hpa (heq ▸ hpc)] at hab
      exact absurd (hab.trans hbc) (lt_irrefl c)
    · exact absurd ⟨hab, hbc⟩ (h.between c a b n l hc ha hb hpc hpa hpb hgt)
  case none.some.some =>
    rw [compareNumber_lt_of_none_left hpa] at hab ⊢
    rw [compareNumber_lt_of_some hpb hpc] at hbc
    by_contra hac
    have hca : c < a := lt_of_not_lt_of_parse (by simp [hpa, hpc]) hac
    exact h.between b c a m n hb hc ha hpb hpc hpa hbc ⟨hca, hab⟩
  case some.none.none =>
    rw [compareNumber_lt_of_none_right hpb] at hab
    rw [compareNumber_lt_of_none_right hpc] at hbc ⊢
    exact hab.trans hbc
  case none.some.none =>
    rw [compareNumber_lt_of_none_left hpa] at hab ⊢
    rw [compareNumber_lt_of_none_right hpc] at hbc
    exact hab.trans hbc
  case none.none.some =>
    rw [compareNumber_lt_of_none_left hpa] at hab ⊢
    rw [compareNumber_lt_of_none_left hpb] at hbc
    exact hab.trans hbc
  case none.none.none =>
    rw [compareNumber_lt_of_none_left hpa] at hab ⊢
    rw [compareNumber_lt_of_none_left hpb] at hbc
    exact hab.trans hbc

/-- Numbers that compare as equal are the same. -/
theorem compareNumber_eq_iff {a b : String} (ha : .number a ∈ K) (hb : .number b ∈ K) :
    compareNumber a b = .eq ↔ a = b := by
  rcases hpa : parseI128 a with _ | m
  · rw [compareNumber_of_none_left hpa, Std.LawfulEqOrd.compare_eq_iff_eq]
  · rcases hpb : parseI128 b with _ | n
    · rw [compareNumber_of_none_right hpb, Std.LawfulEqOrd.compare_eq_iff_eq]
    · rw [compareNumber_of_some hpa hpb, Std.LawfulEqOrd.compare_eq_iff_eq]
      constructor
      · rintro rfl
        exact h.injective a b m ha hb hpa hpb
      · rintro rfl
        exact Option.some.inj (hpa.symm.trans hpb)

/-- **The comparison of values is an order** where the numbers can be ordered. -/
theorem isOrderOn_cmp : IsOrderOn K CellValue.cmp where
  eq_iff := fun a ha b hb => by
    cases a <;> cases b
    case bool.bool a b =>
      rw [CellValue.cmp, Std.LawfulEqOrd.compare_eq_iff_eq, CellValue.bool.injEq]
    case number.number a b =>
      rw [CellValue.cmp, h.compareNumber_eq_iff ha hb, CellValue.number.injEq]
    case bytes.bytes a b =>
      rw [CellValue.cmp, Std.LawfulEqOrd.compare_eq_iff_eq, CellValue.bytes.injEq]
    all_goals simp [CellValue.cmp]
  swap := fun a _ b _ => by
    cases a <;> cases b
    case bool.bool => exact Std.OrientedOrd.eq_swap
    case number.number => exact compareNumber_swap _ _
    case bytes.bytes => exact Std.OrientedOrd.eq_swap
    all_goals rfl
  trans := fun a ha b hb c hc hab hbc => by
    cases a <;> cases b <;> cases c
    case bool.bool.bool a b c => exact IsOrderOn.compare.trans a trivial b trivial c trivial hab hbc
    case number.number.number a b c => exact h.compareNumber_trans ha hb hc hab hbc
    case bytes.bytes.bytes a b c =>
      exact IsOrderOn.compare.trans a trivial b trivial c trivial hab hbc
    all_goals simp_all [CellValue.cmp]

end NumbersOrdered

/-- **The numbers can be ordered** where the comparison is an order. -/
theorem numbersOrdered_of_isOrderOn {K : Set CellValue} (h : IsOrderOn K CellValue.cmp) :
    NumbersOrdered K where
  injective := fun s t m hs ht hps hpt => by
    have heq : CellValue.cmp (.number s) (.number t) = .eq := by
      rw [CellValue.cmp, compareNumber_of_some hps hpt, Std.LawfulEqOrd.compare_eq_iff_eq]
    exact CellValue.number.inj ((h.eq_iff _ hs _ ht).mp heq)
  between := fun s t u m n hs ht hu hps hpt hpu hlt htu => by
    have hst : CellValue.cmp (.number s) (.number t) = .lt :=
      (compareNumber_lt_of_some hps hpt).mpr hlt
    have htu' : CellValue.cmp (.number t) (.number u) = .lt :=
      (compareNumber_lt_of_none_right hpu).mpr htu.1
    have hsu := h.trans _ hs _ ht _ hu hst htu'
    exact lt_asymm ((compareNumber_lt_of_none_right hpu).mp hsu) htu.2

/-! ### What the store returns -/

/-- **The comparison of the keys of the map is an order** where that of the values is. -/
theorem isOrderOn_rowKey {K : Set CellValue} (h : IsOrderOn K CellValue.cmp) :
    IsOrderOn {key : RowKey | key.2.Over K} RowKey.cmp := by
  have hcell : IsOrderOn {cell : Cell | cell.value ∈ K} Cell.cmp := by
    refine (IsOrderOn.compare.pair h).comap (f := fun cell : Cell => (cell.column, cell.value))
      (fun cell hcell => ⟨Set.mem_univ _, hcell⟩) fun a _ b _ hab => ?_
    obtain ⟨hcolumn, hvalue⟩ := Prod.mk.inj hab
    cases a
    cases b
    rw [Cell.mk.injEq]
    exact ⟨hcolumn, hvalue⟩
  have hkey : IsOrderOn {key : MetaKey | key.Over K} MetaKey.cmp := by
    refine (hcell.list.pair hcell.list).comap
      (f := fun key : MetaKey => (key.partition, key.clustering)) (fun key hkey => ?_)
      fun a _ b _ hab => ?_
    · exact List.forall_mem_append.mp hkey
    · obtain ⟨hpartition, hclustering⟩ := Prod.mk.inj hab
      cases a
      cases b
      rw [MetaKey.mk.injEq]
      exact ⟨hpartition, hclustering⟩
  exact (IsOrderOn.compare.pair hkey).mono fun key hkey => ⟨Set.mem_univ _, hkey⟩

namespace InMemoryMetaStore

/-- A write puts its rows. -/
theorem write_eq (store : InMemoryMetaStore) (w : Write) :
    write store w = w.rows.foldl (fun m p => OrdMap.insert RowKey.cmp m p.1 p.2) store := by
  cases w with
  | put table row => rfl
  | putBatch table rows =>
    rcases hlayout : MetaRow.validateBatchLayout rows with e | ⟨⟩
    · simp only [write, putBatch, Write.rows, hlayout, List.foldl_nil]
    · simp only [write, putBatch, Write.rows, hlayout, List.foldl_map]
      rfl

/-- A list of writes puts its rows. -/
theorem run_eq (writes : List Write) : run writes = OrdMap.ofPuts RowKey.cmp (rows writes) := by
  unfold run OrdMap.ofPuts rows
  rw [List.foldl_flatMap]
  congr 1
  funext store w
  exact write_eq store w

/-- **The store is lawful** where the comparison of the values is an order. -/
theorem lawful_of_isOrderOn {K : Set CellValue} (h : IsOrderOn K CellValue.cmp) : Lawful K := by
  intro writes hwrites table key hkey
  rw [run_eq, get, OrdMap.find_ofPuts (isOrderOn_rowKey h) hwrites hkey]

end InMemoryMetaStore

/-! ### When the store returns what was put -/

/-- The key of a table of one column. -/
def singleKey (value : CellValue) : MetaKey := ⟨[], [⟨"", value⟩]⟩

theorem cmp_singleKey (v w : CellValue) :
    RowKey.cmp ("", singleKey v) ("", singleKey w) = v.cmp w := by
  have hself : compare "" "" = Ordering.eq := Std.LawfulEqOrd.compare_eq_iff_eq.mpr rfl
  simp only [RowKey.cmp, MetaKey.cmp, Cell.cmp, comparePair, singleKey, List.compareLex_cons_cons,
    List.compareLex_nil_nil, hself, Ordering.then_eq, Ordering.eq_then]

theorem over_singleKey {K : Set CellValue} {v : CellValue} (hv : v ∈ K) : (singleKey v).Over K := by
  intro cell hcell
  rw [List.mem_singleton.mp hcell]
  exact hv

theorem singleKey_inj {v w : CellValue} (h : singleKey v = singleKey w) : v = w := by
  simpa [singleKey] using h

namespace InMemoryMetaStore

/-- The write of an empty row under a key of one column. -/
def putSingle (value : CellValue) : Write := .put "" ⟨singleKey value, []⟩

theorem rows_putSingle (values : List CellValue) :
    rows (values.map putSingle) = values.map fun v => (("", singleKey v), ⟨singleKey v, []⟩) := by
  rw [rows, List.flatMap_map]
  exact List.flatMap_pure_eq_map _ values

/-- What a lawful store returns after rows are put under keys of one column. -/
theorem Lawful.get_singleKey {K : Set CellValue} (h : Lawful K) (values : List CellValue)
    (hvalues : ∀ v ∈ values, v ∈ K) {v : CellValue} (hv : v ∈ K) :
    (run (values.map putSingle)).get "" (singleKey v) =
      if v ∈ values then some ⟨singleKey v, []⟩ else none := by
  rw [h _ ?_ "" (singleKey v) (over_singleKey hv), rows_putSingle]
  · induction values using List.reverseRecOn with
    | nil => rfl
    | append_singleton values w ih =>
      rw [List.map_append, List.map_singleton, OrdMap.lastPut_concat]
      have hrest : ∀ v ∈ values, v ∈ K := fun v hv => hvalues v (List.mem_append_left _ hv)
      by_cases heq : w = v
      · rw [heq, if_pos rfl, if_pos (by simp)]
      · have hne : ("", singleKey w) ≠ ("", singleKey v) := by
          intro hkey
          exact heq (singleKey_inj (Prod.mk.inj hkey).2)
        rw [if_neg hne, ih hrest]
        simp [Ne.symm heq]
  · intro p hp
    rw [rows_putSingle] at hp
    obtain ⟨w, hw, rfl⟩ := List.mem_map.mp hp
    exact over_singleKey (hvalues w hw)

/-- **The numbers can be ordered** where the store is lawful: a text of a number that is put is
found under the other texts of the number, and, of three texts that cannot be ordered, one is not
found when all have been put. -/
theorem Lawful.numbersOrdered {K : Set CellValue} (h : Lawful K) : NumbersOrdered K where
  injective := fun s t m hs ht hps hpt => by
    have heq : CellValue.cmp (.number t) (.number s) = .eq := by
      rw [CellValue.cmp, compareNumber_of_some hpt hps, Std.LawfulEqOrd.compare_eq_iff_eq]
    have hget := h.get_singleKey [.number s] (by simpa using hs) ht
    rw [run_eq, rows_putSingle, get] at hget
    simp only [List.map_cons, List.map_nil, OrdMap.ofPuts, List.foldl_cons, List.foldl_nil,
      OrdMap.insert, OrdMap.find, cmp_singleKey, heq] at hget
    by_contra hne
    rw [if_neg (by simpa using Ne.symm hne)] at hget
    cases hget
  between := fun s t u m n hs ht hu hps hpt hpu hlt htu => by
    have hts : CellValue.cmp (.number t) (.number s) = .gt := by
      rw [CellValue.cmp, compareNumber_swap, (compareNumber_lt_of_some hps hpt).mpr hlt]
      rfl
    have hus : CellValue.cmp (.number u) (.number s) = .lt :=
      (compareNumber_lt_of_none_left hpu).mpr htu.2
    have htu' : CellValue.cmp (.number t) (.number u) = .lt :=
      (compareNumber_lt_of_none_right hpu).mpr htu.1
    have hget := h.get_singleKey [.number s, .number t, .number u]
      (by simpa using ⟨hs, ht, hu⟩) ht
    rw [if_pos (by simp), run_eq, rows_putSingle, get] at hget
    simp only [List.map_cons, List.map_nil, OrdMap.ofPuts, List.foldl_cons, List.foldl_nil,
      OrdMap.insert, OrdMap.find, cmp_singleKey, hts, hus, htu'] at hget
    cases hget

end InMemoryMetaStore

/-- **The comparison is an order, and the store returns what was put last**, exactly on those sets
of values whose numbers can be ordered. -/
theorem cmp_lawful_iff (K : Set CellValue) :
    (IsOrderOn K CellValue.cmp ↔ NumbersOrdered K) ∧
      (InMemoryMetaStore.Lawful K ↔ NumbersOrdered K) := by
  refine ⟨⟨numbersOrdered_of_isOrderOn, fun h => h.isOrderOn_cmp⟩, ⟨fun h => h.numbersOrdered, ?_⟩⟩
  intro h
  exact InMemoryMetaStore.lawful_of_isOrderOn h.isOrderOn_cmp

/-- The comparison is not an order on all values: `1` and `01` are not told apart. Nor does the
store return what was put: of `9` and `10`, the second is not found any more after `1a` is put. -/
theorem not_cmp_lawful :
    ¬ IsOrderOn Set.univ CellValue.cmp ∧ ¬ InMemoryMetaStore.Lawful Set.univ := by
  constructor
  · intro h
    have heq := (h.eq_iff (.number "1") trivial (.number "01") trivial).mp (by decide)
    revert heq
    decide
  · intro h
    have hget := h [.put "t" ⟨⟨[], [⟨"n", .number "9"⟩]⟩, []⟩,
      .put "t" ⟨⟨[], [⟨"n", .number "10"⟩]⟩, []⟩, .put "t" ⟨⟨[], [⟨"n", .number "1a"⟩]⟩, []⟩]
      (fun _ _ _ _ => trivial) "t" ⟨[], [⟨"n", .number "10"⟩]⟩ fun _ _ => trivial
    revert hget
    decide

end Query

end MonadServices
