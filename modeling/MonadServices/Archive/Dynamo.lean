import Mathlib.Data.List.Perm.Subperm
import MonadServices.Archive.TxIndex
import MonadServices.Lib.Chunks

/-!
# The index in DynamoDB

The index of transactions may be a DynamoDB table. Its `bulk_put` cuts the items into batches
and uploads each batch in a task of its own, and **the result of an upload is inside the
result of its task**: a task that has ended normally gives a result whether its upload went
through or not, and `bulk_put` looks at the outer one only. It thus returns `Ok` even if
DynamoDB has refused a batch or has left some of its items unprocessed.

DynamoDB itself is not modelled: what it answers to each request is arbitrary, and it has
stored an item exactly when the request for its batch has succeeded and does not list it
as unprocessed (`MonadServices.Archive.Dynamo.stored`). Then `bulk_put` reports failures
**exactly when there is none to report**, or when one of the tasks is torn down
(`MonadServices.Archive.Dynamo.bulk_put_reports_iff`).
-/

namespace MonadServices

namespace Archive

namespace Dynamo

/-- How many items a request may hold. -/
def writeBatchSize : ℕ := 25

/-- An item of the table, with its two attributes. -/
structure Item (K : Type) where
  txHash : K
  data : Bytes
  deriving DecidableEq

/-- What DynamoDB answers to a request. -/
inductive Reply (K : Type) where
  | failed
  /-- The request has succeeded; the items it has left unprocessed are listed by table. -/
  | done (unprocessedItems : Option (List (String × List (Item K))))

/-- How a task ends that does not return. -/
inductive JoinError where
  | panic (message : String)
  | cancelled
  deriving DecidableEq

/-- A table and what happens to the requests for it, by the number of their batch. -/
structure Table (K : Type) where
  table : String
  /-- Whether the request to put an item can be built. -/
  builds : Item K → Bool
  reply : ℕ → Reply K
  /-- Whether the task of a batch is torn down. -/
  cancelled : ℕ → Bool

section BulkPut

variable {K : Type} [DecidableEq K] (db : Table K)

/-- The items of this table that a reply lists as unprocessed. -/
def unprocessed : Option (List (String × List (Item K))) → List (Item K)
  | none => []
  | some tables => (tables.lookup db.table).getD []

/-- **Uploads a batch.** The outer result is that of the task: a panic ends it. -/
def uploadToDb (values : List (Item K)) (reply : Reply K) :
    Except JoinError (Except String Unit) :=
  if writeBatchSize < values.length then
    .error (.panic s!"Batch size larger than limit = {writeBatchSize}")
  else match reply with
    | .failed => .ok (.error s!"Failed to upload to table {db.table}")
    | .done none => .ok (.ok ())
    | .done (some tables) =>
      if tables.isEmpty then .ok (.ok ())
      else
        let n := (unprocessed db (some tables)).length
        .ok (.error s!"Unprocessed items detected for table {db.table}: {n}. Retrying...")

/-- The requests that can be built; the other items are only logged. -/
def writeRequests (kvs : List (K × Bytes)) : List (Item K) :=
  kvs.filterMap fun kv => if db.builds ⟨kv.1, kv.2⟩ then some ⟨kv.1, kv.2⟩ else none

/-- The batches, with their numbers. -/
def batches (kvs : List (K × Bytes)) : List (List (Item K) × ℕ) :=
  (chunks writeBatchSize (writeRequests db kvs)).zipIdx

/-- The task of a batch. -/
def batchWrite (batch : List (Item K) × ℕ) : Except JoinError (Except String Unit) :=
  if db.cancelled batch.2 then .error .cancelled else uploadToDb db batch.1 (db.reply batch.2)

/-- **Puts several items.** The results of the tasks are joined, and what they hold is
dropped. -/
def bulkPut (kvs : List (K × Bytes)) : Except JoinError PutResult := do
  let _ ← (batches db kvs).mapM (batchWrite db)
  return .written

/-- The items of a batch that DynamoDB has stored. -/
def storedOf (batch : List (Item K) × ℕ) : List (Item K) :=
  match db.reply batch.2 with
  | .failed => []
  | .done unprocessedItems => batch.1.filter (· ∉ unprocessed db unprocessedItems)

/-- **The items that DynamoDB has stored** when all the tasks have ended. -/
def stored (kvs : List (K × Bytes)) : List (Item K) := (batches db kvs).flatMap (storedOf db)

/-- The items that were to be put. -/
def items (kvs : List (K × Bytes)) : List (Item K) := kvs.map fun kv => ⟨kv.1, kv.2⟩

/-- Every item is stored, as often as it was to be put. -/
def AllStored (kvs : List (K × Bytes)) : Prop := (items kvs).Subperm (stored db kvs)

/-- A run without failure: every request can be built, DynamoDB answers every one of them, and
lists no item of the batch as unprocessed. -/
structure Clean (kvs : List (K × Bytes)) : Prop where
  builds : ∀ item ∈ items kvs, db.builds item = true
  replies : ∀ batch ∈ batches db kvs, ∃ unprocessedItems,
    db.reply batch.2 = .done unprocessedItems ∧
      ∀ item ∈ batch.1, item ∉ unprocessed db unprocessedItems

/-- **Indexes a block** into the table. -/
def indexBlock {alloy : Alloy} (db : Table B256) (maxInlineEncodedLen : ℕ) (block : alloy.Block)
    (traces : List Bytes) (receipts : List alloy.Receipt) (offsets : Option (List Offsets)) :
    Except Fault Unit := do
  let requests ← Archive.indexBlock maxInlineEncodedLen block traces receipts offsets
  match bulkPut db requests with
  | .ok _ => return ()
  | .error _ => .error (.error "Error indexing block")

/-! ### When all the tasks return -/

variable {db} {kvs : List (K × Bytes)}

omit [DecidableEq K] in
/-- Every request is in a batch. -/
theorem flatMap_batches : (batches db kvs).flatMap Prod.fst = writeRequests db kvs := by
  rw [List.flatMap_def, batches, List.zipIdx_map_fst]
  exact flatten_chunks (by decide) _

omit [DecidableEq K] in
theorem length_batch {batch : List (Item K) × ℕ} (h : batch ∈ batches db kvs) :
    batch.1.length ≤ writeBatchSize :=
  length_le_of_mem_chunks (by decide) (List.fst_mem_of_mem_zipIdx h)

omit [DecidableEq K] in
/-- The task of a batch returns unless it is torn down: no batch is too large. -/
theorem batchWrite_isOk {batch : List (Item K) × ℕ} (h : batch ∈ batches db kvs) :
    (∃ r, batchWrite db batch = .ok r) ↔ db.cancelled batch.2 = false := by
  unfold batchWrite
  cases hc : db.cancelled batch.2 with
  | true => simp
  | false =>
    simp only [Bool.false_eq_true, if_false, iff_true]
    unfold uploadToDb
    rw [if_neg (Nat.not_lt.mpr (length_batch h))]
    split
    · exact ⟨_, rfl⟩
    · exact ⟨_, rfl⟩
    · split <;> exact ⟨_, rfl⟩

omit [DecidableEq K] in
/-- **`bulk_put` returns `Ok` whatever DynamoDB has answered**, unless a task is torn down. -/
theorem bulkPut_eq_ok :
    bulkPut db kvs = .ok .written ↔ ∀ batch ∈ batches db kvs, db.cancelled batch.2 = false := by
  rw [bulkPut, bind_eq_ok]
  constructor
  · rintro ⟨results, hresults, -⟩ batch hbatch
    exact (batchWrite_isOk hbatch).mp (exists_of_mapM_eq_ok hresults batch hbatch)
  · intro h
    obtain ⟨results, hresults⟩ := exists_mapM_eq_ok fun batch hbatch =>
      (batchWrite_isOk hbatch).mpr (h batch hbatch)
    exact ⟨results, hresults, rfl⟩

omit [DecidableEq K] in
/-- It returns nothing else. -/
theorem eq_written_of_bulkPut {r : PutResult} (h : bulkPut db kvs = .ok r) : r = .written := by
  obtain ⟨results, -, hr⟩ := bind_eq_ok.mp h
  exact (Except.ok.inj hr).symm

/-! ### What is stored -/

/-- Pieces that are cut down and still make up as much as before have not been cut. -/
theorem eq_of_flatMap_sublist {α β : Type} {f g : α → List β} {l : List α}
    (h : ∀ a ∈ l, (f a).Sublist (g a)) :
    ((l.flatMap f).Sublist (l.flatMap g)) ∧
      ((l.flatMap g).length ≤ (l.flatMap f).length → ∀ a ∈ l, f a = g a) := by
  induction l with
  | nil => exact ⟨.slnil, fun _ => by simp⟩
  | cons a l ih =>
    rw [List.forall_mem_cons] at h
    obtain ⟨hsub, heq⟩ := ih h.2
    refine ⟨h.1.append hsub, fun hlen => ?_⟩
    rw [List.flatMap_cons, List.flatMap_cons, List.length_append, List.length_append] at hlen
    have h₁ := h.1.length_le
    have h₂ := hsub.length_le
    exact List.forall_mem_cons.mpr ⟨h.1.eq_of_length_le (by omega), heq (by omega)⟩

theorem storedOf_sublist (batch : List (Item K) × ℕ) : (storedOf db batch).Sublist batch.1 := by
  unfold storedOf
  split
  · exact List.nil_sublist _
  · exact List.filter_sublist

omit [DecidableEq K] in
/-- The requests are the items that can be built. -/
theorem writeRequests_eq : writeRequests db kvs = (items kvs).filter db.builds := by
  rw [items, List.filter_map, writeRequests]
  induction kvs with
  | nil => rfl
  | cons kv kvs ih =>
    rw [List.filterMap_cons, ih, List.filter_cons]
    by_cases hb : db.builds ⟨kv.1, kv.2⟩ = true
    · simp [hb]
    · simp [hb]

/-- A batch is stored whole exactly when its request succeeds and lists none of its items. -/
theorem storedOf_eq_self {batch : List (Item K) × ℕ} (hne : batch.1 ≠ []) :
    storedOf db batch = batch.1 ↔ ∃ unprocessedItems, db.reply batch.2 = .done unprocessedItems ∧
      ∀ item ∈ batch.1, item ∉ unprocessed db unprocessedItems := by
  unfold storedOf
  cases hreply : db.reply batch.2 with
  | failed => simpa using hne.symm
  | done unprocessedItems => simp [List.filter_eq_self]

/-- **Everything is stored exactly when nothing fails.** -/
theorem allStored_iff_clean : AllStored db kvs ↔ Clean db kvs := by
  have hsub : ∀ batch ∈ batches db kvs, (storedOf db batch).Sublist batch.1 :=
    fun batch _ => storedOf_sublist batch
  have hpieces := eq_of_flatMap_sublist hsub
  have hne : ∀ batch ∈ batches db kvs, batch.1 ≠ [] := fun batch hbatch =>
    ne_nil_of_mem_chunks (by decide) (List.fst_mem_of_mem_zipIdx hbatch)
  rw [flatMap_batches] at hpieces
  constructor
  · intro h
    -- The stored items are some of the requests, and these are some of the items.
    have hlen : (items kvs).length ≤ (stored db kvs).length := h.length_le
    have hstored : (stored db kvs).length ≤ (writeRequests db kvs).length :=
      hpieces.1.length_le
    have hfilter : writeRequests db kvs = items kvs := by
      rw [writeRequests_eq]
      exact List.filter_sublist.eq_of_length_le (by rw [← writeRequests_eq]; omega)
    refine ⟨fun item hitem => ?_, fun batch hbatch => ?_⟩
    · rw [writeRequests_eq, List.filter_eq_self] at hfilter
      exact hfilter item hitem
    · refine (storedOf_eq_self (hne batch hbatch)).mp (hpieces.2 ?_ batch hbatch)
      rw [hfilter]
      exact hlen
  · intro h
    have hstored : stored db kvs = items kvs := by
      rw [stored, List.flatMap_congr fun batch hbatch =>
        (storedOf_eq_self (hne batch hbatch)).mpr (h.replies batch hbatch), flatMap_batches,
        writeRequests_eq, List.filter_eq_self]
      exact h.builds
    rw [AllStored, hstored]

/-- **`bulk_put` reports what is lost exactly when nothing is**, or when a task is torn down. -/
theorem bulkPut_reports : (bulkPut db kvs = .ok .written → AllStored db kvs) ↔
    (∃ batch ∈ batches db kvs, db.cancelled batch.2 = true) ∨ Clean db kvs := by
  rw [bulkPut_eq_ok, allStored_iff_clean, imp_iff_not_or]
  simp

end BulkPut

/-! ### The index of a block -/

section IndexBlock

variable {alloy : Alloy}

/-- There is a request for each transaction. -/
theorem keys_indexRequests {max : ℕ} {header : alloy.Header} {offsets : Option (List Offsets)}
    {idx : ℕ} {prev : UInt64} {entries : List (alloy.Tx × Bytes × alloy.Receipt)}
    {requests : List (B256 × Bytes)}
    (h : indexRequests max header offsets idx prev entries = .ok requests) :
    requests.map Prod.fst = entries.map fun entry => alloy.txHash entry.1.tx := by
  induction entries generalizing idx prev requests with
  | nil =>
    cases h
    rfl
  | cons entry entries ih =>
    rw [indexRequests, bind_eq_ok] at h
    obtain ⟨gasUsed, -, h⟩ := h
    obtain ⟨rest, hrest, h⟩ := bind_eq_ok.mp h
    cases h
    rw [List.map_cons, List.map_cons, ih hrest]

theorem keys_indexBlock {max : ℕ} {block : alloy.Block} {traces : List Bytes}
    {receipts : List alloy.Receipt} {offsets : Option (List Offsets)}
    {requests : List (B256 × Bytes)}
    (h : Archive.indexBlock max block traces receipts offsets = .ok requests) :
    requests.map Prod.fst = block.transactions.map fun tx => alloy.txHash tx.tx := by
  unfold Archive.indexBlock at h
  simp only at h
  split at h
  · cases h
  · rename_i hlens
    push Not at hlens
    rw [keys_indexRequests h]
    have hzip : (block.transactions.zip (traces.zip receipts)).map Prod.fst =
        block.transactions := by
      refine List.map_fst_zip ?_
      rw [List.length_zip]
      omega
    conv_rhs => rw [← hzip, List.map_map]
    rfl

variable {K : Type} [DecidableEq K]

variable (alloy) in
/-- **When `bulk_put` reports failures**: it returns `Ok` only if every item is stored exactly
when a task is torn down or no request fails, leaves an item unprocessed or cannot be built. Under
the same condition a block is said to be indexed only if it has an entry for each of its
transactions. -/
theorem bulk_put_reports_iff (db : Table K) (kvs : List (K × Bytes)) :
    ((bulkPut db kvs = .ok .written → AllStored db kvs) ↔
      (∃ batch ∈ batches db kvs, db.cancelled batch.2 = true) ∨ Clean db kvs) ∧
    ∀ (index : Table B256) (max : ℕ) (block : alloy.Block) (traces : List Bytes)
      (receipts : List alloy.Receipt) (offsets : Option (List Offsets))
      (requests : List (B256 × Bytes)),
      Archive.indexBlock max block traces receipts offsets = .ok requests →
      (∃ batch ∈ batches index requests, index.cancelled batch.2 = true) ∨
        Clean index requests →
      indexBlock index max block traces receipts offsets = .ok () →
      ∀ tx ∈ block.transactions, ∃ data, ⟨alloy.txHash tx.tx, data⟩ ∈ stored index requests := by
  refine ⟨bulkPut_reports, fun index max block traces receipts offsets requests hrequests hwhen hok
    tx htx => ?_⟩
  have hall : AllStored index requests := by
    rw [indexBlock, hrequests, ok_bind] at hok
    cases hput : bulkPut index requests with
    | ok r =>
      obtain rfl := eq_written_of_bulkPut hput
      exact bulkPut_reports.mpr hwhen hput
    | error e =>
      rw [hput] at hok
      cases hok
  have hkey : alloy.txHash tx.tx ∈ requests.map Prod.fst := by
    rw [keys_indexBlock hrequests]
    exact List.mem_map_of_mem htx
  obtain ⟨kv, hkv, hkey⟩ := List.mem_map.mp hkey
  refine ⟨kv.2, hall.subset ?_⟩
  rw [← hkey]
  exact List.mem_map_of_mem hkv

/-- A table that answers every request and processes every item. -/
def obliging : Table String where
  table := "tx_index"
  builds := fun _ => true
  reply := fun _ => .done none
  cancelled := fun _ => false

theorem bulk_put_reports_obliging :
    bulkPut obliging [("ab", [1]), ("cd", [2])] = .ok .written ∧
      AllStored obliging [("ab", [1]), ("cd", [2])] := by
  have hok : bulkPut obliging [("ab", [1]), ("cd", [2])] = .ok .written := rfl
  refine ⟨hok, ((bulk_put_reports_iff Alloy.sample obliging _).1.mpr (Or.inr ?_)) hok⟩
  exact ⟨fun _ _ => rfl, fun batch _ => ⟨none, rfl, fun _ _ => List.not_mem_nil⟩⟩

/-- A table that refuses the request. -/
def refusing : Table String := { obliging with reply := fun _ => .failed }

/-- The request for the only batch fails, and `bulk_put` returns `Ok`. -/
theorem lost_batch_reported_ok :
    ¬ ∀ kvs, bulkPut refusing kvs = .ok .written → AllStored refusing kvs := by
  intro h
  have hlost := (h [("ab", [1])] rfl).length_le
  exact absurd hlost (by decide)

end IndexBlock

end Dynamo

end Archive

end MonadServices
