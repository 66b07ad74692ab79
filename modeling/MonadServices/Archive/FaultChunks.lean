import MonadServices.Archive.CheckerWorker
import MonadServices.Lib.Decimal
import MonadServices.Lib.Result
import Mathlib.Data.Finset.Lattice.Fold

/-!
# The chunks with faults

The faults of a replica in a chunk are stored under a key that has the name of the replica and the
start of the chunk, with slashes between them. A lookup scans the keys with a prefix and reads the
start of the chunk from the third part of each.

Three things go wrong. A name may have slashes of its own, and then **the third part is not the
start of the chunk**. When only the start of the range is known, the prefix still has its first
digits, so that **later chunks with other digits are not met**. And the end of the last chunk
does not fit `u64`. The prefix of a range with both ends does no harm: numbers with as many digits
as two others, and between them, have their leading digits
(`MonadServices.Archive.FaultChunks.lookup_iff`).
-/

namespace MonadServices

namespace Archive

namespace FaultChunks

open CheckerWorker (chunkSize)

/-! ### The names of replicas -/

/-- How the archive of a replica is reached. -/
inductive ArchiveArgs where
  | aws (bucket : String)
  | mongoDb (url db : String) (replicaName : Option String)
  | fs (path : String)

/-- Hides who logs in, if the address starts here. -/
def redactHere (cs : List Char) : Option (List Char) :=
  ["mongodb://".toList, "mongodb+srv://".toList].findSome? fun scheme =>
    let rest := cs.drop scheme.length
    let login := rest.takeWhile (· ≠ '@')
    if scheme <+: cs ∧ login ≠ [] ∧ login.length < rest.length then
      some (scheme ++ "***".toList ++ rest.drop login.length)
    else none

/-- Hides who logs in at the first address. -/
def redact : List Char → List Char
  | [] => []
  | c :: cs => (redactHere (c :: cs)).getD (c :: redact cs)

def redactMongoUrl (url : String) : String := String.ofList (redact url.toList)

def ArchiveArgs.replicaName : ArchiveArgs → String
  | .aws bucket => bucket
  | .mongoDb url db replicaName => replicaName.getD s!"{redactMongoUrl url}:{db}"
  | .fs path => path

/-! ### The keys -/

def faultsChunkKey (replica : String) (chunkStart : ℕ) : String :=
  s!"faults_chunk/{replica}/{chunkStart}"

def latestCheckedKey (replica : String) : String := s!"latest_checked/{replica}"

def goodBlocksKey (chunkStart : ℕ) : String := s!"good_blocks/{chunkStart}"

/-- **What the checker has stored**, as far as its keys go: the replica and the start of each chunk
with faults, the replicas that have a marker, the chunks with good blocks, and the list of the
replicas. -/
structure Stored where
  chunks : List (String × ℕ)
  aligned : ∀ x ∈ chunks, x.2 % chunkSize = 0 ∧ x.2 < 2 ^ 64
  latestChecked : List String
  goodBlocks : List ℕ
  hasReplicas : Bool

def Stored.keys (stored : Stored) : List String :=
  stored.chunks.map (fun x => faultsChunkKey x.1 x.2) ++
    stored.latestChecked.map latestCheckedKey ++ stored.goodBlocks.map goodBlocksKey ++
    if stored.hasReplicas then ["replicas/list"] else []

/-- The keys with a prefix. -/
def scanPrefix (keys : List String) (pfx : String) : List String :=
  keys.filter fun key => pfx.toList <+: key.toList

/-! ### The lookups -/

inductive LookupError where
  | parse (message : String)
  | panic (panic : Panic)

/-- Reads the start of a chunk from a key. -/
def chunkStartOfKey (key : String) : Except LookupError ℕ :=
  match (key.toList.splitOn '/')[2]? with
  | none => .error (.panic .unwrapNone)
  | some part =>
    match parseUnsigned (2 ^ 64) (String.ofList part) with
    | none => .error (.parse "Failed to parse chunk start")
    | some chunkStart => .ok chunkStart

/-- Whether a chunk may have blocks of a range. -/
def isInRange (overflowChecks : Bool) (startBlock endBlock : Option ℕ) (chunkStart : ℕ) :
    Except LookupError Bool :=
  if ∃ e ∈ endBlock, e < chunkStart then .ok false
  else match startBlock with
    | none => .ok true
    | some s =>
      match addU64 overflowChecks chunkStart chunkSize with
      | .error panic => .error (.panic panic)
      | .ok sum => .ok (s < sum)

/-- The start of the chunk of a block. -/
def chunkOf (block : ℕ) : ℕ := block / chunkSize * chunkSize

/-- The leading digits that two numbers share. -/
def commonPrefix (a b : List Char) : List Char :=
  ((a.zip b).takeWhile fun p => p.1 = p.2).map Prod.fst

/-- How many shared digits are of use. -/
def minPrefixLen (length : ℕ) : ℕ := if length ≤ 3 then length else if length ≤ 5 then 2 else 1

/-- **The digits with which the starts of the chunks of a range begin.** -/
def findChunkRangePrefix (startBlock endBlock : Option ℕ) : List Char :=
  match startBlock, endBlock with
  | some s, some e =>
    let startStr := Nat.toDigits 10 (chunkOf s)
    let endStr := Nat.toDigits 10 (chunkOf e)
    if chunkOf s = chunkOf e then startStr
    else if startStr.length ≠ endStr.length then []
    else if minPrefixLen startStr.length ≤ (commonPrefix startStr endStr).length then
      commonPrefix startStr endStr
    else []
  | some s, none =>
    let startStr := Nat.toDigits 10 (chunkOf s)
    if 5 ≤ startStr.length then startStr.take (startStr.length / 2) else []
  | none, _ => []

/-- The prefix of the keys that a lookup scans. -/
def keyPrefix (replica : String) (startBlock endBlock : Option ℕ) : String :=
  s!"faults_chunk/{replica}/{String.ofList (findChunkRangePrefix startBlock endBlock)}"

/-- **The chunks of a replica with faults** in a range of blocks. -/
def findChunkStartsWithFaultsByReplica (overflowChecks : Bool) (keys : List String)
    (replica : String) (startBlock endBlock : Option ℕ) : Except LookupError (Finset ℕ) := do
  let starts ← (scanPrefix keys (keyPrefix replica startBlock endBlock)).mapM chunkStartOfKey
  let flags ← starts.mapM (isInRange overflowChecks startBlock endBlock)
  return (((starts.zip flags).filter Prod.snd).map Prod.fst).toFinset

/-- **The chunks with faults.** -/
def findChunkStartsWithFaults (keys : List String) : Except LookupError (Finset ℕ) := do
  let starts ← (scanPrefix keys "faults_chunk").mapM chunkStartOfKey
  return starts.toFinset

/-! ### What the keys say -/

theorem toList_faultsChunkKey (replica : String) (chunkStart : ℕ) :
    (faultsChunkKey replica chunkStart).toList =
      "faults_chunk".toList ++ '/' :: (replica.toList ++ '/' :: Nat.toDigits 10 chunkStart) := by
  have hkey : faultsChunkKey replica chunkStart =
      "faults_chunk/" ++ replica ++ "/" ++ chunkStart.repr := rfl
  rw [hkey]
  simp [Nat.toList_repr]

theorem toList_keyPrefix (replica : String) (startBlock endBlock : Option ℕ) :
    (keyPrefix replica startBlock endBlock).toList = "faults_chunk".toList ++
      '/' :: (replica.toList ++ '/' :: findChunkRangePrefix startBlock endBlock) := by
  have hkey : keyPrefix replica startBlock endBlock = "faults_chunk/" ++ replica ++ "/" ++
      String.ofList (findChunkRangePrefix startBlock endBlock) := rfl
  rw [hkey]
  simp

/-- The number that is read from the key of a chunk: the start of the chunk, or the second part of
the name of the replica if it has slashes. -/
def readsAs (x : String × ℕ) : Option ℕ :=
  match (x.1.toList.splitOn '/')[1]? with
  | none => some x.2
  | some part => parseUnsigned (2 ^ 64) (String.ofList part)

theorem slash_notMem_toDigits (n : ℕ) : '/' ∉ Nat.toDigits 10 n := by
  intro h
  exact absurd (Nat.isDigit_of_mem_toDigits (by decide) (by decide) h) (by decide)

/-- **What is read from a key.** -/
theorem chunkStartOfKey_eq_ok {x : String × ℕ} (hx : x.2 < 2 ^ 64) {n : ℕ} :
    chunkStartOfKey (faultsChunkKey x.1 x.2) = .ok n ↔ readsAs x = some n := by
  have hparts : (faultsChunkKey x.1 x.2).toList.splitOn '/' =
      "faults_chunk".toList :: (x.1.toList.splitOn '/' ++ [Nat.toDigits 10 x.2]) := by
    rw [toList_faultsChunkKey, List.splitOn_append_cons_self_of_not_mem (by decide),
      List.splitOn_append_cons_self, List.splitOn_eq_singleton (slash_notMem_toDigits x.2)]
  have hrepr : String.ofList (Nat.toDigits 10 x.2) = x.2.repr := by
    rw [← String.toList_inj, String.toList_ofList, Nat.toList_repr]
  unfold chunkStartOfKey readsAs
  rw [hparts, List.getElem?_cons_succ]
  rcases hsplit : x.1.toList.splitOn '/' with - | ⟨name, - | ⟨part, parts⟩⟩
  · exact absurd hsplit (List.splitOn_ne_nil _ _)
  · simp only [List.cons_append, List.nil_append, List.getElem?_cons_succ, List.getElem?_cons_zero,
      List.getElem?_nil, hrepr, parseUnsigned_repr hx]
    simp
  · simp only [List.cons_append, List.getElem?_cons_succ, List.getElem?_cons_zero]
    cases parseUnsigned (2 ^ 64) (String.ofList part) <;> simp

variable {stored : Stored} {replica : String} {startBlock endBlock : Option ℕ}
  {overflowChecks : Bool}

/-- The key of a chunk has the prefix that is scanned. -/
def Scanned (replica : String) (startBlock endBlock : Option ℕ) (x : String × ℕ) : Prop :=
  (keyPrefix replica startBlock endBlock).toList <+: (faultsChunkKey x.1 x.2).toList

/-- Only the keys of chunks begin as they do. -/
theorem mem_scanPrefix {pfx : String} (hpfx : "faults_chunk".toList <+: pfx.toList) {key : String} :
    key ∈ scanPrefix stored.keys pfx ↔ ∃ x ∈ stored.chunks,
      pfx.toList <+: (faultsChunkKey x.1 x.2).toList ∧ key = faultsChunkKey x.1 x.2 := by
  have hfirst : ∀ key : String, pfx.toList <+: key.toList → key.toList.head? = some 'f' := by
    intro key h
    obtain ⟨rest, hrest⟩ := hpfx.trans h
    rw [← hrest]
    rfl
  simp only [scanPrefix, Stored.keys, List.mem_filter, List.mem_append, List.mem_map,
    decide_eq_true_iff]
  constructor
  · rintro ⟨((⟨x, hx, rfl⟩ | ⟨r, -, rfl⟩) | ⟨n, -, rfl⟩) | hreplicas, hscan⟩
    · exact ⟨x, hx, hscan, rfl⟩
    · have hkey : latestCheckedKey r = "latest_checked/" ++ r := rfl
      have hhead := hfirst _ hscan
      rw [hkey, String.toList_append] at hhead
      exact absurd hhead (by simp)
    · have hkey : goodBlocksKey n = "good_blocks/" ++ n.repr := rfl
      have hhead := hfirst _ hscan
      rw [hkey, String.toList_append] at hhead
      exact absurd hhead (by simp)
    · split at hreplicas
      · rw [List.mem_singleton.mp hreplicas] at hscan
        exact absurd (hfirst _ hscan) (by decide)
      · cases hreplicas
  · rintro ⟨x, hx, hscan, rfl⟩
    exact ⟨.inl (.inl (.inl ⟨x, hx, rfl⟩)), hscan⟩

/-- The keys that are scanned can be read when those of the chunks among them can be. -/
theorem exists_starts_iff {pfx : String} (hpfx : "faults_chunk".toList <+: pfx.toList) :
    (∃ starts, (scanPrefix stored.keys pfx).mapM chunkStartOfKey = .ok starts) ↔
      ∀ x ∈ stored.chunks, pfx.toList <+: (faultsChunkKey x.1 x.2).toList →
        ∃ n, readsAs x = some n := by
  constructor
  · rintro ⟨starts, hstarts⟩ x hx hscan
    obtain ⟨n, hn⟩ := exists_of_mapM_eq_ok hstarts _ ((mem_scanPrefix hpfx).mpr ⟨x, hx, hscan, rfl⟩)
    exact ⟨n, (chunkStartOfKey_eq_ok (stored.aligned x hx).2).mp hn⟩
  · intro h
    refine exists_mapM_eq_ok fun key hkey => ?_
    obtain ⟨x, hx, hscan, rfl⟩ := (mem_scanPrefix hpfx).mp hkey
    obtain ⟨n, hn⟩ := h x hx hscan
    exact ⟨n, (chunkStartOfKey_eq_ok (stored.aligned x hx).2).mpr hn⟩

/-- **What is read from the keys that are scanned.** -/
theorem mem_starts {pfx : String} (hpfx : "faults_chunk".toList <+: pfx.toList) {starts : List ℕ}
    (h : (scanPrefix stored.keys pfx).mapM chunkStartOfKey = .ok starts) {n : ℕ} :
    n ∈ starts ↔ ∃ x ∈ stored.chunks, pfx.toList <+: (faultsChunkKey x.1 x.2).toList ∧
      readsAs x = some n := by
  rw [mem_of_mapM_eq_ok h]
  constructor
  · rintro ⟨key, hkey, hn⟩
    obtain ⟨x, hx, hscan, rfl⟩ := (mem_scanPrefix hpfx).mp hkey
    exact ⟨x, hx, hscan, (chunkStartOfKey_eq_ok (stored.aligned x hx).2).mp hn⟩
  · rintro ⟨x, hx, hscan, hn⟩
    exact ⟨_, (mem_scanPrefix hpfx).mpr ⟨x, hx, hscan, rfl⟩,
      (chunkStartOfKey_eq_ok (stored.aligned x hx).2).mpr hn⟩

/-! ### What the lookups return -/

/-- The starts of all chunks with faults. -/
def allStarts (stored : Stored) : Finset ℕ := (stored.chunks.map Prod.snd).toFinset

/-- **The range of a lookup**: the chunk does not start after its end, and does not end before its
start. -/
def InRange (startBlock endBlock : Option ℕ) (chunkStart : ℕ) : Prop :=
  (∀ e ∈ endBlock, chunkStart ≤ e) ∧ ∀ s ∈ startBlock, s < chunkStart + chunkSize

instance : DecidablePred (InRange startBlock endBlock) := fun _ =>
  inferInstanceAs (Decidable (_ ∧ _))

/-- The starts of the chunks of a replica with faults, in a range. -/
def startsOf (stored : Stored) (replica : String) (startBlock endBlock : Option ℕ) : Finset ℕ :=
  ((stored.chunks.filter fun x => x.1 = replica ∧ InRange startBlock endBlock x.2).map
    Prod.snd).toFinset

theorem mem_allStarts {n : ℕ} : n ∈ allStarts stored ↔ ∃ x ∈ stored.chunks, x.2 = n := by
  simp only [allStarts, List.mem_toFinset, List.mem_map]

theorem mem_startsOf {n : ℕ} : n ∈ startsOf stored replica startBlock endBlock ↔
    (replica, n) ∈ stored.chunks ∧ InRange startBlock endBlock n := by
  simp only [startsOf, List.mem_toFinset, List.mem_map, List.mem_filter, decide_eq_true_iff]
  constructor
  · rintro ⟨⟨r, n'⟩, ⟨hx, rfl, hin⟩, rfl⟩
    exact ⟨hx, hin⟩
  · rintro ⟨hx, hin⟩
    exact ⟨(replica, n), ⟨hx, rfl, hin⟩, rfl⟩

/-- **What all chunks give.** -/
theorem findChunkStartsWithFaults_eq_ok {found : Finset ℕ} :
    findChunkStartsWithFaults stored.keys = .ok found ↔
      (∀ x ∈ stored.chunks, ∃ n, readsAs x = some n) ∧
      ∀ n, n ∈ found ↔ ∃ x ∈ stored.chunks, readsAs x = some n := by
  have hscan : ∀ x : String × ℕ, "faults_chunk".toList <+: (faultsChunkKey x.1 x.2).toList := by
    intro x
    rw [toList_faultsChunkKey]
    exact List.prefix_append _ _
  have hexists : (∃ starts, (scanPrefix stored.keys "faults_chunk").mapM chunkStartOfKey =
      .ok starts) ↔ _ := exists_starts_iff (List.prefix_refl "faults_chunk".toList)
  simp only [hscan, true_imp_iff] at hexists
  rw [findChunkStartsWithFaults, bind_eq_ok, ← hexists]
  constructor
  · rintro ⟨starts, hstarts, heq⟩
    obtain rfl := Except.ok.inj heq
    refine ⟨⟨starts, hstarts⟩, fun n => ?_⟩
    simpa only [hscan, true_and, List.mem_toFinset] using
      mem_starts (List.prefix_refl _) hstarts
  · rintro ⟨⟨starts, hstarts⟩, hfound⟩
    refine ⟨starts, hstarts, congrArg Except.ok (Finset.ext fun n => ?_)⟩
    rw [hfound]
    simpa only [hscan, true_and, List.mem_toFinset] using
      mem_starts (List.prefix_refl _) hstarts

/-- **What the chunks of a replica give.** -/
theorem findChunkStartsWithFaultsByReplica_eq_ok {found : Finset ℕ} :
    findChunkStartsWithFaultsByReplica overflowChecks stored.keys replica startBlock endBlock =
        .ok found ↔
      (∀ x ∈ stored.chunks, Scanned replica startBlock endBlock x → ∃ n, readsAs x = some n ∧
        ∃ b, isInRange overflowChecks startBlock endBlock n = .ok b) ∧
      ∀ n, n ∈ found ↔ ∃ x ∈ stored.chunks, Scanned replica startBlock endBlock x ∧
        readsAs x = some n ∧ isInRange overflowChecks startBlock endBlock n = .ok true := by
  have hpfx : "faults_chunk".toList <+: (keyPrefix replica startBlock endBlock).toList := by
    rw [toList_keyPrefix]
    exact List.prefix_append _ _
  -- The starts that are kept, once both passes have gone through.
  have hkept : ∀ starts flags,
      (scanPrefix stored.keys (keyPrefix replica startBlock endBlock)).mapM chunkStartOfKey =
        .ok starts → starts.mapM (isInRange overflowChecks startBlock endBlock) = .ok flags →
      ∀ n, n ∈ (((starts.zip flags).filter Prod.snd).map Prod.fst).toFinset ↔
        ∃ x ∈ stored.chunks, Scanned replica startBlock endBlock x ∧ readsAs x = some n ∧
          isInRange overflowChecks startBlock endBlock n = .ok true := by
    intro starts flags hstarts hflags n
    have hzip : n ∈ (((starts.zip flags).filter Prod.snd).map Prod.fst).toFinset ↔
        (n, true) ∈ starts.zip flags := by
      simp
    rw [hzip, mem_zip_of_mapM_eq_ok hflags, mem_starts hpfx hstarts]
    constructor
    · rintro ⟨⟨x, hx, hscan, hn⟩, hb⟩
      exact ⟨x, hx, hscan, hn, hb⟩
    · rintro ⟨x, hx, hscan, hn, hb⟩
      exact ⟨⟨x, hx, hscan, hn⟩, hb⟩
  rw [findChunkStartsWithFaultsByReplica, bind_eq_ok]
  constructor
  · rintro ⟨starts, hstarts, h⟩
    obtain ⟨flags, hflags, heq⟩ := bind_eq_ok.mp h
    obtain rfl := Except.ok.inj heq
    refine ⟨fun x hx hscan => ?_, hkept starts flags hstarts hflags⟩
    obtain ⟨n, hn⟩ := (exists_starts_iff hpfx).mp ⟨starts, hstarts⟩ x hx hscan
    exact ⟨n, hn, exists_of_mapM_eq_ok hflags n
      ((mem_starts hpfx hstarts).mpr ⟨x, hx, hscan, hn⟩)⟩
  · rintro ⟨hall, hfound⟩
    obtain ⟨starts, hstarts⟩ := (exists_starts_iff hpfx).mpr fun x hx hscan =>
      (hall x hx hscan).imp fun n hn => hn.1
    obtain ⟨flags, hflags⟩ : ∃ flags,
        starts.mapM (isInRange overflowChecks startBlock endBlock) = .ok flags := by
      refine exists_mapM_eq_ok fun n hn => ?_
      obtain ⟨x, hx, hscan, hread⟩ := (mem_starts hpfx hstarts).mp hn
      obtain ⟨n', hread', hb⟩ := hall x hx hscan
      rw [hread] at hread'
      rwa [Option.some.inj hread']
    refine ⟨starts, hstarts, bind_eq_ok.mpr ⟨flags, hflags, congrArg Except.ok ?_⟩⟩
    exact Finset.ext fun n => (hkept starts flags hstarts hflags n).trans (hfound n).symm

/-! ### The range -/

/-- The end of a chunk fits `u64`, or wraps to a block after the start of the range. -/
def Fits (overflowChecks : Bool) (startBlock : Option ℕ) (chunkStart : ℕ) : Prop :=
  ∀ s ∈ startBlock, chunkStart + chunkSize < 2 ^ 64 ∨
    overflowChecks = false ∧ s + 2 ^ 64 < chunkStart + chunkSize

/-- The chunk starts after the end, or what is left to compare is its own end. -/
theorem isInRange_cases (overflowChecks : Bool) (startBlock endBlock : Option ℕ) (chunkStart : ℕ) :
    (∃ e ∈ endBlock, e < chunkStart) ∧
      isInRange overflowChecks startBlock endBlock chunkStart = .ok false ∨
    (∀ e ∈ endBlock, chunkStart ≤ e) ∧
      isInRange overflowChecks startBlock endBlock chunkStart =
        isInRange overflowChecks startBlock none chunkStart := by
  by_cases h : ∃ e ∈ endBlock, e < chunkStart
  · exact .inl ⟨h, if_pos h⟩
  · refine .inr ⟨fun e he => Nat.not_lt.mp fun hlt => h ⟨e, he, hlt⟩, ?_⟩
    have hnone : ¬∃ e ∈ (none : Option ℕ), e < chunkStart := by simp
    unfold isInRange
    rw [if_neg h, if_neg hnone]

theorem isInRange_none (overflowChecks : Bool) (chunkStart : ℕ) :
    isInRange overflowChecks none none chunkStart = .ok true :=
  if_neg (by simp)

/-- The comparison with the end of the chunk. -/
theorem isInRange_of_room (overflowChecks : Bool) (s : ℕ) {chunkStart : ℕ}
    (h : chunkStart + chunkSize < 2 ^ 64) :
    isInRange overflowChecks (some s) none chunkStart = .ok (s < chunkStart + chunkSize) := by
  unfold isInRange
  rw [if_neg (by simp)]
  simp only [addU64, h, if_true]

/-- An end that does not fit is a panic, or wraps. -/
theorem isInRange_of_overflow (overflowChecks : Bool) (s : ℕ) {chunkStart : ℕ}
    (hlt : chunkStart < 2 ^ 64) (h : ¬chunkStart + chunkSize < 2 ^ 64) :
    isInRange overflowChecks (some s) none chunkStart =
      if overflowChecks then .error (.panic .overflow)
      else .ok (s + 2 ^ 64 < chunkStart + chunkSize) := by
  have hsize : chunkSize < 2 ^ 64 := by decide
  have hmod : (chunkStart + chunkSize) % 2 ^ 64 = chunkStart + chunkSize - 2 ^ 64 := by
    rw [Nat.mod_eq_sub_mod (Nat.not_lt.mp h), Nat.mod_eq_of_lt (by omega)]
  have hsum : s < chunkStart + chunkSize - 2 ^ 64 ↔ s + 2 ^ 64 < chunkStart + chunkSize := by
    omega
  unfold isInRange
  rw [if_neg (by simp)]
  cases overflowChecks with
  | true => simp only [addU64, h, if_false, if_true]
  | false => simp only [addU64, h, if_false, Bool.false_eq_true, hmod, hsum]

/-- **What is kept**: what is in the range, unless its end does not fit. -/
theorem isInRange_eq_true {chunkStart : ℕ} (h : chunkStart < 2 ^ 64)
    (hstart : ∀ s ∈ startBlock, s < 2 ^ 64) :
    isInRange overflowChecks startBlock endBlock chunkStart = .ok true ↔
      InRange startBlock endBlock chunkStart ∧ Fits overflowChecks startBlock chunkStart := by
  rcases isInRange_cases overflowChecks startBlock endBlock chunkStart with
    ⟨⟨e, he, hlt⟩, hfalse⟩ | ⟨hle, heq⟩
  · rw [hfalse]
    refine ⟨fun h => by simp at h, fun ⟨⟨hle, _⟩, _⟩ => absurd (hle e he) (Nat.not_le_of_lt hlt)⟩
  rw [heq, InRange, Fits, and_iff_right hle]
  cases startBlock with
  | none => simp [isInRange_none]
  | some s =>
    have hs := hstart s rfl
    simp only [Option.mem_some_iff, forall_eq']
    by_cases hroom : chunkStart + chunkSize < 2 ^ 64
    · rw [isInRange_of_room overflowChecks s hroom, Except.ok.injEq, decide_eq_true_eq]
      exact ⟨fun hlt => ⟨hlt, .inl hroom⟩, And.left⟩
    · rw [isInRange_of_overflow overflowChecks s h hroom]
      cases overflowChecks with
      | true =>
        rw [if_pos rfl]
        refine ⟨fun h => by simp at h, ?_⟩
        rintro ⟨-, hfits | ⟨hfalse, -⟩⟩
        · exact absurd hfits hroom
        · cases hfalse
      | false =>
        rw [if_neg Bool.false_ne_true, Except.ok.injEq, decide_eq_true_eq]
        refine ⟨fun hlt => ⟨by omega, .inr ⟨rfl, hlt⟩⟩, ?_⟩
        rintro ⟨-, hfits | ⟨-, hlt⟩⟩
        · exact absurd hfits hroom
        · exact hlt

/-- What is not in the range is left out. -/
theorem isInRange_eq_false {chunkStart : ℕ} (hstart : ∀ s ∈ startBlock, s < 2 ^ 64)
    (h : ¬InRange startBlock endBlock chunkStart) :
    isInRange overflowChecks startBlock endBlock chunkStart = .ok false := by
  rcases isInRange_cases overflowChecks startBlock endBlock chunkStart with
    ⟨-, hfalse⟩ | ⟨hle, heq⟩
  · exact hfalse
  rw [InRange, and_iff_right hle] at h
  rw [heq]
  cases startBlock with
  | none => exact absurd (by simp) h
  | some s =>
    have hs := hstart s rfl
    simp only [Option.mem_some_iff, forall_eq'] at h
    rw [isInRange_of_room overflowChecks s (by omega), decide_eq_false h]

/-- A number is compared without a panic when its end fits, or wraps. -/
theorem exists_isInRange_iff {chunkStart : ℕ} (h : chunkStart < 2 ^ 64)
    (hstart : ∀ s ∈ startBlock, s < 2 ^ 64) :
    (∃ b, isInRange overflowChecks startBlock endBlock chunkStart = .ok b) ↔
      (InRange startBlock endBlock chunkStart →
        Fits overflowChecks startBlock chunkStart ∨ overflowChecks = false) := by
  constructor
  · rintro ⟨b, hb⟩ hin
    by_cases hfits : Fits overflowChecks startBlock chunkStart
    · exact .inl hfits
    · refine .inr ?_
      rcases isInRange_cases overflowChecks startBlock endBlock chunkStart with
        ⟨⟨e, he, hlt⟩, -⟩ | ⟨-, heq⟩
      · exact absurd (hin.1 e he) (Nat.not_le_of_lt hlt)
      cases startBlock with
      | none => exact absurd (by simp [Fits]) hfits
      | some s =>
        have hroom : ¬chunkStart + chunkSize < 2 ^ 64 := fun hroom =>
          hfits fun _ _ => .inl hroom
        rw [heq, isInRange_of_overflow overflowChecks s h hroom] at hb
        cases overflowChecks with
        | true => cases hb
        | false => rfl
  · intro himp
    by_cases hin : InRange startBlock endBlock chunkStart
    · by_cases hfits : Fits overflowChecks startBlock chunkStart
      · exact ⟨true, (isInRange_eq_true h hstart).mpr ⟨hin, hfits⟩⟩
      obtain rfl := (himp hin).resolve_left hfits
      rcases isInRange_cases false startBlock endBlock chunkStart with ⟨-, heq⟩ | ⟨-, heq⟩
      · exact ⟨false, heq⟩
      cases startBlock with
      | none => exact ⟨true, heq.trans (isInRange_none false chunkStart)⟩
      | some s =>
        have hroom : ¬chunkStart + chunkSize < 2 ^ 64 := fun hroom =>
          hfits fun _ _ => .inl hroom
        exact ⟨_, heq.trans (isInRange_of_overflow false s h hroom)⟩
    · exact ⟨false, isInRange_eq_false hstart hin⟩

/-! ### When the lookups are exact -/

/-- **Both lookups return what is stored.** -/
def Exact (overflowChecks : Bool) (stored : Stored) (replica : String)
    (startBlock endBlock : Option ℕ) : Prop :=
  findChunkStartsWithFaultsByReplica overflowChecks stored.keys replica startBlock endBlock =
      .ok (startsOf stored replica startBlock endBlock) ∧
    findChunkStartsWithFaults stored.keys = .ok (allStarts stored)

/-- **What is read from the keys is what is stored**: every key has a number in its third part,
which is the start of some chunk, and the start of every chunk is read from some key; a number in
the range that is read from a scanned key is the start of a chunk of the replica, and each of these
is read from a scanned key. -/
structure ReadsStored (overflowChecks : Bool) (stored : Stored) (replica : String)
    (startBlock endBlock : Option ℕ) : Prop where
  reads : ∀ x ∈ stored.chunks, ∃ n, readsAs x = some n ∧ ∃ y ∈ stored.chunks, y.2 = n
  isRead : ∀ x ∈ stored.chunks, ∃ y ∈ stored.chunks, readsAs y = some x.2
  own : ∀ x ∈ stored.chunks, Scanned replica startBlock endBlock x → ∀ n, readsAs x = some n →
    InRange startBlock endBlock n →
      (Fits overflowChecks startBlock n ∧ (replica, n) ∈ stored.chunks ∨
        ¬Fits overflowChecks startBlock n ∧ overflowChecks = false)
  met : ∀ n, (replica, n) ∈ stored.chunks → InRange startBlock endBlock n →
    Fits overflowChecks startBlock n ∧
      ∃ x ∈ stored.chunks, Scanned replica startBlock endBlock x ∧ readsAs x = some n

theorem readsAs_lt {x : String × ℕ} (hx : x.2 < 2 ^ 64) {n : ℕ} (h : readsAs x = some n) :
    n < 2 ^ 64 := by
  unfold readsAs at h
  split at h
  · exact Option.some.inj h ▸ hx
  · exact parseUnsigned_lt h

theorem all_iff : findChunkStartsWithFaults stored.keys = .ok (allStarts stored) ↔
    (∀ x ∈ stored.chunks, ∃ n, readsAs x = some n ∧ ∃ y ∈ stored.chunks, y.2 = n) ∧
      ∀ x ∈ stored.chunks, ∃ y ∈ stored.chunks, readsAs y = some x.2 := by
  rw [findChunkStartsWithFaults_eq_ok]
  constructor
  · rintro ⟨hread, hfound⟩
    refine ⟨fun x hx => ?_, fun x hx => (hfound x.2).mp (mem_allStarts.mpr ⟨x, hx, rfl⟩)⟩
    obtain ⟨n, hn⟩ := hread x hx
    exact ⟨n, hn, mem_allStarts.mp ((hfound n).mpr ⟨x, hx, hn⟩)⟩
  · rintro ⟨hread, hall⟩
    refine ⟨fun x hx => (hread x hx).imp fun n hn => hn.1, fun n => ?_⟩
    rw [mem_allStarts]
    constructor
    · rintro ⟨x, hx, rfl⟩
      exact hall x hx
    · rintro ⟨x, hx, hn⟩
      obtain ⟨n', hn', hy⟩ := hread x hx
      rw [hn] at hn'
      rwa [Option.some.inj hn']

/-- The lookups are exact exactly when what is read is what is stored. -/
theorem exact_iff_readsStored (hstart : ∀ s ∈ startBlock, s < 2 ^ 64) :
    Exact overflowChecks stored replica startBlock endBlock ↔
      ReadsStored overflowChecks stored replica startBlock endBlock := by
  have hlt : ∀ x ∈ stored.chunks, ∀ {n}, readsAs x = some n → n < 2 ^ 64 :=
    fun x hx _ h => readsAs_lt (stored.aligned x hx).2 h
  rw [Exact, findChunkStartsWithFaultsByReplica_eq_ok, all_iff]
  simp only [mem_startsOf]
  constructor
  · rintro ⟨⟨hread, hfound⟩, hreads, hisRead⟩
    refine ⟨hreads, hisRead, fun x hx hscan n hn hin => ?_, fun n hn hin => ?_⟩
    · obtain ⟨n', hn', hb⟩ := hread x hx hscan
      rw [hn] at hn'
      obtain rfl := Option.some.inj hn'
      by_cases hfits : Fits overflowChecks startBlock n
      · refine .inl ⟨hfits, ((hfound n).mpr ⟨x, hx, hscan, hn, ?_⟩).1⟩
        exact (isInRange_eq_true (hlt x hx hn) hstart).mpr ⟨hin, hfits⟩
      · exact .inr ⟨hfits,
          ((exists_isInRange_iff (hlt x hx hn) hstart).mp hb hin).resolve_left hfits⟩
    · obtain ⟨x, hx, hscan, hread', htrue⟩ := (hfound n).mp ⟨hn, hin⟩
      exact ⟨((isInRange_eq_true (hlt x hx hread') hstart).mp htrue).2, x, hx, hscan, hread'⟩
  · intro h
    refine ⟨⟨fun x hx hscan => ?_, fun n => ⟨?_, ?_⟩⟩, h.reads, h.isRead⟩
    · obtain ⟨n, hn, -⟩ := h.reads x hx
      refine ⟨n, hn, (exists_isInRange_iff (hlt x hx hn) hstart).mpr fun hin => ?_⟩
      exact (h.own x hx hscan n hn hin).imp And.left And.right
    · rintro ⟨hn, hin⟩
      obtain ⟨hfits, x, hx, hscan, hread⟩ := h.met n hn hin
      exact ⟨x, hx, hscan, hread, (isInRange_eq_true (hlt x hx hread) hstart).mpr ⟨hin, hfits⟩⟩
    · rintro ⟨x, hx, hscan, hread, htrue⟩
      obtain ⟨hin, hfits⟩ := (isInRange_eq_true (hlt x hx hread) hstart).mp htrue
      rcases h.own x hx hscan n hread hin with ⟨-, hown⟩ | ⟨hnot, -⟩
      · exact ⟨hown, hin⟩
      · exact absurd hfits hnot

/-! ### The names and the digits -/

/-- **No name has a slash.** -/
def Plain (stored : Stored) (replica : String) : Prop :=
  '/' ∉ replica.toList ∧ ∀ x ∈ stored.chunks, '/' ∉ x.1.toList

/-- The chunk begins with the first half of the digits of the chunk of the start, if these are
five or more. -/
def Leads (startBlock : Option ℕ) (chunkStart : ℕ) : Prop :=
  ∀ s ∈ startBlock, 5 ≤ (Nat.toDigits 10 (chunkOf s)).length →
    (Nat.toDigits 10 (chunkOf s)).take ((Nat.toDigits 10 (chunkOf s)).length / 2) <+:
      Nat.toDigits 10 chunkStart

/-- **What is stored does no harm**: the second part of a name with slashes is the start of its own
chunk; a chunk in the range of a replica whose name begins with that of the replica and a slash is
one of the replica's too; the chunks of the replica in the range have ends that fit and, if the
range has no end, lead with the digits of its start. -/
structure Harmless (overflowChecks : Bool) (stored : Stored) (replica : String)
    (startBlock endBlock : Option ℕ) : Prop where
  names : ∀ x ∈ stored.chunks, ∀ part, (x.1.toList.splitOn '/')[1]? = some part →
    parseUnsigned (2 ^ 64) (String.ofList part) = some x.2
  below : ∀ x ∈ stored.chunks, replica.toList ++ ['/'] <+: x.1.toList →
    InRange startBlock endBlock x.2 → (replica, x.2) ∈ stored.chunks
  fits : ∀ c, (replica, c) ∈ stored.chunks → InRange startBlock endBlock c →
    Fits overflowChecks startBlock c
  leads : ∀ c, (replica, c) ∈ stored.chunks → InRange startBlock endBlock c → endBlock = none →
    Leads startBlock c

theorem readsAs_of_names {x : String × ℕ} (h : ∀ part, (x.1.toList.splitOn '/')[1]? = some part →
    parseUnsigned (2 ^ 64) (String.ofList part) = some x.2) : readsAs x = some x.2 := by
  unfold readsAs
  split
  · rfl
  · next part hpart => exact h part hpart

/-- A text that goes on with a slash after another begins with it and a slash. -/
theorem prefix_append_slash {a b p q : List Char} (hq : '/' ∉ q)
    (h : a ++ '/' :: p <+: b ++ '/' :: q) : a = b ∨ a ++ ['/'] <+: b := by
  induction a generalizing b with
  | nil =>
    cases b with
    | nil => exact .inl rfl
    | cons c b =>
      rw [List.nil_append, List.cons_append, List.cons_prefix_cons] at h
      rw [← h.1]
      exact .inr (List.prefix_append ['/'] b)
  | cons c a ih =>
    cases b with
    | nil =>
      rw [List.cons_append, List.nil_append, List.cons_prefix_cons] at h
      exact absurd (h.2.subset (List.mem_append_right a List.mem_cons_self)) hq
    | cons d b =>
      rw [List.cons_append, List.cons_append, List.cons_prefix_cons] at h
      obtain ⟨rfl, h⟩ := h
      refine (ih h).imp (congrArg _) fun hprefix => ?_
      rw [List.cons_append, List.cons_prefix_cons]
      exact ⟨rfl, hprefix⟩

/-- The keys that are scanned are the replica's own, and those of replicas whose names go on with
a slash. -/
theorem Scanned.cases {x : String × ℕ} (h : Scanned replica startBlock endBlock x) :
    x.1 = replica ∨ replica.toList ++ ['/'] <+: x.1.toList := by
  rw [Scanned, toList_keyPrefix, toList_faultsChunkKey, List.prefix_append_right_inj,
    List.cons_prefix_cons] at h
  refine (prefix_append_slash (slash_notMem_toDigits x.2) h.2).imp (fun heq => ?_) id
  exact String.toList_inj.mp heq.symm

/-- The replica's own keys are scanned if the starts have the digits. -/
theorem scanned_own {c : ℕ} : Scanned replica startBlock endBlock (replica, c) ↔
    findChunkRangePrefix startBlock endBlock <+: Nat.toDigits 10 c := by
  rw [Scanned, toList_keyPrefix, toList_faultsChunkKey, List.prefix_append_right_inj,
    List.cons_prefix_cons, List.prefix_append_right_inj, List.cons_prefix_cons,
    and_iff_right rfl, and_iff_right rfl]

/-- **The prefix of a range without an end.** -/
theorem prefix_none_iff {c : ℕ} :
    findChunkRangePrefix startBlock none <+: Nat.toDigits 10 c ↔ Leads startBlock c := by
  cases startBlock with
  | none => simp [findChunkRangePrefix, Leads]
  | some s =>
    simp only [findChunkRangePrefix, Leads, Option.mem_some_iff, forall_eq']
    split
    · next hlen => simp [hlen]
    · next hlen => simp [hlen]

/-- The numbers that two texts share are the leading ones of both. -/
theorem commonPrefix_prefix (a b : List Char) :
    commonPrefix a b <+: a ∧ commonPrefix a b <+: b := by
  induction a generalizing b with
  | nil => exact ⟨List.nil_prefix, List.nil_prefix⟩
  | cons c a ih =>
    cases b with
    | nil => exact ⟨List.nil_prefix, List.nil_prefix⟩
    | cons d b =>
      by_cases h : c = d
      · subst h
        have heq : commonPrefix (c :: a) (c :: b) = c :: commonPrefix a b := by
          simp [commonPrefix]
        rw [heq, List.cons_prefix_cons, List.cons_prefix_cons]
        exact ⟨⟨rfl, (ih b).1⟩, rfl, (ih b).2⟩
      · have heq : commonPrefix (c :: a) (d :: b) = [] := by
          simp [commonPrefix, h]
        rw [heq]
        exact ⟨List.nil_prefix, List.nil_prefix⟩

/-- A chunk in a range starts between the chunks of its ends. -/
theorem chunkOf_le {c s e : ℕ} (hc : c % chunkSize = 0) (he : c ≤ e) (hs : s < c + chunkSize) :
    chunkOf s ≤ c ∧ c ≤ chunkOf e := by
  simp only [chunkOf, chunkSize] at *
  omega

/-- **The prefix of a range with an end** is met by every chunk in the range. -/
theorem prefix_of_inRange {c e : ℕ} (hc : c % chunkSize = 0)
    (hin : InRange startBlock (some e) c) :
    findChunkRangePrefix startBlock (some e) <+: Nat.toDigits 10 c := by
  cases startBlock with
  | none => exact List.nil_prefix
  | some s =>
    obtain ⟨hs, he⟩ := chunkOf_le hc (hin.1 e rfl) (hin.2 s rfl)
    simp only [findChunkRangePrefix]
    split
    · rename_i heq
      rw [heq] at hs ⊢
      rw [le_antisymm he hs]
    · split
      · exact List.nil_prefix
      · rename_i hlength
        rw [not_not] at hlength
        split
        · have hcommon := commonPrefix_prefix (Nat.toDigits 10 (chunkOf s))
            (Nat.toDigits 10 (chunkOf e))
          exact prefix_toDigits_of_le hs he hlength hcommon.1 hcommon.2
        · exact List.nil_prefix

/-- **What does no harm is read as it is stored.** -/
theorem Harmless.readsStored (h : Harmless overflowChecks stored replica startBlock endBlock) :
    ReadsStored overflowChecks stored replica startBlock endBlock := by
  have hread : ∀ x ∈ stored.chunks, readsAs x = some x.2 :=
    fun x hx => readsAs_of_names (h.names x hx)
  refine ⟨fun x hx => ⟨x.2, hread x hx, x, hx, rfl⟩, fun x hx => ⟨x, hx, hread x hx⟩,
    fun x hx hscanned n hn hin => ?_, fun n hn hin => ?_⟩
  · rw [hread x hx] at hn
    obtain rfl := Option.some.inj hn
    have hown : (replica, x.2) ∈ stored.chunks := by
      rcases hscanned.cases with rfl | hbelow
      · exact hx
      · exact h.below x hx hbelow hin
    exact .inl ⟨h.fits x.2 hown hin, hown⟩
  · refine ⟨h.fits n hn hin, (replica, n), hn, scanned_own.mpr ?_, hread _ hn⟩
    cases endBlock with
    | none => exact prefix_none_iff.mpr (h.leads n hn hin rfl)
    | some e => exact prefix_of_inRange (stored.aligned _ hn).1 hin

/-- **When no name has a slash**, what is read as it is stored does no harm. -/
theorem ReadsStored.harmless (h : ReadsStored overflowChecks stored replica startBlock endBlock)
    (hplain : Plain stored replica) :
    Harmless overflowChecks stored replica startBlock endBlock := by
  have hnames : ∀ x ∈ stored.chunks, ∀ part, (x.1.toList.splitOn '/')[1]? = some part →
      parseUnsigned (2 ^ 64) (String.ofList part) = some x.2 := by
    intro x hx part hpart
    rw [List.splitOn_eq_singleton (hplain.2 x hx)] at hpart
    cases hpart
  refine ⟨hnames, fun x hx hbelow _ => ?_, fun c hc hin => (h.met c hc hin).1,
    fun c hc hin hnone => ?_⟩
  · exact absurd (hbelow.subset (List.mem_append_right _ (List.mem_singleton_self '/')))
      (hplain.2 x hx)
  · subst hnone
    obtain ⟨-, x, hx, hscanned, hread⟩ := h.met c hc hin
    rw [readsAs_of_names (hnames x hx)] at hread
    obtain rfl := Option.some.inj hread
    rcases hscanned.cases with rfl | hbelow
    · exact prefix_none_iff.mp (scanned_own.mp hscanned)
    · exact absurd (hbelow.subset (List.mem_append_right _ (List.mem_singleton_self '/')))
        (hplain.2 x hx)

/-- **When the lookups are exact**: if what is stored does no harm, and exactly then if no name has
a slash. -/
theorem lookup_iff (overflowChecks : Bool) (stored : Stored) (replica : String)
    (startBlock endBlock : Option UInt64) :
    (Harmless overflowChecks stored replica (startBlock.map UInt64.toNat)
        (endBlock.map UInt64.toNat) →
      Exact overflowChecks stored replica (startBlock.map UInt64.toNat)
        (endBlock.map UInt64.toNat)) ∧
    (Plain stored replica →
      (Exact overflowChecks stored replica (startBlock.map UInt64.toNat)
          (endBlock.map UInt64.toNat) ↔
        Harmless overflowChecks stored replica (startBlock.map UInt64.toNat)
          (endBlock.map UInt64.toNat))) := by
  have hstart : ∀ s ∈ startBlock.map UInt64.toNat, s < 2 ^ 64 := by
    intro s hs
    obtain ⟨s', -, rfl⟩ := Option.mem_map.mp hs
    exact s'.toNat_lt
  rw [exact_iff_readsStored hstart]
  exact ⟨fun h => h.readsStored, fun hplain =>
    ⟨fun h => h.harmless hplain, fun h => h.readsStored⟩⟩

/-- Two chunks with faults. -/
def twoChunks (replica : String) : Stored where
  chunks := [(replica, 12000), (replica, 20000)]
  aligned := by
    intro x hx
    simp only [List.mem_cons, List.not_mem_nil, or_false] at hx
    rcases hx with rfl | rfl
    · exact ⟨by simp [chunkSize], by norm_num⟩
    · exact ⟨by simp [chunkSize], by norm_num⟩
  latestChecked := []
  goodBlocks := []
  hasReplicas := true

theorem plain_twoChunks : Plain (twoChunks "a") "a" := by
  refine ⟨by decide, fun x hx => ?_⟩
  simp only [twoChunks, List.mem_cons, List.not_mem_nil, or_false] at hx
  rcases hx with rfl | rfl
  · decide
  · decide

/-- The two chunks do no harm to a lookup with both ends. -/
theorem harmless_twoChunks : Harmless true (twoChunks "a") "a" (some 12345) (some 30000) := by
  refine ⟨fun x hx part hpart => ?_, fun x hx hbelow _ => ?_, fun c hc _ s _ => .inl ?_,
    fun c _ _ h => by cases h⟩
  · rw [List.splitOn_eq_singleton (plain_twoChunks.2 x hx)] at hpart
    cases hpart
  · exact absurd (hbelow.subset (List.mem_append_right _ (List.mem_singleton_self '/')))
      (plain_twoChunks.2 x hx)
  · simp only [twoChunks, List.mem_cons, Prod.mk.injEq, List.not_mem_nil, or_false] at hc
    rcases hc with ⟨-, rfl⟩ | ⟨-, rfl⟩
    · decide
    · decide

theorem lookup_iff_twoChunks : Exact true (twoChunks "a") "a" (some 12345) (some 30000) ∧
    ¬Exact true (twoChunks "a") "a" (some 12345) none := by
  refine ⟨(lookup_iff true (twoChunks "a") "a" (some 12345) (some 30000)).1 harmless_twoChunks,
    fun h => ?_⟩
  have hharmless := ((lookup_iff true (twoChunks "a") "a" (some 12345) none).2
    plain_twoChunks).mp h
  have hlead := hharmless.leads 20000 (List.mem_cons_of_mem _ List.mem_cons_self)
    ⟨by simp, by simp [chunkSize]⟩ rfl
  exact absurd (hlead 12345 rfl (by decide)) (by decide)

/-- **A lookup misses a chunk** whose digits differ from those of a start that stands alone, and
fails for a replica whose name is a path. -/
theorem not_exact : ¬Exact true (twoChunks "a") "a" (some 12345) none ∧
    ¬Exact true (twoChunks "/tmp/archive") (ArchiveArgs.fs "/tmp/archive").replicaName none
      none := by
  constructor
  · intro h
    have hharmless := ((exact_iff_readsStored (by simp)).mp h).harmless plain_twoChunks
    have hlead := hharmless.leads 20000 (List.mem_cons_of_mem _ List.mem_cons_self)
      ⟨by simp, by simp [chunkSize]⟩ rfl
    exact absurd (hlead 12345 rfl (by decide)) (by decide)
  · intro h
    have hreads := (exact_iff_readsStored (by simp)).mp h
    obtain ⟨n, hn, -⟩ := hreads.reads _ List.mem_cons_self
    cases hn

end FaultChunks

end Archive

end MonadServices
