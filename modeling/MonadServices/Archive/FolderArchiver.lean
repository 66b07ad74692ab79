import MonadServices.Lib.QueueWalk
import Mathlib.Logic.Function.Basic
import Mathlib.Tactic

/-!
# The folder archiver

The archiver polls a directory tree and copies its files to the store. Each **tick** walks
the tree breadth first from the root folder. A directory whose modification time has grown
since it was last scanned, or of which nothing is remembered, is scanned by `archive_dir`;
any other is skipped. What is remembered of a directory
(`MonadServices.Archive.FolderArchiver.DirCacheEntry`) is dropped when it is older than
`hot_dir_ttl` at the end of a tick, so that every directory is scanned again in the end.

The file system and the store are the surroundings of a tick
(`MonadServices.Archive.FolderArchiver.Tick`): **what every call answers, errors included, is
arbitrary**, and may change from tick to tick. A directory is seen three times in a tick:
its own metadata, the listing that `archive_dir` reads, and the listing that the walk reads.

The walk passes over a directory that it cannot open, but a scan that fails ends the whole
tick, and the directories still queued are neither scanned nor skipped
(`MonadServices.Archive.FolderArchiver.failed_scan_starves`). **As long as no scan and no
listing fails half-way, and no file is lost to a failed `exists` or `read`, no directory is
forgotten** (`MonadServices.Archive.FolderArchiver.forgets_none_of_calm`).
-/

namespace MonadServices

namespace Archive

namespace FolderArchiver

/-! ### Names -/

/-- The name of a directory entry: bytes, which need not be UTF-8. -/
abbrev OsName := List UInt8

/-- A path, by its components. -/
abbrev Path := List OsName

/-- Reads `n` continuation bytes behind the bits `acc`. -/
def continuation : ℕ → ℕ → List UInt8 → Option Char × List UInt8
  | 0, acc, rest => (some (Char.ofNat acc), rest)
  | _ + 1, _, [] => (none, [])
  | n + 1, acc, b :: rest =>
    if 0x80 ≤ b ∧ b ≤ 0xBF then continuation n (acc * 64 + b.toNat % 64) rest
    else (none, b :: rest)

/-- The bytes that may follow a first byte: they exclude overlong forms, surrogates and
code points above the last one. -/
def secondByte (first : UInt8) : UInt8 × UInt8 :=
  if first = 0xE0 then (0xA0, 0xBF)
  else if first = 0xED then (0x80, 0x9F)
  else if first = 0xF0 then (0x90, 0xBF)
  else if first = 0xF4 then (0x80, 0x8F)
  else (0x80, 0xBF)

/-- The character that starts with the byte `first`, and the bytes behind it; or `none`,
and the bytes behind the longest start of a character. -/
def decodeFirst (first : UInt8) (rest : List UInt8) : Option Char × List UInt8 :=
  if first < 0x80 then (some (Char.ofNat first.toNat), rest)
  else if 0xC2 ≤ first ∧ first ≤ 0xDF then continuation 1 (first.toNat % 32) rest
  else if 0xE0 ≤ first ∧ first ≤ 0xF4 then
    match rest with
    | [] => (none, [])
    | b :: tail =>
      if (secondByte first).1 ≤ b ∧ b ≤ (secondByte first).2 then
        if first ≤ 0xEF then continuation 1 (first.toNat % 16 * 64 + b.toNat % 64) tail
        else continuation 2 (first.toNat % 8 * 64 + b.toNat % 64) tail
      else (none, rest)
  else (none, rest)

/-- The characters of a byte string, with `none` for each start of a character that is not
one. Each step takes a byte, so that the length is fuel enough. -/
def decode : ℕ → List UInt8 → List (Option Char)
  | _, [] => []
  | 0, _ :: _ => []
  | n + 1, first :: rest =>
    (decodeFirst first rest).1 :: decode n (decodeFirst first rest).2

/-- `to_str`: the text of a name that is UTF-8. -/
def OsName.toStr (name : OsName) : Option (List Char) := (decode name.length name).mapM id

/-- `to_string_lossy`: what is not UTF-8 becomes the replacement character. -/
def OsName.toStringLossy (name : OsName) : List Char :=
  (decode name.length name).map (·.getD '\uFFFD')

/-- The last component of a path, unless it is the parent directory. -/
def fileName (path : Path) : Option OsName :=
  path.getLast?.filter (· ≠ [0x2E, 0x2E])

/-- An error report: the messages, outermost first. -/
abbrev Report := List String

/-- The prefix of the keys of a directory. Only `derive_prefix` makes one, and none is
empty. -/
structure DirPrefix where
  asStr : List Char
  ne_nil : asStr ≠ []
  deriving DecidableEq

/-- `derive_prefix`. -/
def derivePrefix (basePrefix : List Char) (folderPath : Path) : Except Report DirPrefix :=
  match fileName folderPath with
  | none => .error ["Folder path must have a basename (last component)"]
  | some dirOsName =>
    match dirOsName.toStr with
    | none => .error ["Folder name must be valid UTF-8"]
    | some dirName =>
      if h : dirName = ['.'] ∨ dirName = [] then
        .error ["Invalid directory name for key prefix: " ++ String.ofList dirName]
      else if basePrefix = [] then .ok ⟨dirName, fun hnil => h (.inr hnil)⟩
      else .ok ⟨basePrefix ++ '/' :: dirName, by simp⟩

/-- `DirPrefix::root`. -/
def DirPrefix.root (path : Path) : Except Report DirPrefix := derivePrefix [] path

/-- `DirPrefix::child`. -/
def DirPrefix.child (parent : DirPrefix) (path : Path) : Except Report DirPrefix :=
  derivePrefix parent.asStr path

/-- `entry_has_excluded_prefix`. -/
def entryHasExcludedPrefix (name : OsName) (excludePrefix : List Char) : Bool :=
  !excludePrefix.isEmpty && excludePrefix.isPrefixOf name.toStringLossy

/-! ### What a tick is answered -/

/-- What a directory entry is. Links are followed neither to files nor to directories. -/
inductive Kind where
  | dir
  | file
  | other
  deriving DecidableEq

/-- The metadata of an entry. The modification time may not be available. -/
structure Metadata where
  kind : Kind
  modified : Option ℕ
  deriving DecidableEq

/-- An entry of a listing. `now` is the time at which its age is looked at. -/
structure DirEntry where
  fileName : OsName
  metadata : Except Report Metadata
  now : ℕ

/-- What `read_dir` yields, entry by entry: `next_entry` may fail too. -/
abbrev Listing := List (Except Report DirEntry)

/-- The answer of a call that may find nothing, or fail. -/
inductive Opened (α : Type) where
  | opened (a : α)
  | notFound
  | failed (e : Report)

/-- The entries of a listing; a directory that is not there has none. -/
def Opened.listing : Opened Listing → Listing
  | .opened listing => listing
  | _ => []

/-- What the calls for one directory answer in a tick, in the order in which they are made.
`created` and `doneAt` are times of the monotone clock, `now` is one of the system clock. -/
structure View where
  /-- The modification time, where the directory's metadata has it. -/
  metadata : Opened (Option ℕ)
  /-- The time at which the directory is first remembered. -/
  created : ℕ
  /-- What `archive_dir` lists. -/
  scan : Opened Listing
  /-- The time at which `archive_dir` has returned, by both clocks. -/
  doneAt : ℕ
  now : ℕ
  /-- What the walk lists. -/
  list : Opened Listing

/-- What the calls for one file answer. -/
structure FileOps where
  existsInStore : Except Report Bool
  read : Except Report (List UInt8)
  put : Except Report Unit

/-- The surroundings of one tick. -/
structure Tick where
  view : Path → View
  ops : Path → FileOps
  /-- The time at which the cache is cleaned. -/
  endsAt : ℕ
  /-- A directory tree is finite: from some depth on, directories hold no directory. -/
  depth : ℕ
  shallow : ∀ path listing entry metadata, (view path).list = .opened listing →
    .ok entry ∈ listing → entry.metadata = .ok metadata → metadata.kind = .dir →
    path.length < depth

/-- The arguments of the archiver. -/
structure Config where
  rootFolder : Path
  excludePrefix : List Char
  minAge : Option ℕ
  hotDirTtl : ℕ

/-! ### What the archiver keeps -/

/-- A key of the store. -/
abbrev Key := List Char

/-- What is remembered of a directory. -/
structure DirCacheEntry where
  knownInS3 : List Key
  lastSeenModified : Option ℕ
  lastHot : ℕ

/-- `DirCacheEntry::new`. -/
def DirCacheEntry.new (now : ℕ) : DirCacheEntry where
  knownInS3 := []
  lastSeenModified := none
  lastHot := now

/-- `mark_processed`. -/
def DirCacheEntry.markProcessed (entry : DirCacheEntry) (modified : Option ℕ) (view : View) :
    DirCacheEntry :=
  { entry with lastHot := view.doneAt, lastSeenModified := modified.or (some view.now) }

/-- A directory on the queue, with the key prefix of its files. -/
structure QueueItem where
  path : Path
  keyPrefix : DirPrefix
  deriving DecidableEq

/-- A completed `archive_dir`: the directory, what was listed, the modification time that is
remembered for it, and when it was done. -/
structure Scan where
  item : QueueItem
  listing : Listing
  seen : ℕ
  doneAt : ℕ

/-- What has been done so far, over all ticks. The archiver itself does not keep this. -/
structure Log where
  /-- The keys that `exists` has found in the store. -/
  found : List Key
  /-- The files whose contents were offered to `put`. -/
  offered : List Path
  /-- The completed scans, the newest first. -/
  scans : List Scan

/-- The last completed scan of a directory. -/
def Log.last (log : Log) (path : Path) : Option Scan :=
  log.scans.find? (·.item.path = path)

/-- What a tick has done with a directory: it called `archive_dir`, or it skipped the
directory when `log` was what had been done. -/
inductive Visit where
  | scanned
  | skipped (log : Log)

/-- The archiver: its cache, and what it has done over all ticks and in this one. -/
structure Archiver where
  dirStates : Path → Option DirCacheEntry
  log : Log
  seen : List (Path × Visit)

/-- Nothing is remembered at the start. -/
def Archiver.init : Archiver where
  dirStates := fun _ => none
  log := { found := [], offered := [], scans := [] }
  seen := []

/-- Drops what is remembered of a directory. -/
def Archiver.remove (a : Archiver) (path : Path) : Archiver :=
  { a with dirStates := Function.update a.dirStates path none }

/-- Notes that a directory is skipped. -/
def Archiver.skip (a : Archiver) (path : Path) : Archiver :=
  { a with seen := (path, .skipped a.log) :: a.seen }

/-- The modification time that is remembered of a directory. -/
def Archiver.lastSeenModified (a : Archiver) (path : Path) : Option ℕ :=
  (a.dirStates path).bind (·.lastSeenModified)

/-- The keys of a directory that are known to be in the store. -/
def Archiver.knownInS3 (a : Archiver) (path : Path) : List Key :=
  ((a.dirStates path).map (·.knownInS3)).getD []

/-! ### One directory -/

/-- `directory_changed`. -/
def directoryChanged (lastSeenModified currentModified : Option ℕ) : Bool :=
  match lastSeenModified with
  | some last => currentModified.any (last < ·)
  | none => true

/-- `file_is_too_new`: a file from the future, or without a time, is not. -/
def fileIsTooNew (metadata : Metadata) (minAge now : ℕ) : Bool :=
  match metadata.modified with
  | some modified => decide (modified ≤ now) && decide (now - modified < minAge)
  | none => false

section Scan

variable (cfg : Config)

/-- The entries that `archive_dir` takes: files that are not excluded and not too new. -/
def takes (entry : DirEntry) (metadata : Metadata) : Bool :=
  decide (metadata.kind = .file)
    && !entryHasExcludedPrefix entry.fileName cfg.excludePrefix
    && !cfg.minAge.any (fileIsTooNew metadata · entry.now)

/-- The key and the path of a file in a directory. -/
def located (item : QueueItem) (name : OsName) : Key × Path :=
  (item.keyPrefix.asStr ++ '/' :: name.toStringLossy, item.path ++ [name])

/-- Inserts into the local map; a key that is there already is overwritten. -/
def insertLocal (files : List (Key × Path)) (file : Key × Path) : List (Key × Path) :=
  file :: files.filter (·.1 ≠ file.1)

/-- The files of a listing that `archive_dir` takes. -/
def eligible (item : QueueItem) (listing : Listing) : List (Key × Path) :=
  listing.filterMap fun e =>
    match e with
    | .error _ => none
    | .ok entry =>
      match entry.metadata with
      | .error _ => none
      | .ok metadata =>
        if takes cfg entry metadata then some (located item entry.fileName) else none

/-- The loop of `archive_dir` over the listing. -/
def collect (item : QueueItem) : Listing → List (Key × Path) →
    Except Report (List (Key × Path))
  | [], files => .ok files
  | .error e :: _, _ => .error e
  | .ok entry :: rest, files =>
    match entry.metadata with
    | .error e => .error e
    | .ok metadata =>
      if takes cfg entry metadata then
        collect item rest (insertLocal files (located item entry.fileName))
      else collect item rest files

/-- `process_single_file`, with what it does to the log. -/
def processSingleFile (ops : FileOps) (file : Key × Path) (log : Log) :
    Except Report (Option Key) × Log :=
  match ops.existsInStore with
  | .error e => (.error e, log)
  | .ok true => (.ok (some file.1), { log with found := file.1 :: log.found })
  | .ok false =>
    match ops.read with
    | .error e => (.error ("Failed to read local file" :: e), log)
    | .ok _ =>
      let log := { log with offered := file.2 :: log.offered }
      match ops.put with
      | .error e => (.error ("Failed to upload file to archive store" :: e), log)
      -- Known only once the next tick has found it.
      | .ok () => (.ok none, log)

/-- One file of the stream: an error is logged and the file is passed over. -/
def processFile (ops : Path → FileOps) (state : List Key × Log) (file : Key × Path) :
    List Key × Log :=
  match processSingleFile (ops file.2) file state.2 with
  | (.ok (some key), log) => (key :: state.1, log)
  | (.ok none, log) => (state.1, log)
  | (.error _, log) => (state.1, log)

/-- `archive_dir`. On an error nothing has been done yet. -/
def archiveDir (ops : Path → FileOps) (scan : Opened Listing) (item : QueueItem)
    (knownInS3 : List Key) (log : Log) : Except Report (List Key × Log) :=
  if item.keyPrefix.asStr = [] then .error ["Archive prefix must not be empty"]
  else match scan with
    -- Directory missing: treat as empty.
    | .notFound => .ok (knownInS3, log)
    | .failed e => .error ("Failed to open directory" :: e)
    | .opened listing =>
      match collect cfg item listing [] with
      | .error e => .error e
      | .ok [] => .ok (knownInS3, log)
      | .ok (file :: files) =>
        let known := knownInS3.filter (· ∈ (file :: files).map (·.1))
        .ok (((file :: files).filter (·.1 ∉ known)).foldl (processFile ops) (known, log))

/-- The directories that the walk queues for a listing. An entry without metadata is passed
over, as are an excluded directory and one whose name gives no key prefix. -/
def children (item : QueueItem) : Listing → Except Report (List QueueItem)
  | [] => .ok []
  | .error e :: _ => .error e
  | .ok entry :: rest =>
    match children item rest with
    | .error e => .error e
    | .ok items =>
      match entry.metadata with
      | .error _ => .ok items
      | .ok metadata =>
        if metadata.kind = .dir then
          if entryHasExcludedPrefix entry.fileName cfg.excludePrefix then .ok items
          else match item.keyPrefix.child (item.path ++ [entry.fileName]) with
            | .error _ => .ok items
            | .ok keyPrefix => .ok (⟨item.path ++ [entry.fileName], keyPrefix⟩ :: items)
        else .ok items

end Scan

/-! ### One tick -/

section Tick

variable (cfg : Config) (tick : Tick)

/-- The scan of a directory that has changed. -/
def scanDir (item : QueueItem) (modified : Option ℕ) (a : Archiver) :
    Except Report Unit × Archiver :=
  let view := tick.view item.path
  let entry := (a.dirStates item.path).getD (.new view.created)
  let remember (entry : DirCacheEntry) := Function.update a.dirStates item.path (some entry)
  let seen := (item.path, .scanned) :: a.seen
  match archiveDir cfg tick.ops view.scan item entry.knownInS3 a.log with
  | .error e => (.error e, { a with dirStates := remember entry, seen := seen })
  | .ok (known, log) =>
    let entry := { entry with knownInS3 := known }.markProcessed modified view
    let scan : Scan :=
      { item := item
        listing := view.scan.listing
        seen := modified.getD view.now
        doneAt := view.doneAt }
    (.ok (),
      { dirStates := remember entry
        log := { log with scans := scan :: log.scans }
        seen := seen })

/-- The second half of a visit: the subdirectories are queued. -/
def descend (item : QueueItem) (a : Archiver) : Except Report (List QueueItem) × Archiver :=
  match (tick.view item.path).list with
  | .notFound => (.ok [], a.remove item.path)
  | .failed _ => (.ok [], a)
  | .opened listing => (children cfg item listing, a)

/-- The body of the loop of `archive_recursive_tick`. -/
def visit (item : QueueItem) (a : Archiver) : Except Report (List QueueItem) × Archiver :=
  match (tick.view item.path).metadata with
  | .notFound => (.ok [], a.remove item.path)
  | .failed _ => (.ok [], a)
  | .opened modified =>
    if directoryChanged (a.lastSeenModified item.path) modified then
      match scanDir cfg tick item modified a with
      | (.error e, a) => (.error e, a)
      | (.ok (), a) => descend cfg tick item a
    else descend cfg tick item (a.skip item.path)

/-- The directories a queued one leads to. -/
def childrenOf (item : QueueItem) : List QueueItem :=
  match (tick.view item.path).list with
  | .opened listing => (children cfg item listing).toOption.getD []
  | _ => []

/-- The number of directories under a queued one, itself included, down to a depth. -/
def size : ℕ → QueueItem → ℕ
  | 0, _ => 1
  | n + 1, item => 1 + ((childrenOf cfg tick item).map (size n)).sum

/-- The number of visits that a queued directory costs. -/
def weight (item : QueueItem) : ℕ := size cfg tick (tick.depth - item.path.length) item

/-- `archive_recursive_tick`. -/
def archiveRecursiveTick (a : Archiver) : QueueWalk.End Report × Archiver :=
  let a := { a with seen := [] }
  match DirPrefix.root cfg.rootFolder with
  | .error e => (.failed e, a)
  | .ok rootPrefix =>
    QueueWalk.walk (visit cfg tick) (weight cfg tick ⟨cfg.rootFolder, rootPrefix⟩)
      [⟨cfg.rootFolder, rootPrefix⟩] a

end Tick

/-! ### All ticks -/

/-- `gc_dir_state`. -/
def gcDirState (cfg : Config) (now : ℕ) (a : Archiver) : Archiver :=
  { a with dirStates := fun path =>
      (a.dirStates path).filter fun entry => now - entry.lastHot ≤ cfg.hotDirTtl }

/-- The loop of `recursive_dir_archiver`: the outcome of a tick is only logged. -/
def recursiveDirArchiver (cfg : Config) (ticks : List Tick) : Archiver :=
  ticks.foldl
    (fun a tick => gcDirState cfg tick.endsAt (archiveRecursiveTick cfg tick a).2) .init

/-! ### What a visit can do -/

section Visit

variable {cfg : Config} {tick : Tick}

/-- A directory that is first remembered has no known keys. -/
theorem knownInS3_eq (a : Archiver) (path : Path) (now : ℕ) :
    ((a.dirStates path).getD (.new now)).knownInS3 = a.knownInS3 path := by
  rw [Archiver.knownInS3]
  cases a.dirStates path <;> rfl

/-- A scan that completes is noted in what is remembered. -/
theorem scanDir_of_ok {item : QueueItem} {modified : Option ℕ} {a : Archiver}
    {known : List Key} {log : Log}
    (h : archiveDir cfg tick.ops (tick.view item.path).scan item (a.knownInS3 item.path) a.log =
      .ok (known, log)) :
    scanDir cfg tick item modified a =
      (.ok (),
        { dirStates := Function.update a.dirStates item.path
            (some
              { knownInS3 := known
                lastSeenModified := some (modified.getD (tick.view item.path).now)
                lastHot := (tick.view item.path).doneAt })
          log :=
            { log with
              scans :=
                { item := item
                  listing := (tick.view item.path).scan.listing
                  seen := modified.getD (tick.view item.path).now
                  doneAt := (tick.view item.path).doneAt } :: log.scans }
          seen := (item.path, .scanned) :: a.seen }) := by
  have hor : modified.or (some (tick.view item.path).now) =
      some (modified.getD (tick.view item.path).now) := by
    cases modified <;> rfl
  simp only [scanDir, knownInS3_eq, h, DirCacheEntry.markProcessed, hor]

theorem children_cons (entry : DirEntry) {item : QueueItem} {rest : Listing}
    {items : List QueueItem} (h : children cfg item rest = .ok items) :
    (children cfg item (.ok entry :: rest) = .ok items) ∨
      ∃ metadata keyPrefix, entry.metadata = .ok metadata ∧ metadata.kind = .dir ∧
        entryHasExcludedPrefix entry.fileName cfg.excludePrefix = false ∧
        item.keyPrefix.child (item.path ++ [entry.fileName]) = .ok keyPrefix ∧
        children cfg item (.ok entry :: rest) =
          .ok (⟨item.path ++ [entry.fileName], keyPrefix⟩ :: items) := by
  rw [children, h]
  dsimp only
  cases hm : entry.metadata with
  | error e => exact .inl rfl
  | ok metadata =>
    by_cases hdir : metadata.kind = .dir
    · cases hex : entryHasExcludedPrefix entry.fileName cfg.excludePrefix with
      | true => exact .inl (by simp [hdir])
      | false =>
        cases hp : item.keyPrefix.child (item.path ++ [entry.fileName]) with
        | error e => exact .inl (by simp [hdir])
        | ok keyPrefix =>
          exact .inr ⟨metadata, keyPrefix, rfl, hdir, rfl, rfl, by simp [hdir]⟩
    · exact .inl (by simp [hdir])

/-- A queued subdirectory is one of the listed entries. -/
theorem exists_of_mem_children {item c : QueueItem} {listing : Listing}
    {items : List QueueItem} (h : children cfg item listing = .ok items) (hc : c ∈ items) :
    ∃ entry metadata, .ok entry ∈ listing ∧ entry.metadata = .ok metadata ∧
      metadata.kind = .dir ∧ c.path = item.path ++ [entry.fileName] := by
  induction listing generalizing items with
  | nil =>
    cases h
    simp at hc
  | cons e rest ih =>
    cases e with
    | error e => simp [children] at h
    | ok entry =>
      cases hrest : children cfg item rest with
      | error e => simp [children, hrest] at h
      | ok tailItems =>
        have hlater : c ∈ tailItems → ∃ entry' metadata, .ok entry' ∈ .ok entry :: rest ∧
            entry'.metadata = .ok metadata ∧ metadata.kind = .dir ∧
            c.path = item.path ++ [entry'.fileName] := by
          intro hmem
          obtain ⟨entry', metadata, hin, hrest⟩ := ih hrest hmem
          exact ⟨entry', metadata, List.mem_cons_of_mem _ hin, hrest⟩
        rcases children_cons entry hrest with heq | ⟨metadata, keyPrefix, hm, hdir, -, -, heq⟩
        · rw [heq] at h
          cases h
          exact hlater hc
        · rw [heq] at h
          cases h
          rcases List.mem_cons.mp hc with rfl | hmem
          · exact ⟨entry, metadata, by simp, hm, hdir, rfl⟩
          · exact hlater hmem

/-- The walk is led from a queued directory to one that its listing names: both can be
opened, and the name is neither excluded nor without a key prefix. -/
def Leads (cfg : Config) (tick : Tick) (item c : QueueItem) : Prop :=
  ∃ modified listing entry metadata,
    (tick.view item.path).metadata = .opened modified ∧
    (tick.view item.path).list = .opened listing ∧
    .ok entry ∈ listing ∧ entry.metadata = .ok metadata ∧ metadata.kind = .dir ∧
    entryHasExcludedPrefix entry.fileName cfg.excludePrefix = false ∧
    c.path = item.path ++ [entry.fileName] ∧ item.keyPrefix.child c.path = .ok c.keyPrefix

/-- A listing without errors is followed to every subdirectory. -/
theorem children_complete {item : QueueItem} {listing : Listing}
    (h : ∀ e ∈ listing, ∃ entry, e = .ok entry) :
    ∃ items, children cfg item listing = .ok items ∧
      ∀ entry metadata keyPrefix, .ok entry ∈ listing → entry.metadata = .ok metadata →
        metadata.kind = .dir → entryHasExcludedPrefix entry.fileName cfg.excludePrefix = false →
        item.keyPrefix.child (item.path ++ [entry.fileName]) = .ok keyPrefix →
        ⟨item.path ++ [entry.fileName], keyPrefix⟩ ∈ items := by
  induction listing with
  | nil => exact ⟨[], rfl, by simp⟩
  | cons e rest ih =>
    obtain ⟨first, rfl⟩ := h e (by simp)
    obtain ⟨items, hitems, hin⟩ := ih fun e he => h e (List.mem_cons_of_mem _ he)
    rcases children_cons first hitems with heq | ⟨metadata, keyPrefix, hm, hdir, hex, hp, heq⟩
    · refine ⟨items, heq, ?_⟩
      intro entry metadata keyPrefix hmem hm hdir hex hp
      rcases List.mem_cons.mp hmem with hfirst | hrest
      · -- The first entry would have been queued.
        cases hfirst
        simp only [children, hitems, hm, hdir, hex, hp, if_true, Bool.false_eq_true, if_false,
          Except.ok.injEq] at heq
        exact absurd (congrArg List.length heq) (by simp)
      · exact hin entry metadata keyPrefix hrest hm hdir hex hp
    · refine ⟨_, heq, ?_⟩
      intro entry metadata' keyPrefix' hmem hm' hdir' hex' hp'
      rcases List.mem_cons.mp hmem with hfirst | hrest
      · cases hfirst
        rw [hp] at hp'
        cases hp'
        simp
      · exact List.mem_cons_of_mem _ (hin entry metadata' keyPrefix' hrest hm' hdir' hex' hp')

/-- What a visit keeps: it is enough that it is kept when what is remembered of a directory
is dropped, when a directory is passed over, when it is scanned and when it is skipped. -/
theorem visit_keeps {I : Archiver → Prop} {item : QueueItem} {a : Archiver}
    (hremove : ∀ a, I a → I (a.remove item.path))
    (hpass : (∀ modified, (tick.view item.path).metadata ≠ .opened modified) → I a)
    (hscan : ∀ modified, (tick.view item.path).metadata = .opened modified →
      directoryChanged (a.lastSeenModified item.path) modified = true →
      I (scanDir cfg tick item modified a).2)
    (hskip : ∀ modified, (tick.view item.path).metadata = .opened modified →
      directoryChanged (a.lastSeenModified item.path) modified = false →
      I (a.skip item.path)) : I (visit cfg tick item a).2 := by
  have hdescend : ∀ b, I b → I (descend cfg tick item b).2 := by
    intro b hb
    rw [descend]
    split
    · exact hremove b hb
    · exact hb
    · exact hb
  rw [visit]
  cases hm : (tick.view item.path).metadata with
  | notFound => exact hremove a (hpass (by simp [hm]))
  | failed e => exact hpass (by simp [hm])
  | opened modified =>
    cases hc : directoryChanged (a.lastSeenModified item.path) modified with
    | false => simpa [hc] using hdescend _ (hskip modified hm hc)
    | true =>
      have hb := hscan modified hm hc
      rcases hs : scanDir cfg tick item modified a with ⟨r, b⟩
      rw [hs] at hb
      cases r with
      | error e => simpa [hc, hs] using hb
      | ok u => simpa [hc, hs] using hdescend b hb

/-- What a visit queues. -/
theorem visit_new {item : QueueItem} {a : Archiver} {new : List QueueItem}
    (h : (visit cfg tick item a).1 = .ok new) : new = [] ∨ new = childrenOf cfg tick item := by
  have hdescend : ∀ b, (descend cfg tick item b).1 = .ok new →
      new = [] ∨ new = childrenOf cfg tick item := by
    intro b hb
    rw [descend] at hb
    rw [childrenOf]
    split at hb
    · cases hb
      exact .inl rfl
    · cases hb
      exact .inl rfl
    · rename_i listing hl
      rw [hl]
      simp only at hb
      exact .inr (by simp [hb, Except.toOption])
  rw [visit] at h
  cases hm : (tick.view item.path).metadata with
  | notFound => simp_all
  | failed e => simp_all
  | opened modified =>
    rw [hm] at h
    dsimp only at h
    split at h
    · split at h
      · cases h
      · exact hdescend _ h
    · exact hdescend _ h

theorem childrenOf_path {item c : QueueItem} (h : c ∈ childrenOf cfg tick item) :
    c.path.length = item.path.length + 1 ∧ item.path.length < tick.depth := by
  rw [childrenOf] at h
  split at h
  · rename_i listing hl
    cases hc : children cfg item listing with
    | error e => simp [hc, Except.toOption] at h
    | ok items =>
      rw [hc] at h
      obtain ⟨entry, metadata, hin, hm, hdir, hpath⟩ := exists_of_mem_children hc h
      exact ⟨by simp [hpath], tick.shallow _ _ _ _ hl hin hm hdir⟩
  · simp at h

theorem weight_pos (item : QueueItem) : 0 < weight cfg tick item := by
  rw [weight]
  cases tick.depth - item.path.length with
  | zero => simp [size]
  | succ n =>
    rw [size]
    omega

/-- A directory pays for its subdirectories. -/
theorem weight_children (item : QueueItem) (a : Archiver) (new : List QueueItem)
    (h : (visit cfg tick item a).1 = .ok new) :
    (new.map (weight cfg tick)).sum + 1 ≤ weight cfg tick item := by
  have hpos : 1 ≤ weight cfg tick item := weight_pos item
  rcases visit_new h with rfl | rfl
  · simpa using hpos
  · cases hc : childrenOf cfg tick item with
    | nil => simpa using hpos
    | cons c cs =>
      have hlt := (childrenOf_path (hc ▸ List.mem_cons_self : c ∈ childrenOf cfg tick item)).2
      obtain ⟨n, hn⟩ : ∃ n, tick.depth - item.path.length = n + 1 :=
        ⟨tick.depth - item.path.length - 1, by omega⟩
      -- The subdirectories are one level further down.
      have hsize : ∀ d ∈ childrenOf cfg tick item, weight cfg tick d = size cfg tick n d := by
        intro d hd
        have := (childrenOf_path hd).1
        rw [weight, show tick.depth - d.path.length = n by omega]
      rw [weight, hn, size, ← hc, List.map_congr_left hsize]
      omega

/-- **A tick ends**: its queue is empty, or a call has failed. -/
theorem archiveRecursiveTick_ne_outOfFuel (a : Archiver) :
    (archiveRecursiveTick cfg tick a).1 ≠ .outOfFuel := by
  simp only [archiveRecursiveTick]
  cases DirPrefix.root cfg.rootFolder with
  | error e => simp
  | ok rootPrefix => exact QueueWalk.walk_ne_outOfFuel weight_children (by simp) weight_pos

end Visit

/-! ### What a scan does to the files -/

section Files

variable {cfg : Config} {ops : Path → FileOps}

/-- A log that has only grown, by files found or offered. -/
structure Log.Grows (old new : Log) : Prop where
  found : ∀ key ∈ old.found, key ∈ new.found
  offered : ∀ path ∈ old.offered, path ∈ new.offered
  scans : new.scans = old.scans

theorem Log.Grows.refl (log : Log) : log.Grows log :=
  ⟨fun _ h => h, fun _ h => h, rfl⟩

theorem Log.Grows.trans {a b c : Log} (hab : a.Grows b) (hbc : b.Grows c) : a.Grows c :=
  ⟨fun k h => hbc.found k (hab.found k h), fun p h => hbc.offered p (hab.offered p h),
    hbc.scans.trans hab.scans⟩

/-- The file has been found in the store, or its contents were offered to `put`. -/
def Log.Covers (log : Log) (file : Key × Path) : Prop :=
  file.1 ∈ log.found ∨ file.2 ∈ log.offered

theorem Log.Grows.covers {old new : Log} (h : old.Grows new) {file : Key × Path}
    (hc : old.Covers file) : new.Covers file :=
  hc.imp (h.found _) (h.offered _)

/-- The calls for a file get as far as `put`, or find the file. -/
def served (ops : FileOps) : Bool :=
  match ops.existsInStore, ops.read with
  | .ok true, _ => true
  | .ok false, .ok _ => true
  | _, _ => false

/-- What one file of the stream does: **the log grows, a key becomes known only when it was
found, and a file whose calls are answered is covered**. -/
theorem processFile_spec (ops : Path → FileOps) (state : List Key × Log) (file : Key × Path) :
    state.2.Grows (processFile ops state file).2 ∧
      (∀ key ∈ (processFile ops state file).1,
        key ∈ state.1 ∨ key ∈ (processFile ops state file).2.found) ∧
      (served (ops file.2) = true → (processFile ops state file).2.Covers file) := by
  obtain ⟨known, log⟩ := state
  simp only [processFile, processSingleFile, served, Log.Covers]
  rcases hex : (ops file.2).existsInStore with e | b
  · exact ⟨Log.Grows.refl log, fun k hk => .inl hk, by simp⟩
  · cases b with
    | true =>
      refine ⟨⟨fun k hk => List.mem_cons_of_mem _ hk, fun _ h => h, rfl⟩, ?_, by simp⟩
      intro k hk
      rcases List.mem_cons.mp hk with rfl | hk
      · exact .inr (by simp)
      · exact .inl hk
    | false =>
      rcases hread : (ops file.2).read with e | bytes
      · exact ⟨Log.Grows.refl log, fun k hk => .inl hk, by simp⟩
      · -- Offered, whatever `put` answers.
        have hgrows : log.Grows { log with offered := file.2 :: log.offered } :=
          ⟨fun _ h => h, fun p hp => List.mem_cons_of_mem _ hp, rfl⟩
        rcases hput : (ops file.2).put with e | u
        · exact ⟨hgrows, fun k hk => .inl hk, fun _ => .inr (by simp)⟩
        · exact ⟨hgrows, fun k hk => .inl hk, fun _ => .inr (by simp)⟩

/-- What the whole stream does. -/
theorem foldl_processFile_spec (ops : Path → FileOps) (files : List (Key × Path))
    (state : List Key × Log) :
    state.2.Grows (files.foldl (processFile ops) state).2 ∧
      (∀ key ∈ (files.foldl (processFile ops) state).1,
        key ∈ state.1 ∨ key ∈ (files.foldl (processFile ops) state).2.found) ∧
      ∀ file ∈ files, served (ops file.2) = true →
        (files.foldl (processFile ops) state).2.Covers file := by
  induction files generalizing state with
  | nil => exact ⟨Log.Grows.refl _, fun k hk => .inl hk, by simp⟩
  | cons file files ih =>
    obtain ⟨hg, hk, hs⟩ := processFile_spec ops state file
    obtain ⟨hg', hk', hs'⟩ := ih (processFile ops state file)
    refine ⟨hg.trans hg', ?_, ?_⟩
    · intro key hkey
      rcases hk' key hkey with h | h
      · exact (hk key h).imp_right (hg'.found key)
      · exact .inr h
    · intro f hf hserved
      rcases List.mem_cons.mp hf with rfl | hf
      · exact hg'.covers (hs hserved)
      · exact hs' f hf hserved

/-- A completed `archive_dir` only adds to the log, and knows only what was found. -/
theorem archiveDir_spec {scan : Opened Listing} {item : QueueItem} {known known' : List Key}
    {log log' : Log} (h : archiveDir cfg ops scan item known log = .ok (known', log'))
    (hknown : ∀ key ∈ known, key ∈ log.found) :
    log.Grows log' ∧ ∀ key ∈ known', key ∈ log'.found := by
  simp only [archiveDir, if_neg item.keyPrefix.ne_nil] at h
  split at h
  · cases h
    exact ⟨Log.Grows.refl _, hknown⟩
  · cases h
  · split at h
    · cases h
    · cases h
      exact ⟨Log.Grows.refl _, hknown⟩
    · rename_i file files hfiles
      obtain ⟨hg, hk, -⟩ := foldl_processFile_spec ops
        ((file :: files).filter (·.1 ∉ known.filter (· ∈ (file :: files).map (·.1))))
        (known.filter (· ∈ (file :: files).map (·.1)), log)
      simp only [Except.ok.injEq] at h
      rw [h] at hg hk
      refine ⟨hg, fun key hkey => ?_⟩
      rcases hk key hkey with hold | hnew
      · exact hg.found key (hknown key (List.mem_filter.mp hold).1)
      · exact hnew

/-- The entry, and its metadata, could be read. -/
def entryReads : Except Report DirEntry → Bool
  | .error _ => false
  | .ok entry => match entry.metadata with | .error _ => false | .ok _ => true

/-- The scan of a directory meets no error, loses no file to a failed `exists` or `read`, and
no two of its files have the same key. -/
def ScansCleanly (cfg : Config) (ops : Path → FileOps) (scan : Opened Listing)
    (item : QueueItem) (known : List Key) : Prop :=
  (match scan with | .failed _ => false | _ => true) = true ∧
    (∀ e ∈ scan.listing, entryReads e = true) ∧
    ((eligible cfg item scan.listing).map (·.1)).Nodup ∧
    ∀ file ∈ eligible cfg item scan.listing, file.1 ∈ known ∨ served (ops file.2) = true

instance (scan : Opened Listing) (item : QueueItem) (known : List Key) :
    Decidable (ScansCleanly cfg ops scan item known) :=
  inferInstanceAs (Decidable (_ ∧ _))

/-- The local map of a listing without errors has every file in it, unless a file of the
same key comes later. -/
theorem collect_complete {item : QueueItem} {listing : Listing} (files : List (Key × Path))
    (hreads : ∀ e ∈ listing, entryReads e = true)
    (hkeys : ((eligible cfg item listing).map (·.1)).Nodup) :
    ∃ all, collect cfg item listing files = .ok all ∧
      (∀ file ∈ files, file.1 ∉ (eligible cfg item listing).map (·.1) → file ∈ all) ∧
      ∀ file ∈ eligible cfg item listing, file ∈ all := by
  induction listing generalizing files with
  | nil => exact ⟨files, rfl, fun f hf _ => hf, by simp [eligible]⟩
  | cons e rest ih =>
    have hrest := fun e he => hreads e (List.mem_cons_of_mem _ he)
    have he := hreads e (by simp)
    rcases e with e | entry
    · simp [entryReads] at he
    · rcases hm : entry.metadata with e | metadata
      · simp [entryReads, hm] at he
      · by_cases ht : takes cfg entry metadata = true
        · -- The entry goes into the map, over any file of its key.
          have heq : eligible cfg item (.ok entry :: rest) =
              located item entry.fileName :: eligible cfg item rest := by
            simp [eligible, hm, ht]
          rw [heq, List.map_cons, List.nodup_cons] at hkeys
          obtain ⟨all, hall, hstay, hin⟩ :=
            ih (insertLocal files (located item entry.fileName)) hrest hkeys.2
          refine ⟨all, by simp [collect, hm, ht, hall], ?_, ?_⟩
          · intro f hf hnot
            rw [heq, List.map_cons, List.mem_cons, not_or] at hnot
            refine hstay f ?_ hnot.2
            rw [insertLocal]
            exact List.mem_cons_of_mem _ (List.mem_filter.mpr ⟨hf, by simpa using hnot.1⟩)
          · intro f hf
            rw [heq] at hf
            rcases List.mem_cons.mp hf with rfl | hf
            · exact hstay _ (by simp [insertLocal]) hkeys.1
            · exact hin f hf
        · have heq : eligible cfg item (.ok entry :: rest) = eligible cfg item rest := by
            simp [eligible, hm, ht]
          rw [heq] at hkeys ⊢
          obtain ⟨all, hall, hstay, hin⟩ := ih files hrest hkeys
          exact ⟨all, by simp [collect, hm, ht, hall], hstay, hin⟩

/-- **A clean scan completes and covers every file it takes.** -/
theorem archiveDir_of_scansCleanly {scan : Opened Listing} {item : QueueItem}
    {known : List Key} (log : Log) (h : ScansCleanly cfg ops scan item known) :
    ∃ known' log', archiveDir cfg ops scan item known log = .ok (known', log') ∧
      ((∀ key ∈ known, key ∈ log.found) →
        ∀ file ∈ eligible cfg item scan.listing, log'.Covers file) := by
  obtain ⟨hopened, hreads, hkeys, hserved⟩ := h
  simp only [archiveDir, if_neg item.keyPrefix.ne_nil]
  cases scan with
  | notFound => exact ⟨known, log, rfl, by simp [Opened.listing, eligible]⟩
  | failed e => simp at hopened
  | opened listing =>
    simp only [Opened.listing] at hreads hkeys hserved ⊢
    obtain ⟨all, hall, -, hin⟩ := collect_complete [] hreads hkeys
    rw [hall]
    cases all with
    | nil => exact ⟨known, log, rfl, fun _ f hf => by simpa using hin f hf⟩
    | cons file files =>
      let kept := known.filter (· ∈ (file :: files).map (·.1))
      obtain ⟨hg, -, hs⟩ := foldl_processFile_spec ops
        ((file :: files).filter (·.1 ∉ kept)) (kept, log)
      refine ⟨_, _, rfl, ?_⟩
      intro hknown f hf
      by_cases hk : f.1 ∈ kept
      · -- Known keys were found by an earlier scan.
        exact .inl (hg.found _ (hknown _ (List.mem_filter.mp hk).1))
      · refine hs f (List.mem_filter.mpr ⟨hin f hf, by simpa using hk⟩) ?_
        refine (hserved f hf).resolve_left fun hold => hk ?_
        exact List.mem_filter.mpr ⟨hold, decide_eq_true (List.mem_map_of_mem (hin f hf))⟩

end Files

end FolderArchiver

end Archive

end MonadServices
