import MonadServices.Archive.FolderArchiver
import MonadServices.Archive.Kv
import MonadServices.Lib.Bytes

/-!
# The archive of the consensus blocks

The consensus client writes its blocks to a ledger: a directory for the headers and one for the
bodies. A worker polls both of them and copies the files to the store. It lists the directories,
leaves out the files that it knows to be in the store and those that have been modified a short
time ago, and processes the others, up to ten at the same time: it asks the store whether the file
is there, reads it if not, and puts it without overwriting. Any of its calls may fail, the worker
may be restarted, other workers may use the same store, and all of this happens while the ledger is
being written.

A file of the ledger is written once; it may be removed afterwards. The worker reads the metadata of
a file, and then the clock. **As long as a file that is still being written at that time is fresh,
every value in the store is that of the whole file, it stays there, and what the worker takes to be
in the store is there** (`MonadServices.Archive.BftArchiveWorker.archived`). A tick stores every
file that is complete and old enough, unless a call for this file or the listing of its directory
fails, or the clock is set back (`MonadServices.Archive.BftArchiveWorker.tick_stores`).
-/

namespace MonadServices

namespace Archive

namespace BftArchiveWorker

open FolderArchiver (Key Metadata Opened fileIsTooNew)

/-! ### The ledger -/

inductive Dir where
  | headers
  | bodies
  deriving DecidableEq

/-- The name of a file, which may not be UTF-8. -/
inductive FileName where
  | utf8 (name : List Char)
  | other (bytes : Bytes)
  deriving DecidableEq

/-- `OsStr::to_str`. -/
def FileName.toStr : FileName → Option (List Char)
  | .utf8 name => some name
  | .other _ => none

abbrev LedgerPath := Dir × FileName

/-- What is to be found under a path. -/
inductive Entry where
  | absent
  /-- Not a file. -/
  | other
  /-- A file that is being written: what is there, and when it was modified, if this is known. -/
  | writing (written : Bytes) (modified : Option ℕ)
  | complete (modified : Option ℕ)
  | removed
  deriving DecidableEq

/-- `DirEntry::metadata`. -/
def Entry.metadata : Entry → Option Metadata
  | .absent | .removed => none
  | .other => some ⟨.other, none⟩
  | .writing _ modified | .complete modified => some ⟨.file, modified⟩

/-- The contents of a file; `block` is what is to be there in the end. -/
def Entry.read (block : Bytes) : Entry → Option Bytes
  | .writing written _ => some written
  | .complete _ => some block
  | _ => none

/-- What the consensus client does. -/
inductive LedgerOp where
  | write (written : Bytes) (modified : Option ℕ)
  | complete (modified : Option ℕ)
  | remove

/-- **A file is written once.** -/
def Entry.step : Entry → LedgerOp → Option Entry
  | .absent, .write written modified | .writing _ _, .write written modified =>
    some (.writing written modified)
  | .absent, .complete modified | .writing _ _, .complete modified => some (.complete modified)
  | .writing _ _, .remove | .complete _, .remove => some .removed
  | _, _ => none

/-! ### The worker -/

/-- `BFT_BLOCK_PREFIX`. -/
def bftBlockPrefix : List Char := "bft_block/".toList

/-- `BFT_BLOCK_HEADER_EXTENSION` and `BFT_BLOCK_BODY_EXTENSION`. -/
def Dir.extension : Dir → List Char
  | .headers => ".header".toList
  | .bodies => ".body".toList

/-- The key of a file with a name. -/
def keyOf (dir : Dir) (name : List Char) : Key := bftBlockPrefix ++ name ++ dir.extension

/-- `UPLOAD_CONCURRENCY`. -/
def uploadConcurrency : ℕ := 10

/-- What `process_single_file` is about to do. -/
inductive Stage where
  | checking
  | reading
  | putting (bytes : Bytes)

structure Task where
  key : Key
  path : LedgerPath
  stage : Stage

inductive Phase where
  /-- It waits for the next tick. -/
  | waiting
  /-- It is about to open a directory; what has been found in the one before. -/
  | opening (dir : Dir) (found : List (Key × LedgerPath))
  | listing (dir : Dir) (rest : List FileName) (found : List (Key × LedgerPath))
  /-- It has the metadata of an entry, and is about to read the clock. -/
  | judging (dir : Dir) (name : FileName) (metadata : Metadata) (rest : List FileName)
    (found : List (Key × LedgerPath))
  | processing (queue : List (Key × LedgerPath)) (tasks : List Task)

structure Worker where
  knownInS3 : List Key
  phase : Phase

/-- A worker that has just been started. -/
def Worker.init : Worker := ⟨[], .waiting⟩

/-- What is to be done when all is found: what is not there any more is not remembered, and what is
known to be in the store is left out. -/
def Worker.process (w : Worker) (found : List (Key × LedgerPath)) : Worker :=
  if found = [] then { w with phase := .waiting }
  else
    ⟨w.knownInS3.filter (found.map Prod.fst).contains,
      .processing (found.filter fun file =>
        !(w.knownInS3.filter (found.map Prod.fst).contains).contains file.1) []⟩

/-- A directory has been listed. -/
def Worker.listed (w : Worker) (dir : Dir) (found : List (Key × LedgerPath)) : Worker :=
  match dir with
  | .headers => { w with phase := .opening .bodies found }
  | .bodies => w.process found

/-- Inserts into the local map; a key that is there already is overwritten. -/
def insertLocal (found : List (Key × LedgerPath)) (file : Key × LedgerPath) :
    List (Key × LedgerPath) :=
  file :: found.filter (·.1 ≠ file.1)

/-- An entry of a directory, in `add_dir_to_local_map`. -/
def addEntry (minAge : Option ℕ) (now : ℕ) (path : LedgerPath) (metadata : Metadata)
    (found : List (Key × LedgerPath)) : List (Key × LedgerPath) :=
  if metadata.kind ≠ .file || minAge.any (fileIsTooNew metadata · now) then found
  else
    match path.2.toStr with
    | none => found
    | some name => insertLocal found (keyOf path.1 name, path)

/-! ### The system -/

/-- The ledger, the time of the system clock, the store and the worker. -/
structure System where
  ledger : LedgerPath → Entry
  now : ℕ
  store : Key → Option Bytes
  worker : Worker

/-- What the worker is told when it has put a value. -/
inductive Answer where
  | ok
  /-- It has failed, after or before it had an effect. -/
  | failed (applied : Bool)

/-- What happens. -/
inductive Event where
  | ledger (path : LedgerPath) (op : LedgerOp)
  | clock (now : ℕ)
  /-- Another worker puts a file; or a put of this worker has its effect after a restart. -/
  | other (path : LedgerPath)
  | tick
  | readDir (answer : Opened (List FileName))
  /-- The next entry and its metadata are read. -/
  | nextEntry (fails : Bool)
  /-- The clock is read, and the entry is taken or left out. -/
  | judge
  /-- The next file is processed: the map may give them in any order. -/
  | start (i : ℕ)
  /-- What comes next for one of the tasks. -/
  | advance (i : ℕ) (answer : Answer)
  | finish
  | restart

def System.goto (s : System) (phase : Phase) : System :=
  { s with worker := ⟨s.worker.knownInS3, phase⟩ }

/-- A task is through; its key is known to be in the store. -/
def Worker.know (w : Worker) (key : Key) (queue : List (Key × LedgerPath)) (tasks : List Task) :
    Worker :=
  ⟨key :: w.knownInS3, .processing queue tasks⟩

section Steps

variable (minAge : Option ℕ) (block : LedgerPath → Bytes)

/-- One step of `process_single_file`. -/
def System.advance (s : System) (queue : List (Key × LedgerPath)) (tasks : List Task) (i : ℕ)
    (task : Task) (answer : Answer) : System :=
  match task.stage, answer with
  | .checking, .ok =>
    if (s.store task.key).isSome then
      { s with worker := s.worker.know task.key queue (tasks.eraseIdx i) }
    else s.goto (.processing queue (tasks.set i ⟨task.key, task.path, .reading⟩))
  | .reading, .ok =>
    match (s.ledger task.path).read (block task.path) with
    | some bytes => s.goto (.processing queue (tasks.set i ⟨task.key, task.path, .putting bytes⟩))
    | none => s.goto (.processing queue (tasks.eraseIdx i))
  | .putting bytes, .ok =>
    ⟨s.ledger, s.now, (put s.store task.key bytes .noClobber).1,
      s.worker.know task.key queue (tasks.eraseIdx i)⟩
  | .putting bytes, .failed true =>
    ⟨s.ledger, s.now, (put s.store task.key bytes .noClobber).1,
      ⟨s.worker.knownInS3, .processing queue (tasks.eraseIdx i)⟩⟩
  | _, .failed _ => s.goto (.processing queue (tasks.eraseIdx i))

/-- **One step**; `none` when it is not possible. -/
def System.step (s : System) : Event → Option System
  | .ledger path op => ((s.ledger path).step op).map fun entry =>
    { s with ledger := Function.update s.ledger path entry }
  | .clock now => some { s with now := now }
  | .other path => path.2.toStr.map fun name =>
    { s with store := (put s.store (keyOf path.1 name) (block path) .noClobber).1 }
  | .tick =>
    match s.worker.phase with
    | .waiting => some (s.goto (.opening .headers []))
    | _ => none
  | .readDir answer =>
    match s.worker.phase with
    | .opening dir found =>
      match answer with
      | .opened names => some (s.goto (.listing dir names found))
      | .notFound | .failed _ => some { s with worker := s.worker.listed dir found }
    | _ => none
  | .nextEntry fails =>
    match s.worker.phase with
    | .listing dir [] found => some { s with worker := s.worker.listed dir found }
    | .listing dir (name :: rest) found =>
      if fails then some { s with worker := s.worker.listed dir found }
      else
        match (s.ledger (dir, name)).metadata with
        | none => some { s with worker := s.worker.listed dir found }
        | some metadata => some (s.goto (.judging dir name metadata rest found))
    | _ => none
  | .judge =>
    match s.worker.phase with
    | .judging dir name metadata rest found =>
      some (s.goto (.listing dir rest (addEntry minAge s.now (dir, name) metadata found)))
    | _ => none
  | .start i =>
    match s.worker.phase with
    | .processing queue tasks =>
      if tasks.length < uploadConcurrency then
        queue[i]?.map fun file => s.goto
          (.processing (queue.eraseIdx i) (tasks ++ [⟨file.1, file.2, .checking⟩]))
      else none
    | _ => none
  | .advance i answer =>
    match s.worker.phase with
    | .processing queue tasks =>
      tasks[i]?.map fun task => s.advance block queue tasks i task answer
    | _ => none
  | .finish =>
    match s.worker.phase with
    | .processing [] [] => some (s.goto .waiting)
    | _ => none
  | .restart => some { s with worker := .init }

/-- What some events lead to. -/
def System.run (s : System) (events : List Event) : Option System :=
  events.foldlM (System.step minAge block) s

end Steps

/-- Something holds of each step of a run. -/
def EachStep (minAge : Option ℕ) (block : LedgerPath → Bytes) (P : System → Event → Prop) :
    System → List Event → Prop
  | _, [] => True
  | s, e :: events =>
    P s e ∧ ∀ s', s.step minAge block e = some s' → EachStep minAge block P s' events

/-- The entry of which the age is to be judged, with the metadata that have been read of it. -/
def Phase.judged : Phase → Option (LedgerPath × Metadata)
  | .judging dir name metadata _ _ => some ((dir, name), metadata)
  | _ => none

/-- **A file that is being written while its age is judged is fresh**, by the metadata that have
been read of it. It is, if every file is completed before it is as old as this, by any time at which
it has been modified. -/
def Fresh (minAge : Option ℕ) (s : System) : Prop :=
  ∀ path metadata, s.worker.phase.judged = some (path, metadata) →
    ∀ written modified, s.ledger path = .writing written modified →
      minAge.any (fileIsTooNew metadata · s.now) = true

/-! ### Keys -/

section Keys

variable {dir dir' : Dir} {name name' : List Char} {path path' : LedgerPath}

theorem keyOf_inj : keyOf dir name = keyOf dir' name' ↔ dir = dir' ∧ name = name' := by
  constructor
  · intro h
    unfold keyOf at h
    rw [List.append_assoc, List.append_assoc] at h
    replace h := List.append_cancel_left h
    -- The key of a header ends with another letter than that of a body.
    have hheader : Dir.headers.extension.getLast? = some 'r' := by decide
    have hbody : Dir.bodies.extension.getLast? = some 'y' := by decide
    have hlast := congrArg List.getLast? h
    rw [List.getLast?_append, List.getLast?_append] at hlast
    cases dir <;> cases dir'
    · exact ⟨rfl, List.append_cancel_right h⟩
    · rw [hheader, hbody] at hlast
      exact absurd (Option.some.inj hlast) (by decide)
    · rw [hheader, hbody] at hlast
      exact absurd (Option.some.inj hlast) (by decide)
    · exact ⟨rfl, List.append_cancel_right h⟩
  · rintro ⟨rfl, rfl⟩
    rfl

/-- A file with its key. -/
def Located (file : Key × LedgerPath) : Prop :=
  ∃ name, file.2.2.toStr = some name ∧ file.1 = keyOf file.2.1 name

theorem toStr_eq_some {file : FileName} (h : file.toStr = some name) : file = .utf8 name := by
  cases file with
  | utf8 name' =>
    cases h
    rfl
  | other bytes => cases h

/-- **Every file has a key of its own.** -/
theorem Located.inj {key : Key} (h : Located (key, path)) (h' : Located (key, path')) :
    path = path' := by
  obtain ⟨name, hname, hkey⟩ := h
  obtain ⟨name', hname', hkey'⟩ := h'
  obtain ⟨hdir, rfl⟩ := keyOf_inj.mp (hkey.symm.trans hkey')
  exact Prod.ext hdir ((toStr_eq_some hname).trans (toStr_eq_some hname').symm)

end Keys

/-! ### The store -/

section Store

variable {block : LedgerPath → Bytes} {store : Key → Option Bytes} {key : Key} {path : LedgerPath}

/-- **Every value in the store is that of the whole file.** -/
def Right (block : LedgerPath → Bytes) (store : Key → Option Bytes) : Prop :=
  ∀ key path, Located (key, path) → ∀ data, store key = some data → data = block path

theorem Right.put (h : Right block store) (hlocated : Located (key, path)) :
    Right block (put store key (block path) .noClobber).1 := by
  intro key' path' hlocated' data hdata
  rcases eq_or_ne key' key with rfl | hne
  · obtain rfl := hlocated.inj hlocated'
    unfold Archive.put at hdata
    split at hdata
    · exact h key' path hlocated data hdata
    · dsimp only at hdata
      rw [Function.update_self] at hdata
      exact (Option.some.inj hdata).symm
  · rw [put_of_ne hne] at hdata
    exact h key' path' hlocated' data hdata

/-- Nothing is overwritten. -/
theorem put_of_eq_some {key' : Key} {data data' : Bytes} (h : store key' = some data') :
    (put store key data .noClobber).1 key' = some data' := by
  rcases eq_or_ne key' key with rfl | hne
  · rw [put, if_pos ⟨rfl, h ▸ rfl⟩]
    exact h
  · rw [put_of_ne hne]
    exact h

end Store

/-! ### What a step keeps -/

/-- A file that is not written any more. -/
def Entry.Settled (e : Entry) : Prop := e = .removed ∨ ∃ modified, e = .complete modified

theorem Entry.Settled.step {e e' : Entry} {op : LedgerOp} (h : e.Settled)
    (hstep : e.step op = some e') : e'.Settled := by
  obtain rfl | ⟨modified, rfl⟩ := h
  · cases op <;> cases hstep
  · cases op <;> cases hstep
    exact .inl rfl

/-- What is read of it is all of it. -/
theorem Entry.Settled.read {e : Entry} {block bytes : Bytes} (h : e.Settled)
    (hread : e.read block = some bytes) : bytes = block := by
  obtain rfl | ⟨modified, rfl⟩ := h
  · cases hread
  · exact (Option.some.inj hread).symm

/-- What is there goes along with metadata that have been read before. -/
def Entry.Known (metadata : Metadata) (e : Entry) : Prop :=
  e ≠ .absent ∧ (e = .other → metadata.kind ≠ .file)

theorem Entry.known_of_metadata {e : Entry} {metadata : Metadata}
    (h : e.metadata = some metadata) : e.Known metadata := by
  refine ⟨?_, ?_⟩
  · rintro rfl
    cases h
  · rintro rfl
    cases h
    decide

theorem Entry.Known.step {e e' : Entry} {metadata : Metadata} {op : LedgerOp}
    (h : e.Known metadata) (hstep : e.step op = some e') : e'.Known metadata := by
  refine ⟨?_, ?_⟩
  · rintro rfl
    cases e <;> cases op <;> cases hstep
  · rintro rfl
    cases e <;> cases op <;> cases hstep

/-- The files that are still to be processed. -/
def Phase.pending : Phase → List (Key × LedgerPath)
  | .waiting => []
  | .opening _ found | .listing _ _ found | .judging _ _ _ _ found => found
  | .processing queue tasks => queue ++ tasks.map fun task => (task.key, task.path)

/-- The tasks. -/
def Phase.tasks : Phase → List Task
  | .processing _ tasks => tasks
  | _ => []

/-- **What holds of the system**, while the files that are judged are fresh or settled. -/
structure Inv (block : LedgerPath → Bytes) (s : System) : Prop where
  right : Right block s.store
  known : ∀ key ∈ s.worker.knownInS3, (s.store key).isSome
  judged : ∀ path metadata, s.worker.phase.judged = some (path, metadata) →
    (s.ledger path).Known metadata
  pending : ∀ file ∈ s.worker.phase.pending, Located file ∧ (s.ledger file.2).Settled
  putting : ∀ task ∈ s.worker.phase.tasks, ∀ bytes, task.stage = .putting bytes →
    bytes = block task.path

section Inv

variable {minAge : Option ℕ} {block : LedgerPath → Bytes} {s s' : System}

/-- The worker goes on, and judges nothing. -/
theorem Inv.goto (h : Inv block s) {phase : Phase} (hjudged : phase.judged = none)
    (hpending : ∀ file ∈ phase.pending, Located file ∧ (s.ledger file.2).Settled)
    (hputting : ∀ task ∈ phase.tasks, ∀ bytes, task.stage = .putting bytes →
      bytes = block task.path) : Inv block (s.goto phase) := by
  refine ⟨h.right, h.known, fun path metadata heq => ?_, hpending, hputting⟩
  cases hjudged.symm.trans heq

/-- A worker that has just been started knows nothing. -/
theorem Inv.of_init (hworker : s.worker = .init) (hright : Right block s.store) :
    Inv block s := by
  refine ⟨hright, ?_, ?_, ?_, ?_⟩ <;> rw [hworker] <;> exact nofun

/-- A directory has been listed. -/
theorem Inv.listed (h : Inv block s) (dir : Dir) {found : List (Key × LedgerPath)}
    (hfound : ∀ file ∈ found, Located file ∧ (s.ledger file.2).Settled) :
    Inv block { s with worker := s.worker.listed dir found } := by
  cases dir with
  | headers => exact ⟨h.right, h.known, nofun, hfound, nofun⟩
  | bodies =>
    dsimp only [Worker.listed, Worker.process]
    split
    · exact ⟨h.right, h.known, nofun, nofun, nofun⟩
    · refine ⟨h.right, fun key hkey => h.known key (List.mem_filter.mp hkey).1, nofun,
        fun file hfile => ?_, nofun⟩
      rw [Phase.pending, List.map_nil, List.append_nil] at hfile
      exact hfound file (List.mem_filter.mp hfile).1

/-- An entry that is taken is settled. -/
theorem addEntry_settled {path : LedgerPath} {metadata : Metadata}
    {found : List (Key × LedgerPath)} (hknown : (s.ledger path).Known metadata)
    (hfresh : ∀ written modified, s.ledger path = .writing written modified →
      minAge.any (fileIsTooNew metadata · s.now) = true)
    (hfound : ∀ file ∈ found, Located file ∧ (s.ledger file.2).Settled) :
    ∀ file ∈ addEntry minAge s.now path metadata found,
      Located file ∧ (s.ledger file.2).Settled := by
  intro file hfile
  unfold addEntry at hfile
  split at hfile
  · exact hfound file hfile
  · rename_i htaken
    rw [Bool.or_eq_true, not_or, decide_eq_true_eq, not_not] at htaken
    split at hfile
    · exact hfound file hfile
    · rename_i name hname
      obtain rfl | hfile := List.mem_cons.mp hfile
      · refine ⟨⟨name, hname, rfl⟩, ?_⟩
        cases hentry : s.ledger path with
        | absent => exact absurd hentry hknown.1
        | other => exact absurd htaken.1 (hknown.2 hentry)
        | writing written modified => exact absurd (hfresh written modified hentry) htaken.2
        | complete modified => exact .inr ⟨modified, rfl⟩
        | removed => exact .inl rfl
      · exact hfound file (List.mem_filter.mp hfile).1

/-- **A task goes on.** -/
theorem Inv.advance (h : Inv block s) {queue : List (Key × LedgerPath)} {tasks : List Task}
    (hphase : s.worker.phase = .processing queue tasks) {i : ℕ} {task : Task}
    (hget : tasks[i]? = some task) (answer : Answer) :
    Inv block (s.advance block queue tasks i task answer) := by
  have hmem : task ∈ tasks := List.mem_of_getElem? hget
  have hpending := h.pending
  have hputting := h.putting
  rw [hphase] at hpending hputting
  have htask : Located (task.key, task.path) ∧ (s.ledger task.path).Settled :=
    hpending (task.key, task.path) (List.mem_append_right _ (List.mem_map_of_mem hmem))
  -- The task is through.
  have herase : (∀ file ∈ (Phase.processing queue (tasks.eraseIdx i)).pending,
      Located file ∧ (s.ledger file.2).Settled) ∧
      ∀ task ∈ (Phase.processing queue (tasks.eraseIdx i)).tasks, ∀ bytes,
        task.stage = .putting bytes → bytes = block task.path := by
    refine ⟨fun file hfile => hpending file ?_, fun task htask =>
      hputting task (List.mem_of_mem_eraseIdx htask)⟩
    obtain hfile | hfile := List.mem_append.mp hfile
    · exact List.mem_append_left _ hfile
    · exact List.mem_append_right _ (List.map_subset _ (List.eraseIdx_subset ..) hfile)
  -- The task is at another stage.
  have hset : ∀ stage, (∀ bytes, stage = .putting bytes → bytes = block task.path) →
      Inv block (s.goto (.processing queue (tasks.set i ⟨task.key, task.path, stage⟩))) := by
    intro stage hstage
    refine h.goto rfl (fun file hfile => ?_) fun task' htask' bytes hbytes => ?_
    · obtain hfile | hfile := List.mem_append.mp hfile
      · exact hpending file (List.mem_append_left _ hfile)
      · obtain ⟨task', htask', rfl⟩ := List.mem_map.mp hfile
        obtain htask' | rfl := List.mem_or_eq_of_mem_set htask'
        · exact hpending _ (List.mem_append_right _ (List.mem_map_of_mem htask'))
        · exact htask
    · obtain htask' | rfl := List.mem_or_eq_of_mem_set htask'
      · exact hputting task' htask' bytes hbytes
      · exact hstage bytes hbytes
  -- The task is through, and its value has been put.
  have hput : ∀ bytes, task.stage = .putting bytes → ∀ known,
      (∀ key ∈ known, key = task.key ∨ key ∈ s.worker.knownInS3) →
      Inv block ⟨s.ledger, s.now, (put s.store task.key bytes .noClobber).1,
        ⟨known, .processing queue (tasks.eraseIdx i)⟩⟩ := by
    intro bytes hbytes known hknown
    obtain rfl := hputting task hmem bytes hbytes
    refine ⟨h.right.put htask.1, fun key hkey => ?_, nofun, herase.1, herase.2⟩
    obtain rfl | hkey := hknown key hkey
    · exact isSome_put_self
    · exact isSome_put (h.known key hkey)
  unfold System.advance
  split
  · split
    · rename_i hsome
      refine ⟨h.right, fun key hkey => ?_, nofun, herase.1, herase.2⟩
      obtain rfl | hkey := List.mem_cons.mp hkey
      · exact hsome
      · exact h.known key hkey
    · exact hset .reading fun _ hbytes => (by cases hbytes)
  · split
    · rename_i bytes hread
      refine hset (.putting bytes) fun bytes' hbytes' => ?_
      cases hbytes'
      exact htask.2.read hread
    · exact h.goto rfl herase.1 herase.2
  · rename_i bytes hstage
    exact hput bytes hstage _ fun key hkey => List.mem_cons.mp hkey
  · rename_i bytes hstage
    exact hput bytes hstage _ fun key hkey => .inr hkey
  · exact h.goto rfl herase.1 herase.2

/-- **What a step may change**: the ledger and the time change by themselves, and nothing is removed
from the store, or overwritten. -/
structure Changes (e : Event) (s s' : System) : Prop where
  ledger : (∀ path op, e ≠ .ledger path op) → s'.ledger = s.ledger
  now : (∀ now, e ≠ .clock now) → s'.now = s.now
  store : ∀ key data, s.store key = some data → s'.store key = some data

/-- A step of the worker that puts nothing. -/
theorem changes_worker (e : Event) (s : System) (worker : Worker) :
    Changes e s { s with worker := worker } :=
  ⟨fun _ => rfl, fun _ => rfl, fun _ _ h => h⟩

/-- A step that puts a value. -/
theorem changes_put (e : Event) (s : System) (key : Key) (data : Bytes) (worker : Worker) :
    Changes e s ⟨s.ledger, s.now, (put s.store key data .noClobber).1, worker⟩ :=
  ⟨fun _ => rfl, fun _ => rfl, fun _ _ h => put_of_eq_some h⟩

theorem changes_advance (e : Event) (queue : List (Key × LedgerPath)) (tasks : List Task) (i : ℕ)
    (task : Task) (answer : Answer) :
    Changes e s (s.advance block queue tasks i task answer) := by
  unfold System.advance
  split
  · split <;> exact changes_worker e s _
  · split <;> exact changes_worker e s _
  · exact changes_put e s _ _ _
  · exact changes_put e s _ _ _
  · exact changes_worker e s _

theorem changes_step {e : Event} (hstep : s.step minAge block e = some s') : Changes e s s' := by
  cases e with
  | ledger path op =>
    obtain ⟨entry, -, rfl⟩ := Option.map_eq_some_iff.mp hstep
    exact ⟨fun h => absurd rfl (h path op), fun _ => rfl, fun _ _ h => h⟩
  | clock now =>
    cases hstep
    exact ⟨fun _ => rfl, fun h => absurd rfl (h now), fun _ _ h => h⟩
  | other path =>
    obtain ⟨name, -, rfl⟩ := Option.map_eq_some_iff.mp hstep
    exact changes_put _ s _ _ s.worker
  | tick | finish =>
    simp only [System.step] at hstep
    split at hstep <;> cases hstep
    exact changes_worker _ s _
  | readDir answer =>
    simp only [System.step] at hstep
    split at hstep
    · split at hstep <;> cases hstep <;> exact changes_worker _ s _
    · cases hstep
  | nextEntry fails =>
    simp only [System.step] at hstep
    split at hstep
    · cases hstep
      exact changes_worker _ s _
    · split at hstep
      · cases hstep
        exact changes_worker _ s _
      · split at hstep <;> cases hstep <;> exact changes_worker _ s _
    · cases hstep
  | judge =>
    simp only [System.step] at hstep
    split at hstep <;> cases hstep
    exact changes_worker _ s _
  | start i =>
    simp only [System.step] at hstep
    split at hstep
    · split at hstep
      · obtain ⟨file, -, rfl⟩ := Option.map_eq_some_iff.mp hstep
        exact changes_worker _ s _
      · cases hstep
    · cases hstep
  | advance i answer =>
    simp only [System.step] at hstep
    split at hstep
    · obtain ⟨task, -, rfl⟩ := Option.map_eq_some_iff.mp hstep
      exact changes_advance _ _ _ i task answer
    · cases hstep
  | restart =>
    cases hstep
    exact changes_worker _ s _

/-- The ledger changes. -/
theorem Inv.ledger (h : Inv block s) {path : LedgerPath} {op : LedgerOp} {entry : Entry}
    (hentry : (s.ledger path).step op = some entry) :
    Inv block { s with ledger := Function.update s.ledger path entry } := by
  refine ⟨h.right, h.known, fun path' metadata hjudged => ?_,
    fun file hfile => ⟨(h.pending file hfile).1, ?_⟩, h.putting⟩
  · have hknown := h.judged path' metadata hjudged
    dsimp only
    rcases eq_or_ne path' path with rfl | hne
    · rw [Function.update_self]
      exact hknown.step hentry
    · rw [Function.update_of_ne hne]
      exact hknown
  · have hsettled := (h.pending file hfile).2
    dsimp only
    rcases eq_or_ne file.2 path with heq | hne
    · rw [heq, Function.update_self]
      exact (heq ▸ hsettled).step hentry
    · rw [Function.update_of_ne hne]
      exact hsettled

/-- A directory is opened, or cannot be. -/
theorem Inv.readDir (h : Inv block s) {answer : Opened (List FileName)}
    (hstep : s.step minAge block (.readDir answer) = some s') : Inv block s' := by
  simp only [System.step] at hstep
  split at hstep
  · rename_i dir found hphase
    have hfound := h.pending
    rw [hphase] at hfound
    split at hstep <;> cases hstep
    · exact h.goto rfl hfound nofun
    · exact h.listed dir hfound
    · exact h.listed dir hfound
  · cases hstep

/-- The next entry is read, or cannot be. -/
theorem Inv.nextEntry (h : Inv block s) {fails : Bool}
    (hstep : s.step minAge block (.nextEntry fails) = some s') : Inv block s' := by
  simp only [System.step] at hstep
  split at hstep
  · rename_i dir found hphase
    have hfound := h.pending
    rw [hphase] at hfound
    cases hstep
    exact h.listed dir hfound
  · rename_i dir name rest found hphase
    have hfound := h.pending
    rw [hphase] at hfound
    split at hstep
    · cases hstep
      exact h.listed dir hfound
    · split at hstep <;> cases hstep
      · exact h.listed dir hfound
      · rename_i metadata hmetadata
        refine ⟨h.right, h.known, fun path metadata' hjudged => ?_, hfound, nofun⟩
        cases hjudged
        exact Entry.known_of_metadata hmetadata
  · cases hstep

/-- The age of an entry is judged. -/
theorem Inv.judge (h : Inv block s) (hfresh : Fresh minAge s)
    (hstep : s.step minAge block .judge = some s') : Inv block s' := by
  simp only [System.step] at hstep
  split at hstep <;> cases hstep
  rename_i dir name metadata rest found hphase
  have hjudged : s.worker.phase.judged = some ((dir, name), metadata) := by
    rw [hphase]
    rfl
  have hfound := h.pending
  rw [hphase] at hfound
  exact h.goto rfl (addEntry_settled (h.judged _ _ hjudged) (hfresh _ _ hjudged) hfound) nofun

/-- A task is started. -/
theorem Inv.start (h : Inv block s) {i : ℕ}
    (hstep : s.step minAge block (.start i) = some s') : Inv block s' := by
  simp only [System.step] at hstep
  split at hstep
  · rename_i queue tasks hphase
    have hpending := h.pending
    have hputting := h.putting
    rw [hphase] at hpending hputting
    split at hstep
    · obtain ⟨file, hget, rfl⟩ := Option.map_eq_some_iff.mp hstep
      refine h.goto rfl (fun file' hfile' => hpending file' ?_) fun task htask => ?_
      · rw [Phase.pending, List.map_append, ← List.append_assoc, List.mem_append] at hfile'
        obtain hfile' | hfile' := hfile'
        · obtain hfile' | hfile' := List.mem_append.mp hfile'
          · exact List.mem_append_left _ (List.mem_of_mem_eraseIdx hfile')
          · exact List.mem_append_right _ hfile'
        · obtain rfl := List.mem_singleton.mp hfile'
          exact List.mem_append_left _ (List.mem_of_getElem? hget)
      · obtain htask | htask := List.mem_append.mp htask
        · exact hputting task htask
        · obtain rfl := List.mem_singleton.mp htask
          exact fun _ hbytes => (by cases hbytes)
    · cases hstep
  · cases hstep

/-- **One step.** -/
theorem Inv.step (h : Inv block s) (hfresh : Fresh minAge s) {e : Event}
    (hstep : s.step minAge block e = some s') : Inv block s' := by
  cases e with
  | ledger path op =>
    obtain ⟨entry, hentry, rfl⟩ := Option.map_eq_some_iff.mp hstep
    exact h.ledger hentry
  | clock now =>
    cases hstep
    exact ⟨h.right, h.known, h.judged, h.pending, h.putting⟩
  | other path =>
    obtain ⟨name, hname, rfl⟩ := Option.map_eq_some_iff.mp hstep
    exact ⟨h.right.put ⟨name, hname, rfl⟩, fun key hkey => isSome_put (h.known key hkey),
      h.judged, h.pending, h.putting⟩
  | tick | finish =>
    simp only [System.step] at hstep
    split at hstep <;> cases hstep
    exact h.goto rfl nofun nofun
  | readDir answer => exact h.readDir hstep
  | nextEntry fails => exact h.nextEntry hstep
  | judge => exact h.judge hfresh hstep
  | start i => exact h.start hstep
  | advance i answer =>
    simp only [System.step] at hstep
    split at hstep
    · rename_i queue tasks hphase
      obtain ⟨task, hget, rfl⟩ := Option.map_eq_some_iff.mp hstep
      exact h.advance hphase hget answer
    · cases hstep
  | restart =>
    cases hstep
    exact ⟨h.right, nofun, nofun, nofun, nofun⟩

theorem store_run {events : List Event} (hrun : s.run minAge block events = some s') {key : Key}
    {data : Bytes} (h : s.store key = some data) : s'.store key = some data := by
  induction events generalizing s with
  | nil =>
    cases hrun
    exact h
  | cons e events ih =>
    rw [System.run, List.foldlM_cons] at hrun
    obtain ⟨t, hstep, hrest⟩ := Option.bind_eq_some_iff.mp hrun
    exact ih hrest ((changes_step hstep).store key data h)

theorem Inv.run (h : Inv block s) {events : List Event}
    (hfresh : EachStep minAge block (fun s _ => Fresh minAge s) s events)
    (hrun : s.run minAge block events = some s') : Inv block s' := by
  induction events generalizing s with
  | nil =>
    cases hrun
    exact h
  | cons e events ih =>
    rw [System.run, List.foldlM_cons] at hrun
    obtain ⟨t, hstep, hrest⟩ := Option.bind_eq_some_iff.mp hrun
    exact ih (h.step hfresh.1 hstep) (hfresh.2 t hstep) hrest

theorem EachStep.of_append {P : System → Event → Prop} {before after : List Event}
    (h : EachStep minAge block P s (before ++ after))
    (hrun : s.run minAge block before = some s') :
    EachStep minAge block P s before ∧ EachStep minAge block P s' after := by
  induction before generalizing s with
  | nil =>
    cases hrun
    exact ⟨trivial, h⟩
  | cons e before ih =>
    rw [System.run, List.foldlM_cons] at hrun
    obtain ⟨t, hstep, hrest⟩ := Option.bind_eq_some_iff.mp hrun
    refine ⟨⟨h.1, fun t' hstep' => ?_⟩, (ih (h.2 t hstep) hrest).2⟩
    obtain rfl : t = t' := Option.some.inj (hstep.symm.trans hstep')
    exact (ih (h.2 t hstep) hrest).1

theorem EachStep.cons {P : System → Event → Prop} {e : Event} {events : List Event} (h : P s e)
    (hstep : s.step minAge block e = some s') (hrest : EachStep minAge block P s' events) :
    EachStep minAge block P s (e :: events) := by
  refine ⟨h, fun t ht => ?_⟩
  obtain rfl : s' = t := Option.some.inj (hstep.symm.trans ht)
  exact hrest

/-- **Files that are not written piece by piece are fresh.** -/
theorem eachStep_fresh {events : List Event}
    (hs : ∀ path written modified, s.ledger path ≠ .writing written modified)
    (hevents : ∀ e ∈ events, ∀ path written modified, e ≠ .ledger path (.write written modified)) :
    EachStep minAge block (fun s _ => Fresh minAge s) s events := by
  induction events generalizing s with
  | nil => trivial
  | cons e events ih =>
    refine ⟨fun path _ _ written modified h => absurd h (hs path written modified),
      fun t hstep => ?_⟩
    refine ih (fun path written modified => ?_) fun e he => hevents e (List.mem_cons_of_mem _ he)
    cases e with
    | ledger path' op =>
      obtain ⟨entry, hop, rfl⟩ := Option.map_eq_some_iff.mp hstep
      rcases eq_or_ne path path' with rfl | hne
      · dsimp only
        rw [Function.update_self]
        rintro rfl
        -- Only a write leads to a file that is being written.
        cases op with
        | write w m => exact hevents _ List.mem_cons_self path w m rfl
        | complete m | remove => revert hop; cases s.ledger path <;> exact fun h => (by cases h)
      · dsimp only
        rw [Function.update_of_ne hne]
        exact hs path written modified
    | _ =>
      rw [(changes_step hstep).ledger fun _ _ h => (by cases h)]
      exact hs path written modified

def samplePath : LedgerPath := (.headers, .utf8 ['a'])

/-- There is one header. -/
def sampleSystem : System :=
  ⟨fun path => if path = samplePath then .complete (some 5) else .absent, 20, fun _ => none, .init⟩

def sampleBlock : LedgerPath → Bytes := fun _ => [1, 2]

/-- It is stored in a tick. -/
def sampleTick : List Event :=
  [.readDir (.opened [.utf8 ['a']]), .nextEntry false, .judge, .nextEntry false,
    .readDir .notFound, .start 0, .advance 0 .ok, .advance 0 .ok, .advance 0 .ok, .finish]

theorem sampleSystem_ledger (path : LedgerPath) (written : Bytes) (modified : Option ℕ) :
    sampleSystem.ledger path ≠ .writing written modified := by
  dsimp only [sampleSystem]
  split <;> exact fun h => (by cases h)

/-- What has been archived, and is archived later. -/
structure Archived (block : LedgerPath → Bytes) (s s' : System) : Prop where
  right : Right block s'.store
  known : ∀ key ∈ s'.worker.knownInS3, (s'.store key).isSome
  /-- No two files have the same key, and so no header has that of a body. -/
  apart : ∀ key path path', Located (key, path) → Located (key, path') → path = path'
  kept : ∀ key data, s.store key = some data → s'.store key = some data

/-- **In every run** in which a file that is being written while its age is judged is fresh,
whatever fails and however often the worker is restarted: the values in the store are those of whole
files, they stay there, and what the worker takes to be in the store is there. -/
theorem archived (minAge : Option ℕ) (block : LedgerPath → Bytes) (s₀ s s' : System)
    (before after : List Event) (hworker : s₀.worker = .init) (hright : Right block s₀.store)
    (hfresh : EachStep minAge block (fun s _ => Fresh minAge s) s₀ (before ++ after))
    (hbefore : s₀.run minAge block before = some s)
    (hafter : s.run minAge block after = some s') : Archived block s s' := by
  obtain ⟨hfresh, hfresh'⟩ := hfresh.of_append hbefore
  have hend := ((Inv.of_init hworker hright).run hfresh hbefore).run hfresh' hafter
  exact ⟨hend.right, hend.known, fun _ _ _ h h' => h.inj h', fun _ _ h => store_run hafter h⟩

/-- The worker is restarted after the header has been stored. -/
theorem archived_sample :
    ∃ s s', sampleSystem.run (some 10) sampleBlock (.tick :: sampleTick) = some s ∧
      s.run (some 10) sampleBlock [.restart] = some s' ∧ Archived sampleBlock s s' := by
  refine ⟨_, _, rfl, rfl, archived (some 10) sampleBlock sampleSystem _ _ (.tick :: sampleTick)
    [.restart] rfl (fun _ _ _ _ h => by cases h)
    (eachStep_fresh sampleSystem_ledger fun e he path written modified h => ?_) rfl rfl⟩
  subst h
  simp [sampleTick] at he

end Inv

/-! ### What a tick stores -/

/-- **No call for a file fails**, nor the listing of its directory, and the clock does not go
back. -/
def CalmFor (path : LedgerPath) (s : System) : Event → Prop
  | .readDir answer => ∀ found, s.worker.phase = .opening path.1 found →
      ∃ names, answer = .opened names ∧ path.2 ∈ names
  | .nextEntry fails => ∀ name rest found, s.worker.phase = .listing path.1 (name :: rest) found →
      fails = false ∧ (s.ledger (path.1, name)).metadata ≠ none
  | .advance i answer => ∀ queue tasks task, s.worker.phase = .processing queue tasks →
      tasks[i]? = some task → task.path = path → answer = .ok
  | .clock now => s.now ≤ now
  | .restart => False
  | _ => True

/-- A file that has been modified some time ago. -/
def Old (minAge modified : Option ℕ) (now : ℕ) : Prop :=
  ∀ age ∈ minAge, ∀ time ∈ modified, time + age ≤ now

/-- **Where a file is**, if it is not in the store yet. -/
def Phase.Holds (modified : Option ℕ) (file : Key × LedgerPath) : Phase → Prop
  | .waiting => False
  | .opening dir found => file.2.1 = .headers → dir = .bodies → file ∈ found
  | .listing dir rest found => (file.2.1 = dir → file.2.2 ∈ rest ∨ file ∈ found) ∧
      (file.2.1 = .headers → dir = .bodies → file ∈ found)
  | .judging dir name metadata rest found =>
      (file.2.1 = dir → file.2.2 = name ∧ metadata = ⟨.file, modified⟩ ∨ file.2.2 ∈ rest ∨
        file ∈ found) ∧
      (file.2.1 = .headers → dir = .bodies → file ∈ found)
  | .processing queue tasks =>
      file ∈ queue ∨ ∃ task ∈ tasks, task.key = file.1 ∧ task.path = file.2

/-- A file is in the store, or the worker has it, or is still to come upon it. -/
def Tracked (modified : Option ℕ) (file : Key × LedgerPath) (s : System) : Prop :=
  (s.store file.1).isSome ∨ s.worker.phase.Holds modified file

section Tracked

variable {minAge modified : Option ℕ} {block : LedgerPath → Bytes} {s s' : System}
  {file : Key × LedgerPath}

theorem not_fileIsTooNew {now age : ℕ} (h : Old minAge modified now) (hage : age ∈ minAge) :
    fileIsTooNew ⟨.file, modified⟩ age now = false := by
  cases hmodified : modified with
  | none => rfl
  | some time =>
    have hle := h age hage time hmodified
    unfold fileIsTooNew
    dsimp only
    rw [Bool.and_eq_false_iff, decide_eq_false_iff_not, decide_eq_false_iff_not]
    omega

/-- A file that has been found stays where it is. -/
theorem mem_addEntry (hlocated : Located file) {now : ℕ} {path : LedgerPath} {metadata : Metadata}
    {found : List (Key × LedgerPath)} (h : file ∈ found) :
    file ∈ addEntry minAge now path metadata found := by
  unfold addEntry
  split
  · exact h
  · split
    · exact h
    · rename_i name hname
      by_cases hkey : file.1 = keyOf path.1 name
      · -- There is no other file with the key.
        have hpath : file.2 = path :=
          Located.inj (show Located (file.1, file.2) from hlocated) ⟨name, hname, hkey⟩
        exact List.mem_cons.mpr (.inl (Prod.ext hkey hpath))
      · exact List.mem_cons_of_mem _ (List.mem_filter.mpr ⟨h, decide_eq_true hkey⟩)

/-- A file that is old enough is taken. -/
theorem mem_addEntry_self (hlocated : Located file) {now : ℕ} (hold : Old minAge modified now)
    (found : List (Key × LedgerPath)) :
    file ∈ addEntry minAge now file.2 ⟨.file, modified⟩ found := by
  obtain ⟨name, hname, hkey⟩ := hlocated
  unfold addEntry
  rw [if_neg]
  · rw [hname]
    exact List.mem_cons.mpr (.inl (Prod.ext hkey rfl))
  · rw [Bool.or_eq_true, decide_eq_true_eq]
    rintro (hkind | hnew)
    · exact hkind rfl
    · cases hage : minAge with
      | none =>
        rw [hage] at hnew
        cases hnew
      | some age =>
        rw [hage] at hnew
        exact absurd hnew (Bool.eq_false_iff.mp (not_fileIsTooNew hold hage))

/-- When a directory has been listed the file has been found, if it is in it. -/
theorem tracked_listed (h : Inv block s) {dir : Dir} {found : List (Key × LedgerPath)}
    (hdir : file.2.1 = dir → file ∈ found)
    (hbefore : file.2.1 = .headers → dir = .bodies → file ∈ found) :
    Tracked modified file { s with worker := s.worker.listed dir found } := by
  cases dir with
  | headers => exact .inr fun hheaders _ => hdir hheaders
  | bodies =>
    have hmem : file ∈ found := by
      cases hfile : file.2.1 with
      | headers => exact hbefore hfile rfl
      | bodies => exact hdir hfile
    by_cases hknown : file.1 ∈ s.worker.knownInS3
    · exact .inl (h.known _ hknown)
    · refine .inr ?_
      have hne : found ≠ [] := List.ne_nil_of_mem hmem
      dsimp only [Worker.listed, Worker.process]
      rw [if_neg hne]
      refine .inl (List.mem_filter.mpr ⟨hmem, ?_⟩)
      rw [Bool.not_eq_true', ← Bool.not_eq_true, List.contains_iff_mem]
      exact fun hfiltered => hknown (List.mem_filter.mp hfiltered).1

theorem mem_eraseIdx_or_eq {α : Type} {l : List α} {i : ℕ} {a b : α} (ha : a ∈ l)
    (hget : l[i]? = some b) : a = b ∨ a ∈ l.eraseIdx i := by
  obtain ⟨hlt, rfl⟩ := List.getElem?_eq_some_iff.mp hget
  exact List.mem_cons.mp ((List.getElem_cons_eraseIdx_perm hlt).mem_iff.mpr ha)

/-- **A task goes on**, where no call for the file fails. -/
theorem Tracked.advance (h : Tracked modified file s) {queue : List (Key × LedgerPath)}
    {tasks : List Task} (hphase : s.worker.phase = .processing queue tasks) {i : ℕ} {task : Task}
    (hget : tasks[i]? = some task) {answer : Answer} (hcalm : task.path = file.2 → answer = .ok)
    (hentry : s.ledger file.2 = .complete modified) (hlocated : Located file)
    (htask : Located (task.key, task.path)) :
    Tracked modified file (s.advance block queue tasks i task answer) := by
  obtain h | h := h
  · obtain ⟨data, hdata⟩ := Option.isSome_iff_exists.mp h
    exact .inl (Option.isSome_of_eq_some
      ((changes_advance .tick queue tasks i task answer).store _ _ hdata))
  rw [hphase] at h
  -- What is known of the other files is not changed.
  have herase : task.path ≠ file.2 →
      (Phase.processing queue (tasks.eraseIdx i)).Holds modified file := by
    intro hne
    refine h.imp_right fun ⟨task', htask', hkey, hpath⟩ => ⟨task', ?_, hkey, hpath⟩
    obtain rfl | hmem := mem_eraseIdx_or_eq htask' hget
    · exact absurd hpath hne
    · exact hmem
  have hset : ∀ stage, (Phase.processing queue
      (tasks.set i ⟨task.key, task.path, stage⟩)).Holds modified file := by
    intro stage
    refine h.imp_right fun ⟨task', htask', hkey, hpath⟩ => ?_
    obtain ⟨hlt, -⟩ := List.getElem?_eq_some_iff.mp hget
    obtain rfl | hmem := mem_eraseIdx_or_eq htask' hget
    · exact ⟨_, List.mem_set hlt _, hkey, hpath⟩
    · obtain ⟨j, hj, hne⟩ := List.mem_eraseIdx_iff_getElem?.mp hmem
      exact ⟨task', List.mem_iff_getElem?.mpr ⟨j, by rwa [List.getElem?_set_ne hj.symm]⟩, hkey,
        hpath⟩
  -- The file of the task is stored when the task is through.
  have hstored : ∀ {store : Key → Option Bytes} {worker : Worker}, (store task.key).isSome →
      worker.phase = .processing queue (tasks.eraseIdx i) →
      Tracked modified file ⟨s.ledger, s.now, store, worker⟩ := by
    intro store worker hsome hworker
    by_cases hpath : task.path = file.2
    · obtain ⟨name, hname, hkey⟩ := hlocated
      obtain ⟨name', hname', hkey'⟩ := htask
      rw [hpath] at hname' hkey'
      obtain rfl : name = name' := Option.some.inj (hname.symm.trans hname')
      exact .inl (by rw [hkey, ← hkey']; exact hsome)
    · exact .inr (by rw [hworker]; exact herase hpath)
  unfold System.advance
  split
  · split
    · rename_i hsome
      exact hstored hsome rfl
    · exact .inr (hset .reading)
  · split
    · exact .inr (hset _)
    · rename_i hread
      refine .inr (herase fun hpath => ?_)
      rw [hpath, hentry] at hread
      cases hread
  · exact hstored isSome_put_self rfl
  · exact hstored isSome_put_self rfl
  · refine .inr (herase fun hpath => ?_)
    cases hcalm hpath

/-- A file that is in the store is followed by anything. -/
theorem Tracked.of_store {t : System} (h : (s.store file.1).isSome) (hstore : t.store = s.store) :
    Tracked modified file t := .inl (by rw [hstore]; exact h)

/-- The listing of the other directory ends. -/
theorem Tracked.listed_of_ne (h : Tracked modified file s) (hinv : Inv block s) {dir : Dir}
    {found : List (Key × LedgerPath)} (hne : file.2.1 ≠ dir)
    (hfound : s.worker.phase.Holds modified file →
      file.2.1 = .headers → dir = .bodies → file ∈ found) :
    Tracked modified file { s with worker := s.worker.listed dir found } := by
  obtain h | h := h
  · exact .of_store h rfl
  · exact tracked_listed hinv (fun heq => absurd heq hne) (hfound h)

/-- A directory is opened, where its listing does not fail. -/
theorem Tracked.readDir (h : Tracked modified file s) (hinv : Inv block s)
    {answer : Opened (List FileName)} (hcalm : CalmFor file.2 s (.readDir answer))
    (hstep : s.step minAge block (.readDir answer) = some s') : Tracked modified file s' := by
  simp only [System.step] at hstep
  split at hstep
  · rename_i dir found hphase
    have hopened (heq : file.2.1 = dir) : ∃ names, answer = .opened names ∧ file.2.2 ∈ names := by
      subst heq
      exact hcalm found hphase
    split at hstep <;> cases hstep
    · refine h.imp_right fun h => ?_
      rw [hphase] at h
      refine ⟨fun heq => ?_, h⟩
      obtain ⟨names', hnames, hmem⟩ := hopened heq
      cases hnames
      exact .inl hmem
    all_goals
      refine h.listed_of_ne hinv (fun heq => ?_) fun h => by rw [hphase] at h; exact h
      obtain ⟨names, hnames, -⟩ := hopened heq
      cases hnames
  · cases hstep

/-- The next entry is read, where this does not fail for the file. -/
theorem Tracked.nextEntry (h : Tracked modified file s) (hinv : Inv block s) {fails : Bool}
    (hentry : s.ledger file.2 = .complete modified) (hcalm : CalmFor file.2 s (.nextEntry fails))
    (hstep : s.step minAge block (.nextEntry fails) = some s') : Tracked modified file s' := by
  simp only [System.step] at hstep
  split at hstep
  · rename_i dir found hphase
    cases hstep
    obtain h | h := h
    · exact .of_store h rfl
    · rw [hphase] at h
      exact tracked_listed hinv (fun heq => (h.1 heq).resolve_left nofun) h.2
  · rename_i dir name rest found hphase
    have hreads (heq : file.2.1 = dir) :
        fails = false ∧ (s.ledger (dir, name)).metadata ≠ none := by
      subst heq
      exact hcalm name rest found hphase
    have hfound (h : s.worker.phase.Holds modified file) :
        file.2.1 = .headers → dir = .bodies → file ∈ found := by
      rw [hphase] at h
      exact h.2
    split at hstep
    · rename_i hfails
      cases hstep
      refine h.listed_of_ne hinv (fun heq => ?_) hfound
      rw [(hreads heq).1] at hfails
      cases hfails
    · split at hstep <;> cases hstep
      · rename_i hnone
        exact h.listed_of_ne hinv (fun heq => (hreads heq).2 hnone) hfound
      · rename_i metadata hmetadata
        refine h.imp_right fun h => ⟨fun heq => ?_, hfound h⟩
        rw [hphase] at h
        -- The entry whose metadata are read is the file, or another one before it.
        obtain hmem | hmem := h.1 heq
        · obtain hname | hmem := List.mem_cons.mp hmem
          · have hpath : file.2 = (dir, name) := Prod.ext heq hname
            rw [← hpath, hentry] at hmetadata
            exact .inl ⟨hname, (Option.some.inj hmetadata).symm⟩
          · exact .inr (.inl hmem)
        · exact .inr (.inr hmem)
  · cases hstep

/-- An entry is judged. If it is the file, it is taken. -/
theorem Tracked.judge (h : Tracked modified file s) (hlocated : Located file)
    (hold : Old minAge modified s.now) (hstep : s.step minAge block .judge = some s') :
    Tracked modified file s' := by
  simp only [System.step] at hstep
  split at hstep <;> cases hstep
  rename_i dir name metadata rest found hphase
  refine h.imp_right fun h => ?_
  rw [hphase] at h
  refine ⟨fun heq => ?_, fun hheaders hbodies => mem_addEntry hlocated (h.2 hheaders hbodies)⟩
  obtain ⟨hname, rfl⟩ | hmem | hmem := h.1 heq
  · have hpath : file.2 = (dir, name) := Prod.ext heq hname
    rw [← hpath]
    exact .inr (mem_addEntry_self hlocated hold found)
  · exact .inl hmem
  · exact .inr (mem_addEntry hlocated hmem)

/-- A task is started. -/
theorem Tracked.start (h : Tracked modified file s) {i : ℕ}
    (hstep : s.step minAge block (.start i) = some s') : Tracked modified file s' := by
  simp only [System.step] at hstep
  split at hstep
  · rename_i queue tasks hphase
    split at hstep
    · obtain ⟨file', hget, rfl⟩ := Option.map_eq_some_iff.mp hstep
      refine h.imp_right fun h => ?_
      rw [hphase] at h
      obtain hmem | ⟨task, htask, heq⟩ := h
      · obtain rfl | hmem := mem_eraseIdx_or_eq hmem hget
        · exact .inr ⟨_, List.mem_append_right _ List.mem_cons_self, rfl, rfl⟩
        · exact .inl hmem
      · exact .inr ⟨task, List.mem_append_left _ htask, heq⟩
    · cases hstep
  · cases hstep

/-- **One step of the worker**, where no call for the file fails. -/
theorem Tracked.step (h : Tracked modified file s) (hinv : Inv block s) (hlocated : Located file)
    (hentry : s.ledger file.2 = .complete modified) (hold : Old minAge modified s.now) {e : Event}
    (hcalm : CalmFor file.2 s e) (hstep : s.step minAge block e = some s') :
    Tracked modified file s' := by
  cases e with
  | ledger path op =>
    obtain ⟨entry, -, rfl⟩ := Option.map_eq_some_iff.mp hstep
    exact h
  | clock now =>
    cases hstep
    exact h
  | other path =>
    obtain ⟨name, -, rfl⟩ := Option.map_eq_some_iff.mp hstep
    exact h.imp_left isSome_put
  | tick =>
    simp only [System.step] at hstep
    split at hstep <;> cases hstep
    rename_i hphase
    obtain h | h := h
    · exact .of_store h rfl
    · rw [hphase] at h
      cases h
  | finish =>
    simp only [System.step] at hstep
    split at hstep <;> cases hstep
    rename_i hphase
    obtain h | h := h
    · exact .of_store h rfl
    · rw [hphase] at h
      obtain h | ⟨task, h, -⟩ := h <;> cases h
  | readDir answer => exact h.readDir hinv hcalm hstep
  | nextEntry fails => exact h.nextEntry hinv hentry hcalm hstep
  | judge => exact h.judge hlocated hold hstep
  | start i => exact h.start hstep
  | advance i answer =>
    simp only [System.step] at hstep
    split at hstep
    · rename_i queue tasks hphase
      obtain ⟨task, hget, rfl⟩ := Option.map_eq_some_iff.mp hstep
      -- The task may be that of another file, which has another key.
      have htask : Located (task.key, task.path) := by
        refine (hinv.pending (task.key, task.path) ?_).1
        rw [hphase]
        exact List.mem_append_right _ (List.mem_map_of_mem (List.mem_of_getElem? hget))
      exact h.advance hphase hget (hcalm queue tasks task hphase hget) hentry hlocated htask
    · cases hstep
  | restart => exact hcalm.elim

/-- A file that is complete and old, and not lost sight of; or it has been removed. -/
def Followed (minAge modified : Option ℕ) (file : Key × LedgerPath) (s : System) : Prop :=
  s.ledger file.2 = .removed ∨
    s.ledger file.2 = .complete modified ∧ Old minAge modified s.now ∧ Tracked modified file s

/-- What becomes of a settled file in the ledger. -/
theorem ledger_step {path : LedgerPath} {e : Event} (hsettled : (s.ledger path).Settled)
    (hstep : s.step minAge block e = some s') :
    s'.ledger path = .removed ∨ s'.ledger path = s.ledger path := by
  cases e with
  | ledger path' op =>
    obtain ⟨entry, hop, rfl⟩ := Option.map_eq_some_iff.mp hstep
    rcases eq_or_ne path path' with rfl | hne
    · left
      obtain hremoved | ⟨modified, hcomplete⟩ := hsettled
      · rw [hremoved] at hop
        cases op <;> cases hop
      · rw [hcomplete] at hop
        cases op <;> cases hop
        exact Function.update_self ..
    · exact .inr (Function.update_of_ne hne _ _)
  | _ => exact .inr (congrFun ((changes_step hstep).ledger fun _ _ h => (by cases h)) path)

/-- A file that is old stays so, if the clock does not go back. -/
theorem Old.step {path : LedgerPath} {e : Event} (h : Old minAge modified s.now)
    (hcalm : CalmFor path s e) (hstep : s.step minAge block e = some s') :
    Old minAge modified s'.now := by
  cases e with
  | clock now =>
    cases hstep
    exact fun age hage time htime => (h age hage time htime).trans hcalm
  | _ => exact (changes_step hstep).now (fun _ h => (by cases h)) ▸ h

/-- **One step**, where no call for the file fails. -/
theorem Followed.step (h : Followed minAge modified file s) (hinv : Inv block s)
    (hlocated : Located file) {e : Event} (hcalm : CalmFor file.2 s e)
    (hstep : s.step minAge block e = some s') : Followed minAge modified file s' := by
  obtain hremoved | ⟨hentry, hold, h⟩ := h
  · -- What has been removed stays so.
    obtain hledger | hledger := ledger_step (.inl hremoved) hstep
    · exact .inl hledger
    · exact .inl (hledger.trans hremoved)
  · obtain hledger | hledger := ledger_step (.inr ⟨modified, hentry⟩) hstep
    · exact .inl hledger
    · exact .inr ⟨hledger.trans hentry, hold.step hcalm hstep,
        h.step hinv hlocated hentry hold hcalm hstep⟩

theorem Followed.run (h : Followed minAge modified file s) (hinv : Inv block s)
    (hlocated : Located file) {events : List Event}
    (hfresh : EachStep minAge block (fun s _ => Fresh minAge s) s events)
    (hcalm : EachStep minAge block (CalmFor file.2) s events)
    (hrun : s.run minAge block events = some s') : Followed minAge modified file s' := by
  induction events generalizing s with
  | nil =>
    cases hrun
    exact h
  | cons e events ih =>
    rw [System.run, List.foldlM_cons] at hrun
    obtain ⟨t, hstep, hrest⟩ := Option.bind_eq_some_iff.mp hrun
    exact ih (h.step hinv hlocated hcalm.1 hstep) (hinv.step hfresh.1 hstep) (hfresh.2 t hstep)
      (hcalm.2 t hstep) hrest

/-- **A tick stores every file that is complete and old enough** when it begins, and still there
when it ends, unless a call for this file or the listing of its directory fails, or the clock is set
back. -/
theorem tick_stores (minAge : Option ℕ) (block : LedgerPath → Bytes) (s₀ s s' : System)
    (before events : List Event) (hworker : s₀.worker = .init) (hright : Right block s₀.store)
    (hfresh : EachStep minAge block (fun s _ => Fresh minAge s) s₀ (before ++ .tick :: events))
    (hbefore : s₀.run minAge block before = some s)
    (htick : s.run minAge block (.tick :: events) = some s') (path : LedgerPath)
    (name : List Char) (modified : Option ℕ) (hname : path.2.toStr = some name)
    (hentry : s.ledger path = .complete modified) (hold : Old minAge modified s.now)
    (hcalm : EachStep minAge block (CalmFor path) s (.tick :: events))
    (hwaiting : s'.worker.phase = .waiting) (hkept : s'.ledger path ≠ .removed) :
    s'.store (keyOf path.1 name) = some (block path) := by
  have hlocated : Located (keyOf path.1 name, path) := ⟨name, hname, rfl⟩
  obtain ⟨hfresh, hfresh'⟩ := hfresh.of_append hbefore
  have hinv := (Inv.of_init hworker hright).run hfresh hbefore
  have hend := hinv.run hfresh' htick
  rw [System.run, List.foldlM_cons] at htick
  obtain ⟨t, hstep, hrest⟩ := Option.bind_eq_some_iff.mp htick
  -- From the first step on the file is not lost sight of.
  have hfollowed : Followed minAge modified (keyOf path.1 name, path) t := by
    simp only [System.step] at hstep
    split at hstep <;> cases hstep
    exact .inr ⟨hentry, hold, .inr fun _ h => (by cases h)⟩
  obtain hremoved | ⟨-, -, htracked⟩ := hfollowed.run (hinv.step hfresh'.1 hstep) hlocated
    (hfresh'.2 t hstep) (hcalm.2 t hstep) hrest
  · exact absurd hremoved hkept
  · obtain hstored | hholds := htracked
    · obtain ⟨data, hdata⟩ := Option.isSome_iff_exists.mp hstored
      rw [hdata, hend.right _ _ hlocated data hdata]
    · rw [hwaiting] at hholds
      cases hholds

theorem tick_stores_sample :
    ∃ s', sampleSystem.run (some 10) sampleBlock (.tick :: sampleTick) = some s' ∧
      s'.store (keyOf .headers ['a']) = some [1, 2] := by
  refine ⟨_, rfl, tick_stores (some 10) sampleBlock sampleSystem sampleSystem _ [] sampleTick rfl
    (fun _ _ _ _ h => by cases h)
    (eachStep_fresh sampleSystem_ledger fun e he path written modified h => ?_) rfl rfl samplePath
    ['a'] (some 5) rfl rfl (by simp [Old, sampleSystem]) ?_ rfl (by decide)⟩
  · subst h
    simp [sampleTick] at he
  · refine .cons trivial rfl (.cons ?_ rfl (.cons ?_ rfl (.cons trivial rfl (.cons ?_ rfl
      (.cons ?_ rfl (.cons trivial rfl (.cons ?_ rfl (.cons ?_ rfl (.cons ?_ rfl (.cons trivial rfl
        trivial))))))))))
    · exact fun found h => ⟨_, rfl, by decide⟩
    · intro name rest found h
      cases h
      exact ⟨rfl, by decide⟩
    · intro name rest found h
      cases h
    · intro found h
      cases h
    all_goals exact fun _ _ _ _ _ _ => rfl

end Tracked

end BftArchiveWorker

end Archive

end MonadServices
