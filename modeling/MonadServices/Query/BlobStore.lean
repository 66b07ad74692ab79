import MonadServices.Lib.Bytes
import MonadServices.Lib.Hex
import MonadServices.Lib.Publish

/-!
# Stores of blobs

A blob is stored under a table and a key. The store in files has a directory for each table, and
the name of a file is the key in hexadecimal. A put creates a file of its own in the directory,
whose name starts with a dot and tells the process and the number of the put; it writes the value to
this file and renames it. Several puts may be under way at the same time, in several processes, any
of their operations may fail, and a process may be killed at any time, after which another one may
have its id.

**A get finds a whole value whenever it looks**: that of the put whose file has been renamed last,
or what was there at first. A batch is put value by value; what has been put of it is its
beginning, and all of it if and only if it returns without an error. The puts of what comes later
are put later (`MonadServices.Query.FsBlobStore.linearized`).
-/

namespace MonadServices

namespace Query

/-- `BlobTableId`: the name of a table, which can be that of a directory. -/
structure BlobTableId where
  name : String
  plain : ∀ c ∈ name.toList, c ≠ '/' ∧ c ≠ Char.ofNat 0
  proper : name ≠ "" ∧ name ≠ "." ∧ name ≠ ".."
  deriving DecidableEq

/-- A key is not empty. -/
abbrev BlobKey := {key : Bytes // key ≠ []}

/-- `BlobStoreBatchPut`. -/
structure BlobStoreBatchPut where
  table : BlobTableId
  key : BlobKey
  value : Bytes

/-- **What a store is for**: the blob for every table and key. -/
abbrev BlobMap := BlobTableId → BlobKey → Option Bytes

/-- A put that is done at once. -/
def BlobMap.put (m : BlobMap) (w : BlobStoreBatchPut) : BlobMap :=
  fun table key => if table = w.table ∧ key = w.key then some w.value else m table key

namespace FsBlobStore

/-! ### Files -/

/-- The directory of a file below the root, and its name in it. -/
abbrev FileName := String × String

/-- `hex`. -/
def hex (bytes : Bytes) : String := String.ofList (bytes.flatMap Hex.pair)

/-- `FsBlobStore::path`. -/
def path (table : BlobTableId) (key : BlobKey) : FileName := (table.name, hex key.1)

/-- The name that `create_temporary_file` tries. -/
def temporary (path : FileName) (pid : UInt32) (id : UInt64) : FileName :=
  (path.1, String.ofList ('.' :: (path.2.toList ++ s!".tmp-{pid}-{id}".toList)))

/-- `BlobStore::get`. -/
def get (files : FileName → Option Bytes) : BlobMap := fun table key => files (path table key)

/-! ### Puts -/

/-- A value to be put, in the pieces in which the operating system takes it. -/
structure Put where
  table : BlobTableId
  key : BlobKey
  pieces : List Bytes

def Put.toBatchPut (put : Put) : BlobStoreBatchPut := ⟨put.table, put.key, put.pieces.flatten⟩

/-- The file that is to be written. -/
def Put.toWrite (put : Put) : NamedWrite FileName UInt8 := ⟨path put.table put.key, put.pieces⟩

/-- **The tasks**: each of them puts a batch, and belongs to a process. -/
structure Tasks (ι π : Type) where
  batch : ι → List Put
  process : ι → π
  /-- The ids of the processes, which may be those of others. -/
  pid : π → UInt32

/-- The files, how far the tasks are, and `NEXT_TEMPORARY` of the processes. -/
structure Store (ι π : Type) where
  files : FileName → Option Bytes
  task : ι → Writer FileName UInt8
  nextTemporary : π → UInt64

/-- What happens. -/
inductive Event (ι π : Type) where
  /-- `create_dir_all`. -/
  | createDirAll (i : ι)
  /-- One turn of the loop of `create_temporary_file`. Its two operations, `fetch_add` and `open`,
  make one event: only the task itself knows the number it takes. -/
  | createTemporaryFile (i : ι)
  /-- `write` opens the file, and appends the next piece. -/
  | openFile (i : ι)
  | append (i : ι)
  | rename (i : ι)
  /-- The operation that the task is at fails. -/
  | fail (i : ι)
  | removeFile (i : ι) (removed : Bool)
  | kill (p : π)

variable {ι π : Type} [DecidableEq ι] [DecidableEq π] (tasks : Tasks ι π)

/-- A store before its tasks. -/
def Store.start (files : FileName → Option Bytes) (nextTemporary : π → UInt64) : Store ι π :=
  ⟨files, fun i => .preparing ((tasks.batch i).map Put.toWrite), nextTemporary⟩

/-- An operation of a task. -/
def Store.op (s : Store ι π) (i : ι) (op : WriterOp FileName) : Option (Store ι π) :=
  ((s.task i).step s.files op).map fun (files, task) =>
    { s with files := files, task := Function.update s.task i task }

/-- The name that a task tries next. -/
def Store.temporary (s : Store ι π) (i : ι) : Option FileName :=
  match s.task i with
  | .naming w _ => some (FsBlobStore.temporary w.name (tasks.pid (tasks.process i))
      (s.nextTemporary (tasks.process i)))
  | _ => none

/-- `fetch_add` of `NEXT_TEMPORARY`. -/
def Store.fetchAdd (s : Store ι π) (p : π) : Store ι π :=
  ⟨s.files, s.task, Function.update s.nextTemporary p (s.nextTemporary p + 1)⟩

/-- **One step**; `none` when it is not possible. -/
def Store.step (s : Store ι π) : Event ι π → Option (Store ι π)
  | .createDirAll i => s.op i .prepare
  | .createTemporaryFile i =>
    (s.temporary tasks i).bind fun temp => (s.op i (.create temp)).map fun s' =>
      s'.fetchAdd (tasks.process i)
  | .openFile i => s.op i .openFile
  | .append i => s.op i .append
  | .rename i => s.op i .rename
  | .fail i => (s.op i .fail).map fun s' =>
    -- A file that could not be created has taken its number.
    if (s.temporary tasks i).isSome then s'.fetchAdd (tasks.process i) else s'
  | .removeFile i removed => s.op i (.clean removed)
  | .kill p =>
    some ⟨s.files, fun i => if tasks.process i = p then (s.task i).lose else s.task i,
      s.nextTemporary⟩

/-- What some events lead to. -/
def Store.run (s : Store ι π) (events : List (Event ι π)) : Option (Store ι π) :=
  events.foldlM (Store.step tasks) s

/-- What a task has returned: whether it is `Ok`. -/
def result : Writer FileName UInt8 → Option Bool
  | .done => some true
  | .failed => some false
  | _ => none

/-- **A store does its puts one at a time**: there is an order of some puts such that a get finds
what they lead to, and those of a task are the beginning of its batch, and all of it if and only if
it has returned without an error. -/
structure Linearized (files : FileName → Option Bytes) (s : Store ι π)
    (puts : List (ι × Put)) : Prop where
  get : get s.files = (puts.map fun x => x.2.toBatchPut).foldl BlobMap.put (get files)
  begins : ∀ i, (puts.filter fun x => x.1 = i).map Prod.snd <+: tasks.batch i
  ok : ∀ i, result (s.task i) = some true →
    (puts.filter fun x => x.1 = i).map Prod.snd = tasks.batch i
  failed : ∀ i, result (s.task i) = some false →
    (puts.filter fun x => x.1 = i).map Prod.snd ≠ tasks.batch i

/-! ### Names -/

/-- A name that begins with a dot. -/
def IsTemp (n : FileName) : Prop := n.2.toList.head? = some '.'

theorem isTemp_temporary (n : FileName) (pid : UInt32) (id : UInt64) :
    IsTemp (temporary n pid id) := by
  rw [IsTemp, temporary, String.toList_ofList, List.head?_cons]

/-- A key has no name of a temporary file. -/
theorem not_isTemp_path (table : BlobTableId) (key : BlobKey) : ¬IsTemp (path table key) := by
  intro h
  rw [IsTemp, path, hex, String.toList_ofList] at h
  have hdigit := Hex.allDigits_pairs key.1 '.' (List.mem_of_mem_head? h)
  exact absurd hdigit (by decide)

theorem hex_injective : Function.Injective hex := by
  intro a b h
  have hlist := congrArg String.toList h
  rw [hex, hex, String.toList_ofList, String.toList_ofList] at hlist
  have hdecode := congrArg Hex.decode hlist
  rw [Hex.decode_pairs, Hex.decode_pairs] at hdecode
  exact Option.some.inj hdecode

/-- **Every table and key has a file of its own.** -/
theorem path_inj {table table' : BlobTableId} {key key' : BlobKey} :
    path table key = path table' key' ↔ table = table' ∧ key = key' := by
  constructor
  · intro h
    obtain ⟨htable, hkey⟩ := Prod.mk.inj h
    refine ⟨?_, Subtype.ext (hex_injective hkey)⟩
    cases table
    cases table'
    cases htable
    rfl
  · rintro ⟨rfl, rfl⟩
    rfl

/-- A value that is put in its file is put in the store. -/
theorem get_update (files : FileName → Option Bytes) (w : Put) :
    get (Function.update files w.toWrite.name (some w.toWrite.data)) =
      (get files).put w.toBatchPut := by
  funext table key
  change Function.update files (path w.table w.key) (some w.toWrite.data) (path table key) =
    if table = w.table ∧ key = w.key then some w.pieces.flatten else files (path table key)
  by_cases h : table = w.table ∧ key = w.key
  · rw [if_pos h, path_inj.mpr h, Function.update_self]
    rfl
  · rw [if_neg h, Function.update_of_ne (fun heq => h (path_inj.mp heq))]

omit [DecidableEq ι] in
/-- **Values that are put in their files are put in the store.** -/
theorem put_eq_foldl {files files' : FileName → Option Bytes} (puts : List (ι × Put))
    (h : ∀ n, ¬IsTemp n →
      files' n = Publishing.put files (puts.map fun x => (x.1, x.2.toWrite)) n) :
    get files' = (puts.map fun x => x.2.toBatchPut).foldl BlobMap.put (get files) := by
  have hget : get files' = get (Publishing.put files (puts.map fun x => (x.1, x.2.toWrite))) := by
    funext table key
    exact h _ (not_isTemp_path table key)
  rw [hget]
  clear h hget
  induction puts generalizing files with
  | nil => rfl
  | cons x puts ih =>
    rw [List.map_cons, List.map_cons, List.foldl_cons, ← get_update]
    exact ih

/-! ### Runs -/

section Runs

variable {tasks : Tasks ι π} {s s' : Store ι π}

/-- The files and the writers of a store. -/
def Store.publishing (s : Store ι π) : Publishing FileName UInt8 ι := ⟨s.files, s.task⟩

omit [DecidableEq π] in
theorem publishing_op {i : ι} {op : WriterOp FileName} (h : s.op i op = some s') :
    s.publishing.step (.op i op) = some s'.publishing := by
  obtain ⟨⟨files, task⟩, hstep, rfl⟩ := Option.map_eq_some_iff.mp h
  exact Option.map_eq_some_iff.mpr ⟨(files, task), hstep, rfl⟩

/-- **A step of a store is a step of its writers**, who try temporary names only. -/
theorem publishing_step {e : Event ι π} (h : s.step tasks e = some s') :
    ∃ e', s.publishing.step e' = some s'.publishing ∧ Publishing.Tries IsTemp e' := by
  cases e with
  | createTemporaryFile i =>
    obtain ⟨temp, htemp, h⟩ := Option.bind_eq_some_iff.mp h
    obtain ⟨s₁, hop, rfl⟩ := Option.map_eq_some_iff.mp h
    refine ⟨.op i (.create temp), show s.publishing.step _ = some s₁.publishing from
      publishing_op hop, ?_⟩
    unfold Store.temporary at htemp
    split at htemp
    · cases htemp
      exact isTemp_temporary _ _ _
    · cases htemp
  | kill p =>
    cases h
    refine ⟨.crash fun i => decide (tasks.process i = p), ?_, trivial⟩
    simp only [Publishing.step, decide_eq_true_eq]
    rfl
  | createDirAll i => exact ⟨_, publishing_op h, trivial⟩
  | openFile i => exact ⟨_, publishing_op h, trivial⟩
  | append i => exact ⟨_, publishing_op h, trivial⟩
  | rename i => exact ⟨_, publishing_op h, trivial⟩
  | fail i =>
    obtain ⟨s₁, hop, heq⟩ := Option.map_eq_some_iff.mp h
    have hpublishing : s'.publishing = s₁.publishing := by
      rw [← heq]
      split <;> rfl
    exact ⟨.op i .fail, hpublishing ▸ publishing_op hop, trivial⟩
  | removeFile i removed => exact ⟨_, publishing_op h, trivial⟩

theorem publishing_run {events : List (Event ι π)} (h : s.run tasks events = some s') :
    ∃ events', s.publishing.run events' = some s'.publishing ∧
      ∀ e ∈ events', Publishing.Tries IsTemp e := by
  induction events generalizing s with
  | nil =>
    cases h
    exact ⟨[], rfl, fun _ he => (by cases he)⟩
  | cons e events ih =>
    rw [Store.run, List.foldlM_cons] at h
    obtain ⟨t, hstep, hrest⟩ := Option.bind_eq_some_iff.mp h
    obtain ⟨e', hstep', htries⟩ := publishing_step hstep
    obtain ⟨events', hrun', hall⟩ := ih hrest
    refine ⟨e' :: events', ?_, List.forall_mem_cons.mpr ⟨htries, hall⟩⟩
    rw [Publishing.run, List.foldlM_cons]
    exact Option.bind_eq_some_iff.mpr ⟨_, hstep', hrun'⟩

omit [DecidableEq π] in
/-- What is published are puts of the tasks. -/
theorem exists_puts {published : List (ι × NamedWrite FileName UInt8)}
    (h : ∀ i, (published.filter fun x => x.1 = i).map Prod.snd <+:
      (tasks.batch i).map Put.toWrite) :
    ∃ puts : List (ι × Put), puts.map (fun x => (x.1, x.2.toWrite)) = published := by
  have hrange : ∀ x ∈ published, x ∈ Set.range fun x : ι × Put => (x.1, x.2.toWrite) := by
    intro x hx
    have hmem : x.2 ∈ (published.filter fun y => y.1 = x.1).map Prod.snd :=
      List.mem_map_of_mem (List.mem_filter.mpr ⟨hx, decide_eq_true rfl⟩)
    obtain ⟨put, -, hput⟩ := List.mem_map.mp ((h x.1).mem hmem)
    exact ⟨(x.1, put), Prod.ext rfl hput⟩
  have hlist : published ∈ Set.range (List.map fun x : ι × Put => (x.1, x.2.toWrite)) := by
    rw [Set.range_list_map]
    exact hrange
  exact hlist

theorem toWrite_injective : Function.Injective Put.toWrite := by
  intro a b h
  obtain ⟨hpath, hpieces⟩ := NamedWrite.mk.inj h
  obtain ⟨htable, hkey⟩ := path_inj.mp hpath
  cases a
  cases b
  cases htable
  cases hkey
  cases hpieces
  rfl

omit [DecidableEq π] in
/-- Puts that have been published, and the outcome of the tasks. -/
theorem linearized_of_outcome {files : FileName → Option Bytes} {puts : List (ι × Put)}
    (hfiles : ∀ n, ¬IsTemp n →
      s.files n = Publishing.put files (puts.map fun x => (x.1, x.2.toWrite)) n)
    (houtcome : ∀ i, (s.task i).Outcome ((tasks.batch i).map Put.toWrite)
      (((puts.map fun x => (x.1, x.2.toWrite)).filter fun x => x.1 = i).map Prod.snd)) :
    Linearized tasks files s puts := by
  -- What a task has published are its puts.
  have hfilter : ∀ i, ((puts.map fun x => (x.1, x.2.toWrite)).filter fun x => x.1 = i).map
      Prod.snd = ((puts.filter fun x => x.1 = i).map Prod.snd).map Put.toWrite := by
    intro i
    rw [List.filter_map, List.map_map, List.map_map]
    rfl
  simp only [hfilter] at houtcome
  refine ⟨put_eq_foldl puts hfiles, fun i => ?_, fun i hok => ?_, fun i hfailed heq => ?_⟩
  · exact (List.prefix_map_iff_of_injective toWrite_injective).mp (houtcome i).beginning
  · have hdone := houtcome i
    cases htask : s.task i with
    | done =>
      rw [htask] at hdone
      exact List.map_injective_iff.mpr toWrite_injective hdone
    | _ =>
      rw [htask] at hok
      cases hok
  · have hdone := houtcome i
    cases htask : s.task i with
    | failed =>
      rw [htask] at hdone
      obtain ⟨w, rest, hrest⟩ := hdone
      have hlength := congrArg List.length hrest
      rw [heq, List.length_append, List.length_cons] at hlength
      omega
    | _ =>
      rw [htask] at hfailed
      cases hfailed

/-- **In every run**, whatever the order of the operations of the tasks, and whichever of them fail
or are killed, the store does its puts one at a time, and what comes later is put later. -/
theorem linearized (tasks : Tasks ι π) (files : FileName → Option Bytes)
    (nextTemporary : π → UInt64) (before after : List (Event ι π)) (s s' : Store ι π)
    (hbefore : (Store.start tasks files nextTemporary).run tasks before = some s)
    (hafter : s.run tasks after = some s') :
    ∃ puts more, Linearized tasks files s puts ∧ Linearized tasks files s' (puts ++ more) := by
  obtain ⟨events, hrun, htries⟩ := publishing_run hbefore
  obtain ⟨events', hrun', htries'⟩ := publishing_run hafter
  have hnames : ∀ i, ∀ w ∈ (tasks.batch i).map Put.toWrite, ¬IsTemp w.name := by
    intro i w hw
    obtain ⟨put, -, rfl⟩ := List.mem_map.mp hw
    exact not_isTemp_path _ _
  have hinv : Publishing.Inv IsTemp (Store.start tasks files nextTemporary).publishing :=
    Publishing.inv_start hnames
  have hstart : ∀ i, ((Store.start tasks files nextTemporary).publishing.writer i).Outcome
      ((tasks.batch i).map Put.toWrite) [] := fun _ => rfl
  obtain ⟨hs, hfiles⟩ := Publishing.files_run hinv htries hrun
  obtain ⟨-, hfiles'⟩ := Publishing.files_run hs htries' hrun'
  have houtcome := fun i => Publishing.outcome_run (hstart i) hrun
  have houtcome' := fun i => Publishing.outcome_run (houtcome i) hrun'
  simp only [List.nil_append] at houtcome houtcome'
  simp only [← List.map_append, ← List.filter_append] at houtcome'
  obtain ⟨all, hall⟩ := exists_puts fun i => (houtcome' i).beginning
  obtain ⟨puts, more, rfl, hputs, hmore⟩ := List.map_eq_append_iff.mp hall
  rw [← hall] at houtcome'
  rw [← hputs] at hfiles houtcome
  rw [← hmore] at hfiles'
  refine ⟨puts, more, linearized_of_outcome hfiles houtcome, linearized_of_outcome ?_ houtcome'⟩
  intro n hn
  rw [List.map_append, Publishing.put, List.foldl_append]
  exact (hfiles' n hn).trans (Publishing.put_congr _ (hfiles n hn))

theorem plain_sampleTable : ∀ c ∈ "block".toList, c ≠ '/' ∧ c ≠ Char.ofNat 0 := by
  have hlist : "block".toList = ['b', 'l', 'o', 'c', 'k'] := String.toList_ofList
  rw [hlist]
  simp

theorem proper_sampleTable : "block" ≠ "" ∧ "block" ≠ "." ∧ "block" ≠ ".." := by decide

/-- Two tasks of two processes with the same id put the same key; the first is killed before its
file is renamed, and the second comes upon this file, and then takes another name. -/
theorem linearized_sample :
    let tasks : Tasks (Fin 2) (Fin 2) :=
      ⟨fun i => [⟨⟨"block", plain_sampleTable, proper_sampleTable⟩, ⟨[7], by decide⟩,
        [[UInt8.ofNat i.val], [9]]⟩], id, fun _ => 4⟩
    let before : List (Event (Fin 2) (Fin 2)) :=
      [.createDirAll 0, .createTemporaryFile 0, .openFile 0, .append 0, .createDirAll 1, .kill 0]
    let after : List (Event (Fin 2) (Fin 2)) :=
      [.createTemporaryFile 1, .createTemporaryFile 1, .openFile 1, .append 1, .append 1,
        .rename 1, .createDirAll 1]
    ∃ s s', (Store.start tasks (fun _ => none) fun _ => 0).run tasks before = some s ∧
      s.run tasks after = some s' ∧
      ∃ puts more, Linearized tasks (fun _ => none) s puts ∧
        Linearized tasks (fun _ => none) s' (puts ++ more) := by
  intro tasks before after
  have hall : ((Store.start tasks (fun _ => none) fun _ => 0).run tasks
      (before ++ after)).isSome = true := by
    decide +kernel
  obtain ⟨s', hs'⟩ := Option.isSome_iff_exists.mp hall
  rw [Store.run, List.foldlM_append] at hs'
  obtain ⟨s, hs, hs'⟩ := Option.bind_eq_some_iff.mp hs'
  exact ⟨s, s', hs, hs', linearized _ _ _ _ _ _ _ hs hs'⟩

end Runs

end FsBlobStore

end Query

end MonadServices
