import MonadServices.Archive.Kv
import MonadServices.Lib.Bytes
import MonadServices.Lib.FileTree

/-!
# The store in files

The values of the store are files, and a key is the path of its file. A put makes the directories
on the way, opens the file, and writes to it. If it may not overwrite, the file has to be a new
one; otherwise it is emptied first. The value is written into the file under its own name, so that
a put that is interrupted leaves a part of it there: **a later get returns the part**, the value
from before is gone, and a later put that may not overwrite finds a file and leaves it.

This happens whenever the put is interrupted after the file has been opened and before the last
piece is written, unless what has been written by then is the value from before
(`MonadServices.Archive.Fs.atomic_iff`). A put of a new file may even have returned by then: its
last buffer is written behind its back, and it does not wait for that.
-/

namespace MonadServices

namespace Archive

namespace Fs

open FileTree (parents writeSteps)

/-! ### The path of a key -/

/-- Why an operation of the store fails. -/
inductive FsError where
  | badKey (message : String)
  | io (err : IoError)

/-- How a path ends. Behind a slash or a dot the operating system looks for a directory. -/
inductive Ending where
  | name
  | slash
  | dot
  deriving DecidableEq

/-- The path of a key under the root of the store. -/
structure KeyPath where
  names : Path
  ending : Ending

/-- How the segments between the slashes end. -/
def Ending.of (segments : List String) : Ending :=
  if (segments.filter (· ≠ "")).getLast? = some "." then .dot
  else if segments.getLast? = some "" then .slash
  else .name

/-- **The path of a key**. The key is put behind the root as it is, with the slash or the dot that
it may end in. -/
def keyPath (key : String) : Except String KeyPath :=
  let segments := (key.toList.splitOn '/').map String.ofList
  let names := segments.filter fun name => name ≠ "" ∧ name ≠ "."
  if key.toList.head? = some '/' then .error s!"Absolute paths are not allowed for keys: {key}"
  else if ".." ∈ names then
    .error s!"Parent directory segments are not allowed in keys: {key}"
  else .ok ⟨names, .of segments⟩

example : (keyPath "a//b/", keyPath "a/./.") = (.ok ⟨["a", "b"], .slash⟩, .ok ⟨["a"], .dot⟩) := rfl

/-! ### Reading and writing -/

/-- What the operating system reads under a path. -/
def readPath (t : FileTree UInt8) (path : KeyPath) : Except IoError Bytes :=
  match t.read path.names with
  | .ok data => if path.ending = .name then .ok data else .error .notADirectory
  | .error err => .error err

/-- Reads the value of a key. -/
def get (t : FileTree UInt8) (key : String) : Except FsError (Option Bytes) :=
  match keyPath key with
  | .error message => .error (.badKey message)
  | .ok path =>
    match readPath t path with
    | .ok data => .ok (some data)
    | .error .notFound => .ok none
    | .error err => .error (.io err)

/-- **A put**, with the pieces in which the operating system takes the data. The last `tail` of them
are of the last buffer that the runtime fills: `write_all` of its files returns when this buffer is
handed to a thread that writes it. -/
structure Put where
  key : String
  policy : WritePolicy
  pieces : List Bytes
  nonempty : [] ∉ pieces
  tail : ℕ
  tail_le : tail ≤ pieces.length

/-- The value that is put. -/
def Put.data (put : Put) : Bytes := put.pieces.flatten

/-- How the file of a put is opened: as a new one, or emptied. -/
def openForWrite (t : FileTree UInt8) (path : KeyPath) (policy : WritePolicy) :
    Except IoError Unit :=
  match path.ending with
  | .name =>
    match policy with
    | .noClobber => if (t.node path.names).isSome then .error .alreadyExists else .ok ()
    | .allowOverwrite => if t.isDir path.names then .error .isADirectory else .ok ()
  | .slash => .error .isADirectory
  | .dot =>
    match t.node path.names with
    | none => .error .notFound
    | some (.file _) => .error .notADirectory
    | some .dir => .error (if policy = .noClobber then .alreadyExists else .isADirectory)

/-- Why the directories on the way cannot be made: a file is the last of them, or one before. -/
def dirError (t : FileTree UInt8) (path : KeyPath) : IoError :=
  match t.node path.names.dropLast with
  | some (.file _) => .alreadyExists
  | _ => .notADirectory

/-- What a put does: its steps, how many of the last ones it does not wait for, and its result. -/
structure Plan where
  steps : List (FileStep UInt8)
  unawaited : ℕ
  result : Except FsError PutResult

/-- **What a put does.** -/
def Put.plan (put : Put) (t : FileTree UInt8) : Plan :=
  match keyPath put.key with
  | .error message => ⟨[], 0, .error (.badKey message)⟩
  | .ok path =>
    if t.blocked path.names then ⟨[], 0, .error (.io (dirError t path))⟩
    else match openForWrite t path put.policy with
      | .ok () => ⟨writeSteps path.names put.pieces,
          if put.policy = .noClobber then put.tail else 0, .ok .written⟩
      | .error err => ⟨(parents path.names).map .makeDir, 0,
          if put.policy = .noClobber ∧ err = .alreadyExists then .ok .skipped
          else .error (.io err)⟩

/-- The files when a put has taken its first `n` steps. -/
def Put.interrupted (put : Put) (t : FileTree UInt8) (n : ℕ) : FileTree UInt8 :=
  t.run ((put.plan t).steps.take n)

/-- The files when a put has taken all its steps. -/
def Put.done (put : Put) (t : FileTree UInt8) : FileTree UInt8 := t.run (put.plan t).steps

/-- **What a put may have returned** when its first `n` steps have been taken. -/
def Put.Returned (put : Put) (t : FileTree UInt8) (n : ℕ) (r : Except FsError PutResult) : Prop :=
  (put.plan t).steps.length ≤ n + (put.plan t).unawaited ∧ r = (put.plan t).result

/-- **A put that is interrupted after `n` steps**, whether or not it has returned, leaves the value
from before, or the new one as a whole. A later put of the key that may not overwrite, and would
have written before, returns nothing but that it has written, and its steps store its value. -/
structure Atomic (t : FileTree UInt8) (put : Put) (n : ℕ) : Prop where
  read : get (put.interrupted t n) put.key = get t put.key ∨
    get (put.interrupted t n) put.key = .ok (some put.data)
  retry : n < (put.plan t).steps.length → ∀ again : Put, again.key = put.key →
    again.policy = .noClobber → (again.plan t).result = .ok .written →
      (∀ m r, again.Returned (put.interrupted t n) m r → r = .ok .written) ∧
      get (again.done (put.interrupted t n)) put.key = .ok (some again.data)

/-- The put has not opened the file yet, or has written all of the value, or what it has written by
then is the value from before. -/
def Harmless (t : FileTree UInt8) (put : Put) (n : ℕ) : Prop :=
  ∀ path, keyPath put.key = .ok path →
    n ≤ (parents path.names).length ∨ (put.plan t).steps.length ≤ n ∨
      get t put.key =
        .ok (some (put.pieces.take (n - ((parents path.names).length + 1))).flatten)

/-! ### What a put leaves -/

variable {t : FileTree UInt8} {put : Put} {path : KeyPath} {n : ℕ}

theorem get_of_read {data : Bytes} (hpath : keyPath put.key = .ok path)
    (hname : path.ending = .name) (h : t.read path.names = .ok data) :
    get t put.key = .ok (some data) := by
  simp only [get, hpath, readPath, h, hname, if_true]

theorem read_of_get (hpath : keyPath put.key = .ok path) (h : get t put.key = .ok none) :
    t.read path.names = .error .notFound := by
  simp only [get, hpath] at h
  split at h
  · cases h
  · next hread =>
    unfold readPath at hread
    split at hread
    · split_ifs at hread
      cases hread
    · next err herr =>
      rw [herr, hread]
  · cases h

/-- A file is opened under a name, and only if no directory is there. -/
theorem openForWrite_eq_ok {policy : WritePolicy} (h : openForWrite t path policy = .ok ()) :
    path.ending = .name ∧ t.isDir path.names = false := by
  unfold openForWrite at h
  split at h
  · next hname =>
    refine ⟨hname, ?_⟩
    cases policy with
    | noClobber =>
      dsimp only at h
      split_ifs at h with hsome
      rw [Option.not_isSome_iff_eq_none] at hsome
      rw [FileTree.isDir, hsome]
      rfl
    | allowOverwrite =>
      dsimp only at h
      split_ifs at h with hdir
      exact Bool.not_eq_true _ ▸ hdir
  · cases h
  · split at h <;> cases h

/-- A put makes directories only, or it writes a file that is in no one's way. -/
theorem plan_cases (t : FileTree UInt8) (hpath : keyPath put.key = .ok path) :
    (∃ ds : List Path, path.names ∉ ds ∧ ds.length ≤ (parents path.names).length ∧
      (put.plan t).steps = ds.map .makeDir) ∨
    path.ending = .name ∧ t.isDir path.names = false ∧ t.blocked path.names = false ∧
      (put.plan t).steps = writeSteps path.names put.pieces := by
  have hdirs := FileTree.notMem_parents path.names
  unfold Put.plan
  rw [hpath]
  dsimp only
  split
  · exact .inl ⟨[], List.not_mem_nil, Nat.zero_le _, rfl⟩
  · next hfree =>
    rw [Bool.not_eq_true] at hfree
    split
    · next hopen =>
      obtain ⟨hname, hdir⟩ := openForWrite_eq_ok hopen
      exact .inr ⟨hname, hdir, hfree, rfl⟩
    · exact .inl ⟨parents path.names, hdirs, le_rfl, rfl⟩

/-- As long as directories are made nothing has changed. -/
theorem get_of_take_eq {ds : List Path} (hpath : keyPath put.key = .ok path)
    (hds : path.names ∉ ds) (htake : (put.plan t).steps.take n = ds.map .makeDir) :
    get (put.interrupted t n) put.key = get t put.key := by
  have hread : (put.interrupted t n).read path.names = t.read path.names := by
    rw [Put.interrupted, htake]
    exact FileTree.read_makeDirs t hds
  simp only [get, hpath, readPath, hread]

/-- What is there once the file has been opened. -/
theorem get_of_opened (hpath : keyPath put.key = .ok path) (hname : path.ending = .name)
    (hdir : t.isDir path.names = false) (hfree : t.blocked path.names = false)
    (hplan : (put.plan t).steps = writeSteps path.names put.pieces)
    (hn : (parents path.names).length < n) : get (put.interrupted t n) put.key =
      .ok (some (put.pieces.take (n - ((parents path.names).length + 1))).flatten) := by
  obtain ⟨k, rfl⟩ := Nat.exists_eq_add_of_lt hn
  rw [Nat.add_assoc, Nat.add_sub_add_left, Nat.add_sub_cancel]
  have hread : (t.run ((FileTree.writeSteps path.names put.pieces).take
      ((parents path.names).length + (k + 1)))).read path.names =
      .ok (put.pieces.take k).flatten := FileTree.read_run_take hdir hfree
  rw [← hplan] at hread
  exact get_of_read hpath hname hread

/-- A value that is not written as a whole is shorter. -/
theorem flatten_take_ne {pieces : List Bytes} {k : ℕ} (hne : [] ∉ pieces)
    (hk : k < pieces.length) : (pieces.take k).flatten ≠ pieces.flatten := by
  intro h
  have hrest : (pieces.drop k).flatten = [] := by
    have hsplit : (pieces.take k).flatten ++ (pieces.drop k).flatten = pieces.flatten := by
      rw [← List.flatten_append, List.take_append_drop]
    rw [← h] at hsplit
    exact List.append_right_eq_self.mp hsplit
  have hmem : pieces[k] ∈ pieces.drop k :=
    List.mem_drop_iff_getElem.mpr ⟨0, by simpa using hk, rfl⟩
  have hnil := List.flatten_eq_nil_iff.mp hrest _ hmem
  exact hne (hnil ▸ List.getElem_mem hk)

theorem length_writeSteps (path : Path) (pieces : List Bytes) :
    (writeSteps path pieces).length = (parents path).length + (pieces.length + 1) := by
  rw [writeSteps, List.length_append, List.length_map, List.length_cons, List.length_map]

/-- A put that may not overwrite has written if nothing was there, under the name of a file. -/
theorem get_of_written (hpolicy : put.policy = .noClobber)
    (h : (put.plan t).result = .ok .written) :
    (∀ path, keyPath put.key = .ok path → path.ending = .name) ∧ get t put.key = .ok none := by
  unfold Put.plan at h
  split at h
  · cases h
  · next path hpath =>
    split_ifs at h with hfree
    rw [Bool.not_eq_true] at hfree
    split at h
    · next hopen =>
      have hname := (openForWrite_eq_ok hopen).1
      refine ⟨fun path' hpath' => ?_, ?_⟩
      · obtain rfl := Except.ok.inj (hpath.symm.trans hpath')
        exact hname
      · -- A new file is opened only where nothing is.
        have hnode : t.node path.names = none := by
          simp only [openForWrite, hname, hpolicy] at hopen
          split_ifs at hopen with hsome
          exact Option.not_isSome_iff_eq_none.mp hsome
        simp [get, hpath, readPath, FileTree.read, hnode, hfree]
    · dsimp only at h
      split_ifs at h
      cases h

/-- **A put of a key that is not there stores its value**, unless the key ends in a slash or a
dot. -/
theorem plan_new (hname : ∀ path, keyPath put.key = .ok path → path.ending = .name)
    (hnone : get t put.key = .ok none) (hpolicy : put.policy = .noClobber) :
    (put.plan t).result = .ok .written ∧ get (put.done t) put.key = .ok (some put.data) := by
  cases hpath : keyPath put.key with
  | error message =>
    simp only [get, hpath] at hnone
    cases hnone
  | ok path =>
    obtain ⟨hnode, hfree⟩ := FileTree.read_eq_notFound (read_of_get hpath hnone)
    have hname := hname path hpath
    have hplan : put.plan t = ⟨writeSteps path.names put.pieces, put.tail, .ok .written⟩ := by
      simp [Put.plan, openForWrite, hpath, hname, hfree, hpolicy, hnode]
    have hdir : t.isDir path.names = false := by
      rw [FileTree.isDir, hnode]
      rfl
    refine ⟨by rw [hplan], ?_⟩
    have hopened := get_of_opened (n := (put.plan t).steps.length) hpath hname hdir hfree
      (by rw [hplan]) (by rw [hplan, length_writeSteps]; omega)
    rw [Put.interrupted, List.take_length, hplan, length_writeSteps] at hopened
    rw [Put.done, hplan, hopened, List.take_of_length_le (by omega)]
    rfl

/-- **A put that has changed nothing yet** is atomic. -/
theorem Atomic.of_unchanged (hsame : get (put.interrupted t n) put.key = get t put.key) :
    Atomic t put n := by
  refine ⟨.inl hsame, fun _ again hkey hpolicy hwritten => ?_⟩
  obtain ⟨hname, hnone⟩ := get_of_written hpolicy hwritten
  rw [← hkey] at hsame ⊢
  obtain ⟨hresult, hstored⟩ := plan_new hname (hsame.trans hnone) hpolicy
  refine ⟨fun m r hr => ?_, hstored⟩
  rw [hr.2, hresult]

/-- **When a put that is interrupted does no harm**: when it has not opened the file or has
written all of the value, or when what it has written is the value from before. -/
theorem atomic_iff (t : FileTree UInt8) (put : Put) (n : ℕ) :
    Atomic t put n ↔ Harmless t put n := by
  constructor
  · intro h path hpath
    rcases plan_cases t hpath with ⟨ds, -, hlen, hplan⟩ | ⟨hname, hdir, hfree, hplan⟩
    · rcases Nat.le_total n (put.plan t).steps.length with hle | hge
      · rw [hplan, List.length_map] at hle
        exact .inl (hle.trans hlen)
      · exact .inr (.inl hge)
    rcases Nat.lt_or_ge (parents path.names).length n with hopened | hbefore
    · rcases Nat.lt_or_ge n (put.plan t).steps.length with hlt | hdone
      · have hget := get_of_opened hpath hname hdir hfree hplan hopened
        refine .inr (.inr ?_)
        rcases h.read with hsame | hnew
        · rw [← hsame, hget]
        · -- The pieces that are missing are not empty.
          rw [hget, Except.ok.injEq, Option.some.injEq] at hnew
          rw [hplan, length_writeSteps] at hlt
          exact absurd hnew (flatten_take_ne put.nonempty (by omega))
      · exact .inr (.inl hdone)
    · exact .inl hbefore
  · intro h
    cases hpath : keyPath put.key with
    | error message =>
      refine .of_unchanged ?_
      simp only [get, hpath]
    | ok path =>
      rcases plan_cases t hpath with ⟨ds, hds, hlen, hplan⟩ | ⟨hname, hdir, hfree, hplan⟩
      · have hnot : path.names ∉ ds.take n := fun hmem => hds (List.mem_of_mem_take hmem)
        refine .of_unchanged (get_of_take_eq hpath hnot ?_)
        rw [hplan, List.map_take]
      rcases Nat.lt_or_ge (parents path.names).length n with hopened | hbefore
      · have hget := get_of_opened hpath hname hdir hfree hplan hopened
        rcases h path hpath with hle | hge | hold
        · exact absurd hle (Nat.not_le_of_lt hopened)
        · refine ⟨.inr ?_, fun hlt => absurd hlt (Nat.not_lt_of_le hge)⟩
          rw [hplan, length_writeSteps] at hge
          rw [hget, List.take_of_length_le (by omega)]
          rfl
        · exact .of_unchanged (hget.trans hold.symm)
      · have hnot : path.names ∉ (parents path.names).take n := fun hmem =>
          FileTree.notMem_parents path.names (List.mem_of_mem_take hmem)
        refine .of_unchanged (get_of_take_eq hpath hnot ?_)
        rw [hplan, writeSteps, List.take_append, List.length_map,
          Nat.sub_eq_zero_of_le hbefore, List.take_zero, List.append_nil, List.map_take]

/-- A root with nothing in it. -/
def emptyRoot : FileTree UInt8 where
  node p := if p = [] then some .dir else none
  root := if_pos rfl
  inDir p name h := by
    rw [if_neg (List.append_ne_nil_of_right_ne_nil p (List.cons_ne_nil name []))] at h
    exact absurd rfl h

/-- The first put of the latest number, whose one byte is in the last buffer. -/
def latestPut : Put := ⟨"latest", .noClobber, [[0x31]], by decide, 1, by decide⟩

/-- **A put is not atomic**: a first put of a key that is interrupted when the file has been opened
leaves a value that is empty, even though it may have returned that it has written; and a later put
is skipped. -/
theorem not_atomic : ¬ Atomic emptyRoot latestPut 2 ∧
    latestPut.Returned emptyRoot 2 (.ok .written) ∧
    get (latestPut.interrupted emptyRoot 2) latestPut.key = .ok (some []) ∧
    (latestPut.plan (latestPut.interrupted emptyRoot 2)).result = .ok .skipped := by
  have hbefore : get emptyRoot latestPut.key = .ok none := rfl
  have hopened : get (latestPut.interrupted emptyRoot 2) latestPut.key = .ok (some []) := rfl
  refine ⟨fun h => ?_, ⟨le_rfl, rfl⟩, hopened, rfl⟩
  rcases h.read with hsame | hnew
  · rw [hopened, hbefore] at hsame
    cases hsame
  · rw [hopened] at hnew
    cases hnew

end Fs

end Archive

end MonadServices
