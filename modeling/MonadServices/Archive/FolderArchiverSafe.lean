import MonadServices.Archive.FolderArchiver

/-!
# The folder archiver forgets no directory

What is wanted of every tick (`MonadServices.Archive.FolderArchiver.ForgetsNone`): a directory
that the root leads to through readable directories, and that can be opened itself, is
scanned or skipped; and it is skipped only if its last completed scan was recent enough at
the end of the tick before, its modification time has not grown since, and every file which
that scan took was found in the store or offered to `put`.

The code meets this as long as its visits are calm
(`MonadServices.Archive.FolderArchiver.CalmVisit`). The three ways in which a visit is not
calm are that the scan or the listing of a directory fails half-way, which ends the tick for
all directories behind it; that the store or the disk does not answer for a file, which is
then counted as processed with its directory; and that two files have the same key, which
only names that are not UTF-8 can bring about.
-/

namespace MonadServices

namespace Archive

namespace FolderArchiver

/-! ### What is wanted -/

/-- The directories that a tick has to look at: the root leads to them through directories
that can be read and are not excluded, and they can be opened. -/
def Reachable (cfg : Config) (tick : Tick) (path : Path) : Prop :=
  ∃ rootPrefix keyPrefix modified, DirPrefix.root cfg.rootFolder = .ok rootPrefix ∧
    Relation.ReflTransGen (Leads cfg tick) ⟨cfg.rootFolder, rootPrefix⟩ ⟨path, keyPrefix⟩ ∧
    (tick.view path).metadata = .opened modified

/-- Every file that a completed scan took has been found in the store or offered to
`put`. -/
def Log.CoversScan (log : Log) (cfg : Config) (scan : Scan) : Prop :=
  ∀ file ∈ eligible cfg scan.item scan.listing, log.Covers file

/-- A directory is rightly skipped, when `log` is what has been done and the tick before
ended at `since`. -/
def RightlySkipped (cfg : Config) (tick : Tick) (since : ℕ) (path : Path) (log : Log) : Prop :=
  ∃ scan, log.last path = some scan ∧ since ≤ scan.doneAt + cfg.hotDirTtl ∧
    (∀ modified, (tick.view path).metadata = .opened (some modified) → modified ≤ scan.seen) ∧
    log.CoversScan cfg scan

/-- The end of the last tick. -/
def endOf (ticks : List Tick) : ℕ := (ticks.getLast?.map Tick.endsAt).getD 0

/-- What is wanted of a tick that comes after the ticks `before`. -/
structure ForgetsNone (cfg : Config) (before : List Tick) (tick : Tick) : Prop where
  reached : ∀ path, Reachable cfg tick path →
    ∃ v, (path, v) ∈ (archiveRecursiveTick cfg tick (recursiveDirArchiver cfg before)).2.seen
  skipped : ∀ path log,
    (path, .skipped log) ∈
      (archiveRecursiveTick cfg tick (recursiveDirArchiver cfg before)).2.seen →
    RightlySkipped cfg tick (endOf before) path log

/-- The ticks come one after the other, by the monotone clock. -/
def Increasing : ℕ → List Tick → Prop
  | _, [] => True
  | since, tick :: ticks =>
    (∀ path, since ≤ (tick.view path).created ∧ since ≤ (tick.view path).doneAt) ∧
      Increasing tick.endsAt ticks

/-! ### Calm visits -/

/-- The walk reads the listing of a directory to its end. -/
def listsCleanly : Opened Listing → Bool
  | .opened listing => listing.all fun e => match e with | .ok _ => true | .error _ => false
  | _ => true

/-- A visit goes wrong neither for the directories behind it nor for its own files. -/
def CalmVisit (cfg : Config) (tick : Tick) (item : QueueItem) (a : Archiver) : Prop :=
  match (tick.view item.path).metadata with
  | .opened modified =>
    (directoryChanged (a.lastSeenModified item.path) modified = true →
      ScansCleanly cfg tick.ops (tick.view item.path).scan item (a.knownInS3 item.path)) ∧
    listsCleanly (tick.view item.path).list = true
  | _ => True

instance (cfg : Config) (tick : Tick) (item : QueueItem) (a : Archiver) :
    Decidable (CalmVisit cfg tick item a) :=
  match h : (tick.view item.path).metadata with
  | .opened modified =>
    decidable_of_iff
      ((directoryChanged (a.lastSeenModified item.path) modified = true →
        ScansCleanly cfg tick.ops (tick.view item.path).scan item (a.knownInS3 item.path)) ∧
      listsCleanly (tick.view item.path).list = true) (by rw [CalmVisit, h])
  | .notFound => .isTrue (by rw [CalmVisit, h]; trivial)
  | .failed _ => .isTrue (by rw [CalmVisit, h]; trivial)

/-- Every visit of a tick is calm. -/
def CalmTick (cfg : Config) (tick : Tick) (a : Archiver) : Prop :=
  match DirPrefix.root cfg.rootFolder with
  | .error _ => True
  | .ok rootPrefix =>
    QueueWalk.Throughout (visit cfg tick) (CalmVisit cfg tick)
      (weight cfg tick ⟨cfg.rootFolder, rootPrefix⟩) [⟨cfg.rootFolder, rootPrefix⟩]
      { a with seen := [] }

instance (cfg : Config) (tick : Tick) (a : Archiver) : Decidable (CalmTick cfg tick a) :=
  match h : DirPrefix.root cfg.rootFolder with
  | .error _ => .isTrue (by rw [CalmTick, h]; trivial)
  | .ok rootPrefix =>
    decidable_of_iff
      (QueueWalk.Throughout (visit cfg tick) (CalmVisit cfg tick)
        (weight cfg tick ⟨cfg.rootFolder, rootPrefix⟩) [⟨cfg.rootFolder, rootPrefix⟩]
        { a with seen := [] }) (by rw [CalmTick, h])

/-- One round of the loop. -/
def round (cfg : Config) (a : Archiver) (tick : Tick) : Archiver :=
  gcDirState cfg tick.endsAt (archiveRecursiveTick cfg tick a).2

/-- Every visit of every tick is calm. -/
def CalmRun (cfg : Config) : Archiver → List Tick → Prop
  | _, [] => True
  | a, tick :: ticks => CalmTick cfg tick a ∧ CalmRun cfg (round cfg a tick) ticks

instance decidableCalmRun (cfg : Config) :
    ∀ (a : Archiver) (ticks : List Tick), Decidable (CalmRun cfg a ticks)
  | _, [] => .isTrue trivial
  | a, tick :: ticks =>
    have := decidableCalmRun cfg (round cfg a tick) ticks
    inferInstanceAs (Decidable (CalmTick cfg tick a ∧ CalmRun cfg (round cfg a tick) ticks))

theorem recursiveDirArchiver_append (cfg : Config) (before : List Tick) (tick : Tick) :
    recursiveDirArchiver cfg (before ++ [tick]) =
      round cfg (recursiveDirArchiver cfg before) tick := by
  simp [recursiveDirArchiver, round]

/-! ### Nothing reachable is left out -/

section Reach

variable {cfg : Config} {tick : Tick}

/-- The directory can be opened. -/
def Opens (tick : Tick) (item : QueueItem) : Prop :=
  ∃ modified, (tick.view item.path).metadata = .opened modified

/-- The directory was scanned or skipped in this tick. -/
def Archiver.Saw (a : Archiver) (item : QueueItem) : Prop := ∃ v, (item.path, v) ∈ a.seen

theorem scanDir_seen (item : QueueItem) (modified : Option ℕ) (a : Archiver) :
    (scanDir cfg tick item modified a).2.seen = (item.path, .scanned) :: a.seen := by
  simp only [scanDir]
  split <;> rfl

/-- A visit notes the directory, if it can be opened, -/
theorem visit_saw (item : QueueItem) (a : Archiver) (h : Opens tick item) :
    (visit cfg tick item a).2.Saw item := by
  obtain ⟨modified, hm⟩ := h
  refine visit_keeps (I := fun b => b.Saw item) (fun b hb => hb)
    (fun hnot => absurd hm (hnot modified)) ?_ ?_
  · intro m _ _
    exact ⟨.scanned, by simp [scanDir_seen]⟩
  · intro m _ _
    exact ⟨.skipped a.log, by simp [Archiver.skip]⟩

/-- and keeps what was noted. -/
theorem visit_saw_of_saw (item : QueueItem) (a : Archiver) (x : QueueItem) (h : a.Saw x) :
    (visit cfg tick item a).2.Saw x := by
  obtain ⟨v, hv⟩ := h
  refine visit_keeps (I := fun b => b.Saw x) (fun b hb => hb) (fun _ => ⟨v, hv⟩) ?_ ?_
  · intro m _ _
    exact ⟨v, by simp [scanDir_seen, hv]⟩
  · intro m _ _
    exact ⟨v, by simp [Archiver.skip, hv]⟩

theorem descend_leads {item : QueueItem} (a : Archiver)
    (h : listsCleanly (tick.view item.path).list = true) :
    ∃ new, (descend cfg tick item a).1 = .ok new ∧ ∀ c, Leads cfg tick item c → c ∈ new := by
  rw [descend]
  cases hl : (tick.view item.path).list with
  | notFound =>
    refine ⟨[], rfl, ?_⟩
    rintro c ⟨_, listing, _, _, -, hlist, -⟩
    simp [hl] at hlist
  | failed e =>
    refine ⟨[], rfl, ?_⟩
    rintro c ⟨_, listing, _, _, -, hlist, -⟩
    simp [hl] at hlist
  | opened listing =>
    have hok : ∀ e ∈ listing, ∃ entry, e = .ok entry := by
      intro e he
      rw [hl, listsCleanly, List.all_eq_true] at h
      cases e with
      | error e => simpa using h _ he
      | ok entry => exact ⟨entry, rfl⟩
    obtain ⟨items, hitems, hin⟩ := children_complete hok
    refine ⟨items, hitems, ?_⟩
    rintro ⟨path, keyPrefix⟩ ⟨_, listing', entry, metadata, -, hlist, hmem, hm, hdir, hex, rfl, hp⟩
    rw [hl] at hlist
    cases hlist
    exact hin entry metadata keyPrefix hmem hm hdir hex hp

/-- A calm visit does not end the tick, and queues whatever the directory leads to. -/
theorem visit_leads (item : QueueItem) (a : Archiver) (h : CalmVisit cfg tick item a) :
    ∃ new, (visit cfg tick item a).1 = .ok new ∧ ∀ c, Leads cfg tick item c → c ∈ new := by
  rw [CalmVisit] at h
  rw [visit]
  cases hm : (tick.view item.path).metadata with
  | notFound =>
    refine ⟨[], rfl, ?_⟩
    rintro c ⟨modified, _, _, _, hopen, -⟩
    simp [hm] at hopen
  | failed e =>
    refine ⟨[], rfl, ?_⟩
    rintro c ⟨modified, _, _, _, hopen, -⟩
    simp [hm] at hopen
  | opened modified =>
    rw [hm] at h
    obtain ⟨hscan, hlist⟩ := h
    cases hc : directoryChanged (a.lastSeenModified item.path) modified with
    | false => simpa [hc] using descend_leads (a.skip item.path) hlist
    | true =>
      obtain ⟨known, log, hdone, -⟩ := archiveDir_of_scansCleanly a.log (hscan hc)
      simpa [hc, scanDir_of_ok hdone] using descend_leads _ hlist

/-- **A calm tick leaves out no reachable directory.** -/
theorem saw_of_calmTick {a : Archiver} (hcalm : CalmTick cfg tick a) {path : Path}
    (hpath : Reachable cfg tick path) :
    ∃ v, (path, v) ∈ (archiveRecursiveTick cfg tick a).2.seen := by
  obtain ⟨rootPrefix, keyPrefix, modified, hroot, hlead, hopen⟩ := hpath
  simp only [CalmTick, hroot] at hcalm
  simp only [archiveRecursiveTick, hroot]
  have hopens : Opens tick ⟨path, keyPrefix⟩ := ⟨modified, hopen⟩
  exact QueueWalk.walk_reaches weight_children weight_pos visit_leads visit_saw
    visit_saw_of_saw (by simp) hcalm (by simp) hlead hopens

end Reach

/-! ### What is remembered is what was done -/

section Coherence

variable {cfg : Config} {tick : Tick} {since : ℕ}

/-- **What the cache stands for.** The tick before ended at `since`. -/
structure Coherent (cfg : Config) (since : ℕ) (a : Archiver) : Prop where
  /-- A modification time is that of the last completed scan. -/
  marked : ∀ path entry seen, a.dirStates path = some entry →
    entry.lastSeenModified = some seen →
    ∃ scan, a.log.last path = some scan ∧ scan.doneAt = entry.lastHot ∧ scan.seen = seen
  /-- Nothing that is too old is remembered. -/
  warm : ∀ path entry, a.dirStates path = some entry → since ≤ entry.lastHot + cfg.hotDirTtl
  /-- Known keys were found. -/
  known : ∀ path, ∀ key ∈ a.knownInS3 path, key ∈ a.log.found
  /-- Completed scans cover their files. -/
  covers : ∀ scan ∈ a.log.scans, a.log.CoversScan cfg scan

theorem coherent_init : Coherent cfg since .init where
  marked := by simp [Archiver.init]
  warm := by simp [Archiver.init]
  known := by simp [Archiver.init, Archiver.knownInS3]
  covers := by simp [Archiver.init]

theorem Coherent.remove {a : Archiver} (h : Coherent cfg since a) (path : Path) :
    Coherent cfg since (a.remove path) where
  marked := by
    intro p entry seen hp
    by_cases hpath : p = path
    · simp [Archiver.remove, hpath] at hp
    · exact h.marked p entry seen (by simpa [Archiver.remove, hpath] using hp)
  warm := by
    intro p entry hp
    by_cases hpath : p = path
    · simp [Archiver.remove, hpath] at hp
    · exact h.warm p entry (by simpa [Archiver.remove, hpath] using hp)
  known := by
    intro p key hkey
    by_cases hpath : p = path
    · simp [Archiver.remove, Archiver.knownInS3, hpath] at hkey
    · exact h.known p key (by simpa [Archiver.remove, Archiver.knownInS3, hpath] using hkey)
  covers := h.covers

theorem Coherent.gc {a : Archiver} (h : Coherent cfg since a) (now : ℕ) :
    Coherent cfg now (gcDirState cfg now a) where
  marked := by
    intro path entry seen hp
    simp only [gcDirState, Option.filter_eq_some_iff] at hp
    exact h.marked path entry seen hp.1
  warm := by
    intro path entry hp
    simp only [gcDirState, Option.filter_eq_some_iff, decide_eq_true_eq] at hp
    omega
  known := by
    intro path key hkey
    refine h.known path key ?_
    rw [Archiver.knownInS3] at hkey ⊢
    simp only [gcDirState] at hkey
    cases hp : a.dirStates path with
    | none => simp [hp] at hkey
    | some entry =>
      rw [hp, Option.filter] at hkey
      split at hkey
      · exact hkey
      · simp at hkey
  covers := h.covers

/-- A directory that is skipped is rightly skipped. -/
theorem Coherent.rightlySkipped {a : Archiver} (h : Coherent cfg since a) {path : Path}
    {modified : Option ℕ} (hm : (tick.view path).metadata = .opened modified)
    (hc : directoryChanged (a.lastSeenModified path) modified = false) :
    RightlySkipped cfg tick since path a.log := by
  -- A time is remembered, or the directory would count as changed.
  rcases hp : a.dirStates path with _ | entry
  · simp [Archiver.lastSeenModified, hp, directoryChanged] at hc
  · rcases hseen : entry.lastSeenModified with _ | seen
    · simp [Archiver.lastSeenModified, hp, hseen, directoryChanged] at hc
    · obtain ⟨scan, hlast, hdone, hscan⟩ := h.marked path entry seen hp hseen
      refine ⟨scan, hlast, ?_, ?_, h.covers scan ?_⟩
      · rw [hdone]
        exact h.warm path entry hp
      · intro current hcurrent
        rw [hm] at hcurrent
        cases hcurrent
        simpa [Archiver.lastSeenModified, hp, hseen, directoryChanged, hscan] using hc
      · exact List.mem_of_find?_eq_some hlast

/-- **A clean scan keeps the cache coherent.** -/
theorem Coherent.scanDir {a : Archiver} (h : Coherent cfg since a) {item : QueueItem}
    (modified : Option ℕ) (hdone : since ≤ (tick.view item.path).doneAt)
    (hclean : ScansCleanly cfg tick.ops (tick.view item.path).scan item
      (a.knownInS3 item.path)) :
    Coherent cfg since (FolderArchiver.scanDir cfg tick item modified a).2 := by
  obtain ⟨known, log, harchive, hcovers⟩ := archiveDir_of_scansCleanly a.log hclean
  obtain ⟨hgrows, hfound⟩ := archiveDir_spec harchive (h.known item.path)
  rw [scanDir_of_ok harchive]
  constructor
  · intro path entry seen hp hseen
    by_cases hpath : path = item.path
    · subst hpath
      simp only [Function.update_self, Option.some.injEq] at hp
      subst hp
      exact ⟨_, List.find?_cons_of_pos (by simp), rfl, by simpa using hseen⟩
    · simp only [Function.update_of_ne hpath] at hp
      obtain ⟨scan, hlast, hrest⟩ := h.marked path entry seen hp hseen
      refine ⟨scan, ?_, hrest⟩
      -- The new scan is of another directory.
      rw [Log.last] at hlast ⊢
      rw [List.find?_cons_of_neg (by simpa using Ne.symm hpath), hgrows.scans, hlast]
  · intro path entry hp
    by_cases hpath : path = item.path
    · subst hpath
      simp only [Function.update_self, Option.some.injEq] at hp
      subst hp
      exact hdone.trans (Nat.le_add_right _ _)
    · simp only [Function.update_of_ne hpath] at hp
      exact h.warm path entry hp
  · intro path key hkey
    by_cases hpath : path = item.path
    · subst hpath
      exact hfound key (by simpa [Archiver.knownInS3] using hkey)
    · refine hgrows.found key (h.known path key ?_)
      simpa [Archiver.knownInS3, Function.update_of_ne hpath] using hkey
  · intro scan hscan file hfile
    rcases List.mem_cons.mp hscan with rfl | hold
    · exact hcovers (h.known item.path) file hfile
    · rw [hgrows.scans] at hold
      exact hgrows.covers (h.covers scan hold file hfile)

/-- What holds while a tick is under way: the cache is coherent, and the directories skipped
so far are rightly skipped. -/
structure Underway (cfg : Config) (tick : Tick) (since : ℕ) (a : Archiver) : Prop where
  coherent : Coherent cfg since a
  skipped : ∀ path log, (path, .skipped log) ∈ a.seen → RightlySkipped cfg tick since path log

/-- A calm visit keeps it. -/
theorem Underway.visit {a : Archiver} {item : QueueItem}
    (htimes : ∀ path, since ≤ (tick.view path).created ∧ since ≤ (tick.view path).doneAt)
    (hcalm : CalmVisit cfg tick item a) (h : Underway cfg tick since a) :
    Underway cfg tick since (FolderArchiver.visit cfg tick item a).2 := by
  refine visit_keeps ?_ (fun _ => h) ?_ ?_
  · intro b hb
    exact ⟨hb.coherent.remove item.path, hb.skipped⟩
  · intro modified hm hc
    rw [CalmVisit, hm] at hcalm
    refine ⟨h.coherent.scanDir modified (htimes item.path).2 (hcalm.1 hc), ?_⟩
    intro path log hmem
    rw [scanDir_seen] at hmem
    exact h.skipped path log (by simpa using hmem)
  · intro modified hm hc
    refine ⟨⟨h.coherent.marked, h.coherent.warm, h.coherent.known, h.coherent.covers⟩, ?_⟩
    intro path log hmem
    rw [Archiver.skip] at hmem
    rcases List.mem_cons.mp hmem with heq | hmem
    · cases heq
      exact h.coherent.rightlySkipped hm hc
    · exact h.skipped path log hmem

/-- A calm tick keeps it. -/
theorem Underway.ofTick {a : Archiver}
    (htimes : ∀ path, since ≤ (tick.view path).created ∧ since ≤ (tick.view path).doneAt)
    (hcalm : CalmTick cfg tick a) (h : Coherent cfg since a) :
    Underway cfg tick since (archiveRecursiveTick cfg tick a).2 := by
  have hstart : Underway cfg tick since { a with seen := [] } :=
    ⟨⟨h.marked, h.warm, h.known, h.covers⟩, by simp⟩
  cases hroot : DirPrefix.root cfg.rootFolder with
  | error e => simpa [archiveRecursiveTick, hroot] using hstart
  | ok rootPrefix =>
    simp only [CalmTick, hroot] at hcalm
    simp only [archiveRecursiveTick, hroot]
    exact QueueWalk.walk_keeps (fun item b hb hu => hu.visit htimes hb) hcalm hstart

theorem endOf_append (before : List Tick) (tick : Tick) :
    endOf (before ++ [tick]) = tick.endsAt := by
  simp [endOf]

/-- **A calm run keeps the cache coherent**, and every tick in it is one at which the cache
was. The induction is on the ticks still to come. -/
theorem coherent_of_calmRun (before : List Tick) {ticks : List Tick}
    (h : Coherent cfg (endOf before) (recursiveDirArchiver cfg before))
    (htimes : Increasing (endOf before) ticks)
    (hcalm : CalmRun cfg (recursiveDirArchiver cfg before) ticks) {done after : List Tick}
    {tick : Tick} (hsplit : ticks = done ++ tick :: after) :
    Coherent cfg (endOf (before ++ done)) (recursiveDirArchiver cfg (before ++ done)) ∧
      CalmTick cfg tick (recursiveDirArchiver cfg (before ++ done)) ∧
      ∀ path, endOf (before ++ done) ≤ (tick.view path).created ∧
        endOf (before ++ done) ≤ (tick.view path).doneAt := by
  induction done generalizing before ticks with
  | nil =>
    subst hsplit
    rw [List.append_nil]
    exact ⟨h, hcalm.1, htimes.1⟩
  | cons first done ih =>
    subst hsplit
    have hnext : Coherent cfg (endOf (before ++ [first]))
        (recursiveDirArchiver cfg (before ++ [first])) := by
      rw [endOf_append, recursiveDirArchiver_append]
      exact (Underway.ofTick htimes.1 hcalm.1 h).coherent.gc first.endsAt
    have := ih (before ++ [first]) hnext (by simpa [endOf_append] using htimes.2)
      (by simpa [recursiveDirArchiver_append] using hcalm.2) rfl
    simpa using this

end Coherence

/-- **The folder archiver forgets no directory** in a run whose visits are all calm: at every
tick, each reachable directory is scanned or skipped, and it is skipped only if its last
completed scan is recent, its modification time has not grown since, and the files of that
scan were found in the store or offered to `put`. -/
theorem forgets_none_of_calm (cfg : Config) (ticks : List Tick) (htimes : Increasing 0 ticks)
    (hcalm : CalmRun cfg .init ticks) (before after : List Tick) (tick : Tick)
    (hsplit : ticks = before ++ tick :: after) : ForgetsNone cfg before tick := by
  obtain ⟨hcoherent, hcalmTick, htick⟩ :=
    coherent_of_calmRun [] coherent_init htimes hcalm hsplit
  exact ⟨fun path hpath => saw_of_calmTick hcalmTick hpath,
    (Underway.ofTick htick hcalmTick hcoherent).skipped⟩

/-! ### A tree on which a failed scan starves a directory -/

/-- The names `r`, `a`, `b` and `f`. -/
def nameR : OsName := [0x72]
def nameA : OsName := [0x61]
def nameB : OsName := [0x62]
def nameF : OsName := [0x66]

/-- An archiver of the folder `r`. -/
def folderConfig : Config where
  rootFolder := [nameR]
  excludePrefix := []
  minAge := none
  hotDirTtl := 100

/-- The root holds the directories `a` and `b`, and each of them the file `f`. What the scan
of `a` lists is left open. -/
def folderView (time : ℕ) (scanOfA : Opened Listing) (path : Path) : View where
  metadata := .opened (some 5)
  created := time
  scan :=
    if path = [nameR] then .opened []
    else if path = [nameR, nameA] then scanOfA
    else .opened [.ok ⟨nameF, .ok ⟨.file, some 1⟩, time⟩]
  doneAt := time
  now := time
  list :=
    if path = [nameR] then
      .opened
        [.ok ⟨nameA, .ok ⟨.dir, some 1⟩, time⟩, .ok ⟨nameB, .ok ⟨.dir, some 1⟩, time⟩]
    else .opened []

/-- A tick over this tree, with a store that holds nothing and takes everything. -/
def folderTick (time : ℕ) (scanOfA : Opened Listing) : Tick where
  view := folderView time scanOfA
  ops := fun _ => ⟨.ok false, .ok [0x78], .ok ()⟩
  endsAt := time + 1
  depth := 2
  shallow := by
    intro path listing entry metadata hlist hmem _ _
    simp only [folderView] at hlist
    split at hlist
    · rename_i hpath
      rw [hpath]
      decide
    · cases hlist
      simp at hmem

/-- The listing of a directory with the file `f`. -/
def listF (time : ℕ) : Opened Listing := .opened [.ok ⟨nameF, .ok ⟨.file, some 1⟩, time⟩]

/-- Two ticks over the tree without errors, of which the second skips every directory. -/
theorem forgets_none_of_calm_two_ticks :
    ForgetsNone folderConfig [folderTick 10 (listF 10)] (folderTick 20 (listF 20)) :=
  forgets_none_of_calm folderConfig [folderTick 10 (listF 10), folderTick 20 (listF 20)]
    (by simp [Increasing, folderTick, folderView]) (by decide)
    [folderTick 10 (listF 10)] [] (folderTick 20 (listF 20)) rfl

example :
    (archiveRecursiveTick folderConfig (folderTick 20 (listF 20))
      (recursiveDirArchiver folderConfig [folderTick 10 (listF 10)])).2.seen.map
        (fun s => match s.2 with | .scanned => none | .skipped log => some (s.1, log.offered)) =
      [some ([nameR, nameB], [[nameR, nameB, nameF], [nameR, nameA, nameF]]),
        some ([nameR, nameA], [[nameR, nameB, nameF], [nameR, nameA, nameF]]),
        some ([nameR], [[nameR, nameB, nameF], [nameR, nameA, nameF]])] := by
  decide

/-- **A scan that fails starves the directories behind it**: the root and `b` can be read,
but the directory `a` in between cannot be listed, and `b` is neither scanned nor skipped. -/
theorem failed_scan_starves :
    Increasing 0 [folderTick 10 (.failed ["Permission denied"])] ∧
      ¬ ForgetsNone folderConfig [] (folderTick 10 (.failed ["Permission denied"])) := by
  refine ⟨by simp [Increasing, folderTick, folderView], fun h => ?_⟩
  have hreach : Reachable folderConfig (folderTick 10 (.failed ["Permission denied"]))
      [nameR, nameB] := by
    refine ⟨⟨['r'], by decide⟩, ⟨['r', '/', 'b'], by decide⟩, some 5, by decide, ?_, rfl⟩
    refine Relation.ReflTransGen.single ?_
    exact ⟨some 5, _, ⟨nameB, .ok ⟨.dir, some 1⟩, 10⟩, ⟨.dir, some 1⟩, rfl, rfl, by simp, rfl,
      rfl, by decide, rfl, by decide⟩
  obtain ⟨v, hv⟩ := h.reached _ hreach
  have hseen : (archiveRecursiveTick folderConfig (folderTick 10 (.failed ["Permission denied"]))
      (recursiveDirArchiver folderConfig [])).2.seen.map (·.1) = [[nameR, nameA], [nameR]] := by
    decide
  have hmem : [nameR, nameB] ∈ [[nameR, nameA], [nameR]] :=
    hseen ▸ List.mem_map_of_mem (f := (·.1)) hv
  exact absurd hmem (by decide)

end FolderArchiver

end Archive

end MonadServices
