import Mathlib.Data.List.Basic
import Mathlib.Logic.Function.Basic

/-!
# File trees

A file tree has files and directories at paths, and whatever is there is in a directory. It is
changed by steps that the operating system does at once: a directory is made, a file is created or
emptied, and data are appended to it. A program that writes a file takes several of them, and may
be interrupted after any.

Before the file is created nothing changes at its path, and from then on **the data are there that
have been appended so far** (`MonadServices.FileTree.read_run_take`).
-/

namespace MonadServices

/-- A path from the root, by the names on it. -/
abbrev Path := List String

/-- What is at a path. -/
inductive Node (β : Type) where
  | file (data : List β)
  | dir

def Node.isDir {β : Type} : Node β → Bool
  | .file _ => false
  | .dir => true

/-- Why an operation fails. -/
inductive IoError where
  | notFound
  | notADirectory
  | isADirectory
  | alreadyExists
  deriving DecidableEq

/-- **A file tree.** -/
structure FileTree (β : Type) where
  node : Path → Option (Node β)
  root : node [] = some .dir
  /-- Whatever is there is in a directory. -/
  inDir : ∀ p name, node (p ++ [name]) ≠ none → node p = some .dir

/-- A change that the operating system makes at once. -/
inductive FileStep (β : Type) where
  /-- The directory is made, unless something is there. -/
  | makeDir (p : Path)
  /-- The file is created, or emptied if it is there. -/
  | create (p : Path)
  | append (p : Path) (data : List β)

namespace FileTree

variable {β : Type}

/-- The directories on the way from `q` on. -/
def dirsFrom : Path → Path → List Path
  | _, [] => []
  | q, name :: rest => q :: dirsFrom (q ++ [name]) rest

/-- The directories above a path, from the top. -/
def parents (p : Path) : List Path := dirsFrom [] p

def isDir (t : FileTree β) (p : Path) : Bool := (t.node p).any Node.isDir

/-- There is a file on the way to a path. -/
def blocked (t : FileTree β) (p : Path) : Bool :=
  (parents p).any fun q => (t.node q).any fun n => !n.isDir

/-- Reads a file. -/
def read (t : FileTree β) (p : Path) : Except IoError (List β) :=
  match t.node p with
  | some (.file data) => .ok data
  | some .dir => .error .isADirectory
  | none => .error (if t.blocked p then .notADirectory else .notFound)

theorem isDir_iff {t : FileTree β} {p : Path} : t.isDir p = true ↔ t.node p = some .dir := by
  unfold isDir
  cases t.node p with
  | none => simp
  | some n => cases n <;> simp [Node.isDir]

theorem read_of_file {t : FileTree β} {p : Path} {data : List β}
    (h : t.node p = some (.file data)) : t.read p = .ok data := by
  rw [read, h]

/-- A file that is not found could be there. -/
theorem read_eq_notFound {t : FileTree β} {p : Path} (h : t.read p = .error .notFound) :
    t.node p = none ∧ t.blocked p = false := by
  unfold read at h
  cases hnode : t.node p with
  | none =>
    rw [hnode] at h
    cases hfree : t.blocked p with
    | false => exact ⟨rfl, rfl⟩
    | true =>
      rw [hfree] at h
      cases h
  | some n =>
    rw [hnode] at h
    cases n <;> cases h

/-! ### Steps -/

/-- Puts something at a path, if it is in a directory and no directory itself. -/
def set (t : FileTree β) (p : Path) (n : Node β) : FileTree β :=
  if h : p ≠ [] ∧ t.isDir p.dropLast = true ∧ ¬t.isDir p = true then
    { node := Function.update t.node p (some n)
      root := by rw [Function.update_of_ne h.1.symm, t.root]
      inDir := by
        intro q name hthere
        -- What is put there replaces nothing that has anything in it.
        have hq : t.node q = some .dir := by
          rcases eq_or_ne (q ++ [name]) p with rfl | hne
          · rw [List.dropLast_concat] at h
            exact isDir_iff.mp h.2.1
          · rw [Function.update_of_ne hne] at hthere
            exact t.inDir q name hthere
        have hne : q ≠ p := by
          rintro rfl
          exact h.2.2 (isDir_iff.mpr hq)
        rw [Function.update_of_ne hne, hq] }
  else t

def apply (t : FileTree β) : FileStep β → FileTree β
  | .makeDir p => if t.node p = none then t.set p .dir else t
  | .create p => t.set p (.file [])
  | .append p data =>
    match t.node p with
    | some (.file old) => t.set p (.file (old ++ data))
    | _ => t

/-- The tree after some steps. -/
def run (t : FileTree β) (steps : List (FileStep β)) : FileTree β := steps.foldl apply t

/-- The steps that write a file, the data in several pieces. -/
def writeSteps (p : Path) (pieces : List (List β)) : List (FileStep β) :=
  (parents p).map .makeDir ++ .create p :: pieces.map (.append p)

variable {t : FileTree β} {p q : Path} {n : Node β}

theorem node_set_of_ne (h : q ≠ p) : (t.set p n).node q = t.node q := by
  unfold set
  split
  · exact Function.update_of_ne h ..
  · rfl

theorem node_set_self (hdir : t.isDir p.dropLast = true) (hp : t.isDir p = false) :
    (t.set p n).node p = some n := by
  have hne : p ≠ [] := by
    rintro rfl
    rw [isDir_iff.mpr t.root] at hp
    cases hp
  rw [set, dif_pos ⟨hne, hdir, by rw [hp]; exact Bool.false_ne_true⟩]
  exact Function.update_self ..

theorem run_append (t : FileTree β) (steps steps' : List (FileStep β)) :
    t.run (steps ++ steps') = (t.run steps).run steps' := List.foldl_append ..

/-! ### Making the directories -/

/-- What is above a path is shorter. -/
theorem eq_append_of_mem_dirsFrom {q rest x : Path} (h : x ∈ dirsFrom q rest) :
    ∃ r, x = q ++ r ∧ r.length < rest.length := by
  induction rest generalizing q with
  | nil => cases h
  | cons name rest ih =>
    rcases List.mem_cons.mp h with rfl | h
    · exact ⟨[], (List.append_nil x).symm, Nat.succ_pos _⟩
    · obtain ⟨r, rfl, hr⟩ := ih h
      exact ⟨name :: r, List.append_cons q name r ▸ rfl, Nat.succ_lt_succ hr⟩

theorem notMem_parents (p : Path) : p ∉ parents p := by
  intro h
  obtain ⟨r, hr, hlt⟩ := eq_append_of_mem_dirsFrom h
  rw [hr, List.nil_append] at hlt
  exact Nat.lt_irrefl _ hlt

/-- The directory that a path is in. -/
theorem dropLast_mem_dirsFrom (q rest : Path) (hrest : rest ≠ []) :
    q ++ rest.dropLast ∈ dirsFrom q rest := by
  induction rest generalizing q with
  | nil => exact absurd rfl hrest
  | cons name rest ih =>
    cases rest with
    | nil =>
      rw [List.dropLast_singleton, List.append_nil]
      exact List.mem_cons_self
    | cons name' rest =>
      rw [List.dropLast_cons_cons, List.append_cons]
      exact List.mem_cons_of_mem q (ih (q ++ [name]) (List.cons_ne_nil name' rest))

/-- Making a directory changes nothing but what was not there. -/
theorem node_makeDir (t : FileTree β) (p q : Path) :
    (t.apply (.makeDir p)).node q = t.node q ∨
      q = p ∧ t.node q = none ∧ (t.apply (.makeDir p)).node q = some .dir := by
  rw [apply]
  split
  · rename_i hnone
    rcases eq_or_ne q p with rfl | hne
    · unfold set
      split
      · exact .inr ⟨rfl, hnone, Function.update_self ..⟩
      · exact .inl rfl
    · exact .inl (node_set_of_ne hne)
  · exact .inl rfl

theorem node_makeDirs (t : FileTree β) (ds : List Path) (q : Path) :
    (t.run (ds.map .makeDir)).node q = t.node q ∨
      q ∈ ds ∧ t.node q = none ∧ (t.run (ds.map .makeDir)).node q = some .dir := by
  induction ds generalizing t with
  | nil => exact .inl rfl
  | cons d ds ih =>
    show ((t.apply (.makeDir d)).run (ds.map .makeDir)).node q = _ ∨ _ ∧ _ ∧
      ((t.apply (.makeDir d)).run (ds.map .makeDir)).node q = _
    rcases node_makeDir t d q with hd | ⟨rfl, hnone, hdir⟩
    · rcases ih (t.apply (.makeDir d)) with hds | ⟨hmem, hnone, hdir⟩
      · exact .inl (hds.trans hd)
      · exact .inr ⟨List.mem_cons_of_mem d hmem, hd.symm.trans hnone, hdir⟩
    · rcases ih (t.apply (.makeDir q)) with hds | ⟨-, hnone', -⟩
      · exact .inr ⟨List.mem_cons_self, hnone, hds.trans hdir⟩
      · rw [hdir] at hnone'
        cases hnone'

/-- Making directories puts no file in the way, and takes none out of it. -/
theorem blocked_makeDirs (t : FileTree β) (ds : List Path) (p : Path) :
    (t.run (ds.map .makeDir)).blocked p = t.blocked p := by
  unfold blocked
  refine List.any_congr rfl fun q => ?_
  rcases node_makeDirs t ds q with hsame | ⟨-, hnone, hdir⟩
  · rw [hsame]
  · rw [hnone, hdir]
    rfl

/-- **Making the directories above a path leaves it as it is.** -/
theorem read_makeDirs (t : FileTree β) {ds : List Path} (hp : p ∉ ds) :
    (t.run (ds.map .makeDir)).read p = t.read p := by
  have hnode : (t.run (ds.map .makeDir)).node p = t.node p := by
    rcases node_makeDirs t ds p with hsame | ⟨hmem, -⟩
    · exact hsame
    · exact absurd hmem hp
  rw [read, read, hnode, blocked_makeDirs]

/-- The directories on the way are there in the end, if no file is in the way. -/
theorem isDir_makeDirs {rest : Path} (hq : t.isDir q = true ∨ t.isDir q.dropLast = true)
    (hfree : ∀ x ∈ dirsFrom q rest, t.node x = none ∨ t.isDir x = true) :
    ∀ x ∈ dirsFrom q rest, (t.run ((dirsFrom q rest).map .makeDir)).isDir x = true := by
  induction rest generalizing q t with
  | nil => exact fun x hx => absurd hx List.not_mem_nil
  | cons name rest ih =>
    rw [dirsFrom] at hfree ⊢
    rw [List.forall_mem_cons] at hfree
    -- The first of them is there after the first step.
    have hfirst : (t.apply (.makeDir q)).isDir q = true := by
      rw [apply]
      split
      · rename_i hnone
        have hnot : t.isDir q = false := by rw [isDir, hnone]; rfl
        have hparent := hq.resolve_left (by rw [hnot]; exact Bool.false_ne_true)
        exact isDir_iff.mpr (node_set_self hparent hnot)
      · rename_i hsome
        exact hfree.1.resolve_left hsome
    have hstays : ∀ (ds : List Path) (x : Path), (t.apply (.makeDir q)).isDir x = true →
        ((t.apply (.makeDir q)).run (ds.map .makeDir)).isDir x = true := by
      intro ds x hx
      rw [isDir_iff] at hx ⊢
      rcases node_makeDirs (t.apply (.makeDir q)) ds x with hsame | ⟨-, hnone, -⟩
      · rw [hsame, hx]
      · rw [hx] at hnone
        cases hnone
    show ∀ x ∈ q :: dirsFrom (q ++ [name]) rest,
      ((t.apply (.makeDir q)).run ((dirsFrom (q ++ [name]) rest).map .makeDir)).isDir x = true
    refine List.forall_mem_cons.mpr ⟨hstays _ q hfirst, ih (.inr ?_) fun x hx => ?_⟩
    · rw [List.dropLast_concat]
      exact hfirst
    · rcases node_makeDir t q x with hsame | ⟨-, -, hdir⟩
      · rw [isDir, hsame]
        exact hfree.2 x hx
      · exact .inr (isDir_iff.mpr hdir)

/-! ### Writing a file -/

/-- A file can be created once the directories above it have been made. -/
theorem isDir_dropLast_makeDirs (hdir : t.isDir p = false) (hfree : t.blocked p = false) :
    (t.run ((parents p).map .makeDir)).isDir p.dropLast = true := by
  have hne : p ≠ [] := by
    rintro rfl
    rw [isDir_iff.mpr t.root] at hdir
    cases hdir
  refine isDir_makeDirs (.inl (isDir_iff.mpr t.root)) (fun x hx => ?_) _
    (dropLast_mem_dirsFrom [] p hne)
  have hx' := List.any_eq_false.mp hfree x hx
  unfold isDir
  cases hnode : t.node x with
  | none => exact .inl rfl
  | some n =>
    rw [hnode] at hx'
    exact .inr (by simpa using hx')

/-- The data that are appended are behind those that are there. -/
theorem node_appends {old : List β} {pieces : List (List β)} (h : t.node p = some (.file old)) :
    (t.run (pieces.map (.append p))).node p = some (.file (old ++ pieces.flatten)) := by
  induction pieces generalizing t old with
  | nil => rw [List.flatten_nil, List.append_nil]; exact h
  | cons piece pieces ih =>
    have hnot : t.isDir p = false := by rw [isDir, h]; rfl
    have hparent : t.isDir p.dropLast = true := by
      rcases List.eq_nil_or_concat p with rfl | ⟨q, name, rfl⟩
      · rw [t.root] at h
        cases h
      · rw [List.concat_eq_append] at h ⊢
        rw [List.dropLast_concat]
        exact isDir_iff.mpr (t.inDir q name (by rw [h]; exact Option.some_ne_none _))
    have hfirst : (t.apply (.append p piece)).node p = some (.file (old ++ piece)) := by
      rw [apply, h]
      exact node_set_self hparent hnot
    rw [List.flatten_cons, ← List.append_assoc]
    exact ih hfirst

/-- **What is there when a file has been written in part**: from the moment when it is created the
data that have been appended so far. -/
theorem read_run_take {pieces : List (List β)} {k : ℕ} (hdir : t.isDir p = false)
    (hfree : t.blocked p = false) :
    (t.run ((writeSteps p pieces).take ((parents p).length + (k + 1)))).read p =
      .ok (pieces.take k).flatten := by
  have htake : (writeSteps p pieces).take ((parents p).length + (k + 1)) =
      (parents p).map .makeDir ++ .create p :: (pieces.take k).map (.append p) := by
    rw [writeSteps, List.take_append, List.take_of_length_le (by simp), List.length_map,
      Nat.add_sub_cancel_left, List.take_succ_cons, List.map_take]
  have hmade := isDir_dropLast_makeDirs hdir hfree
  have hnot : (t.run ((parents p).map .makeDir)).isDir p = false := by
    rcases node_makeDirs t (parents p) p with hsame | ⟨hmem, -⟩
    · rw [isDir, hsame]
      exact hdir
    · exact absurd hmem (notMem_parents p)
  have hcreated : ((t.run ((parents p).map .makeDir)).apply (.create p)).node p =
      some (.file []) := node_set_self hmade hnot
  rw [htake, run_append]
  exact read_of_file (node_appends hcreated)

end FileTree

end MonadServices
