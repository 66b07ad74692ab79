import Mathlib.Logic.Function.Basic
import Mathlib.Data.List.Infix
import Mathlib.Tactic

/-!
# Values that are published by renaming

A writer that is to put a value under a name creates a file of its own first, under a temporary
name that no file has. It appends the value to this file piece by piece, and renames the file when
all of it is there. When an operation fails, the file is removed, if that can be done; a writer
that is gone leaves the file behind.

Many writers may be at work, and their operations interleave in any order. Whoever looks under a
name that is not temporary finds **a whole value**: the one that has been renamed last, or what was
there before (`MonadServices.Publishing.files_run`). What a writer has published is the beginning
of what it was to write, and all of it if it has not failed
(`MonadServices.Publishing.outcome_run`).
-/

namespace MonadServices

/-- A value to be put under a name, in the pieces in which it is taken. -/
structure NamedWrite (ν β : Type) where
  name : ν
  pieces : List (List β)

/-- The value. -/
def NamedWrite.data {ν β : Type} (w : NamedWrite ν β) : List β := w.pieces.flatten

/-- How far a writer is, and what it is to write after that. -/
inductive Writer (ν β : Type) where
  | preparing (writes : List (NamedWrite ν β))
  /-- It is to create a file. -/
  | naming (w : NamedWrite ν β) (rest : List (NamedWrite ν β))
  /-- It has created a file. -/
  | created (temp : ν) (w : NamedWrite ν β) (rest : List (NamedWrite ν β))
  /-- It has opened the file and is to append some pieces. -/
  | writing (temp : ν) (w : NamedWrite ν β) (todo : List (List β)) (rest : List (NamedWrite ν β))
  /-- An operation has failed, and the file is to be removed. -/
  | cleaning (temp : ν)
  | done
  | failed
  | gone

/-- An operation of a writer. -/
inductive WriterOp (ν : Type) where
  | prepare
  /-- A file is created under a temporary name, unless there is one. -/
  | create (temp : ν)
  | openFile
  | append
  | rename
  | fail
  /-- The file is removed, or this fails too. -/
  | clean (removed : Bool)

/-- Files by their names, and the writers. -/
structure Publishing (ν β ι : Type) where
  files : ν → Option (List β)
  writer : ι → Writer ν β

/-- What happens: an operation of a writer, or some writers are gone. -/
inductive PublishingEvent (ν ι : Type) where
  | op (i : ι) (op : WriterOp ν)
  | crash (lost : ι → Bool)

variable {ν β ι : Type}

/-- **One operation of a writer**; `none` when it is at another. -/
def Writer.step [DecidableEq ν] (files : ν → Option (List β)) :
    Writer ν β → WriterOp ν → Option ((ν → Option (List β)) × Writer ν β)
  | .preparing [], .prepare => some (files, .done)
  | .preparing (w :: rest), .prepare => some (files, .naming w rest)
  | .naming w rest, .create temp =>
    if files temp = none then some (Function.update files temp (some []), .created temp w rest)
    else some (files, .naming w rest)
  | .created temp w rest, .openFile =>
    some (Function.update files temp (some []), .writing temp w w.pieces rest)
  | .writing temp w (piece :: todo) rest, .append =>
    some (Function.update files temp ((files temp).map fun data => data ++ piece),
      .writing temp w todo rest)
  | .writing temp w [] rest, .rename =>
    some (Function.update (Function.update files w.name (files temp)) temp none, .preparing rest)
  | .preparing (_ :: _), .fail => some (files, .failed)
  | .naming _ _, .fail => some (files, .failed)
  | .created temp _ _, .fail => some (files, .cleaning temp)
  | .writing temp _ _ _, .fail => some (files, .cleaning temp)
  | .cleaning temp, .clean removed =>
    some (if removed then Function.update files temp none else files, .failed)
  | _, _ => none

/-- The value that an operation publishes. -/
def Writer.publishes : Writer ν β → WriterOp ν → Option (NamedWrite ν β)
  | .writing _ w [] _, .rename => some w
  | _, _ => none

/-- A writer that is lost, unless it has ended. -/
def Writer.lose : Writer ν β → Writer ν β
  | .done => .done
  | .failed => .failed
  | _ => .gone

namespace Publishing

variable [DecidableEq ν] [DecidableEq ι]

/-- **One step.** -/
def step (s : Publishing ν β ι) : PublishingEvent ν ι → Option (Publishing ν β ι)
  | .op i op => ((s.writer i).step s.files op).map fun (files, w) =>
      ⟨files, Function.update s.writer i w⟩
  | .crash lost =>
    some ⟨s.files, fun i => if lost i then (s.writer i).lose else s.writer i⟩

/-- What a step publishes. -/
def publishes (s : Publishing ν β ι) : PublishingEvent ν ι → List (ι × NamedWrite ν β)
  | .op i op => (((s.writer i).publishes op).map fun w => (i, w)).toList
  | .crash _ => []

/-- What some events lead to. -/
def run (s : Publishing ν β ι) (events : List (PublishingEvent ν ι)) :
    Option (Publishing ν β ι) :=
  events.foldlM step s

/-- What is published on the way. -/
def published : Publishing ν β ι → List (PublishingEvent ν ι) → List (ι × NamedWrite ν β)
  | _, [] => []
  | s, e :: events => s.publishes e ++
    match s.step e with
    | some s' => published s' events
    | none => []

end Publishing

/-! ### What one operation does -/

/-- The temporary file of a writer. -/
def Writer.temp : Writer ν β → Option ν
  | .created temp _ _ => some temp
  | .writing temp _ _ _ => some temp
  | .cleaning temp => some temp
  | _ => none

/-- What a writer is still to publish. -/
def Writer.writes : Writer ν β → List (NamedWrite ν β)
  | .preparing writes => writes
  | .naming w rest => w :: rest
  | .created _ w rest => w :: rest
  | .writing _ w _ rest => w :: rest
  | _ => []

/-- The pieces before those that are still to be appended are in the file. -/
def Writer.Written (files : ν → Option (List β)) : Writer ν β → Prop
  | .writing temp w todo _ => ∃ done, done ++ todo = w.pieces ∧ files temp = some done.flatten
  | _ => True

/-- **What an operation may change**: the file of the writer, and what it publishes. -/
structure Writer.Effect (files : ν → Option (List β)) (w : Writer ν β) (op : WriterOp ν)
    (files' : ν → Option (List β)) (w' : Writer ν β) : Prop where
  temp : ∀ t, w'.temp = some t → w.temp = some t ∨ files t = none ∧ op = .create t
  there : ∀ t, w'.temp = some t → files' t ≠ none
  frame : ∀ n, w.temp ≠ some n → w'.temp ≠ some n →
    (∀ x, w.publishes op = some x → x.name ≠ n) → files' n = files n
  written : w'.Written files'
  publishes : ∀ x, w.publishes op = some x → files' x.name = some x.data
  writes : ∀ x, x ∈ w'.writes ∨ w.publishes op = some x → x ∈ w.writes

/-- What has been written is where it was, as long as the file of the writer is as it was. -/
theorem Writer.Written.congr {files files' : ν → Option (List β)} {w : Writer ν β}
    (h : w.Written files) (hfiles : ∀ t, w.temp = some t → files' t = files t) :
    w.Written files' := by
  cases w with
  | writing temp x todo rest =>
    obtain ⟨done, hdone, hfile⟩ := h
    exact ⟨done, hdone, (hfiles temp rfl).trans hfile⟩
  | _ => trivial

section Effect

variable [DecidableEq ν] {files files' : ν → Option (List β)} {w w' : Writer ν β}
  {op : WriterOp ν} {isTemp : ν → Prop}

omit [DecidableEq ν] in
/-- An operation that changes no file and gives none up. -/
theorem Writer.effect_of_eq (htemp : ∀ t, w'.temp = some t → w.temp = some t)
    (hthere : ∀ t, w.temp = some t → files t ≠ none) (hwritten : w'.Written files)
    (hpublishes : w.publishes op = none) (hwrites : ∀ x ∈ w'.writes, x ∈ w.writes) :
    Writer.Effect files w op files w' where
  temp := fun t ht => .inl (htemp t ht)
  there := fun t ht => hthere t (htemp t ht)
  frame := fun _ _ _ _ => rfl
  written := hwritten
  publishes := fun x hx => (by rw [hpublishes] at hx; cases hx)
  writes := fun x hx => hx.elim (hwrites x) fun hx => (by rw [hpublishes] at hx; cases hx)

/-- An operation that changes the file of the writer. -/
theorem Writer.effect_of_update {t : ν} {data : List β} (htemp : w'.temp = some t)
    (hbefore : w.temp = some t ∨ files t = none ∧ op = .create t)
    (hwritten : w'.Written (Function.update files t (some data)))
    (hpublishes : w.publishes op = none) (hwrites : ∀ x ∈ w'.writes, x ∈ w.writes) :
    Writer.Effect files w op (Function.update files t (some data)) w' where
  temp := by
    intro t' ht'
    obtain rfl : t = t' := Option.some.inj (htemp.symm.trans ht')
    exact hbefore
  there := by
    intro t' ht'
    obtain rfl : t = t' := Option.some.inj (htemp.symm.trans ht')
    rw [Function.update_self]
    exact Option.some_ne_none data
  frame := by
    intro n _ hn _
    refine Function.update_of_ne ?_ _ _
    rintro rfl
    exact hn htemp
  written := hwritten
  publishes := fun x hx => (by rw [hpublishes] at hx; cases hx)
  writes := fun x hx => hx.elim (hwrites x) fun hx => (by rw [hpublishes] at hx; cases hx)

/-- **One operation**, of a writer whose file holds what it has written. -/
theorem Writer.effect_step (h : w.step files op = some (files', w')) (hwritten : w.Written files)
    (howned : ∀ t, w.temp = some t → isTemp t ∧ files t ≠ none)
    (hnames : ∀ x ∈ w.writes, ¬isTemp x.name) : Writer.Effect files w op files' w' := by
  have hthere := fun t ht => (howned t ht).2
  cases w with
  | preparing writes =>
    cases writes with
    | nil =>
      cases op <;> cases h
      exact effect_of_eq (fun _ ht => (by cases ht)) hthere trivial rfl fun _ hx => hx
    | cons x rest =>
      cases op <;> cases h
      · exact effect_of_eq (fun _ ht => (by cases ht)) hthere trivial rfl fun _ hx => hx
      · exact effect_of_eq (fun _ ht => (by cases ht)) hthere trivial rfl fun _ hx => (by cases hx)
  | naming x rest =>
    cases op with
    | create temp =>
      simp only [Writer.step] at h
      split at h <;> rename_i hfree <;> cases h
      -- The file is created, or another one has this name.
      · exact effect_of_update rfl (.inr ⟨hfree, rfl⟩) trivial rfl fun _ hx => hx
      · exact effect_of_eq (fun _ ht => (by cases ht)) hthere trivial rfl fun _ hx => hx
    | fail =>
      cases h
      exact effect_of_eq (fun _ ht => (by cases ht)) hthere trivial rfl fun _ hx => (by cases hx)
    | _ => cases h
  | created temp x rest =>
    cases op <;> cases h
    · exact effect_of_update rfl (.inl rfl) ⟨[], rfl, Function.update_self ..⟩ rfl fun _ hx => hx
    · exact effect_of_eq (fun _ ht => ht) hthere trivial rfl fun _ hx => (by cases hx)
  | writing temp x todo rest =>
    obtain ⟨done, hdone, hfile⟩ := hwritten
    cases todo with
    | nil =>
      cases op <;> cases h
      · -- The file is renamed.
        rw [List.append_nil] at hdone
        have hne : x.name ≠ temp := by
          rintro heq
          exact hnames x List.mem_cons_self (heq ▸ (howned temp rfl).1)
        refine ⟨fun _ ht => (by cases ht), fun _ ht => (by cases ht), fun n hn _ hx => ?_, trivial,
          fun y hy => ?_, fun y hy => ?_⟩
        · have hn' : n ≠ temp := fun heq => hn (congrArg some heq.symm)
          rw [Function.update_of_ne hn', Function.update_of_ne (hx x rfl).symm]
        · cases hy
          rw [Function.update_of_ne hne, Function.update_self, hfile, hdone]
          rfl
        · obtain hy | hy := hy
          · exact List.mem_cons_of_mem x hy
          · cases hy
            exact List.mem_cons_self
      · exact effect_of_eq (fun _ ht => ht) hthere trivial rfl fun _ hx => (by cases hx)
    | cons piece todo =>
      cases op <;> cases h
      · rw [hfile]
        refine effect_of_update rfl (.inl rfl) ⟨done ++ [piece], ?_, ?_⟩ rfl fun _ hx => hx
        · rw [List.append_assoc, List.singleton_append, hdone]
        · rw [Function.update_self, List.flatten_append, List.flatten_singleton]
      · exact effect_of_eq (fun _ ht => ht) hthere trivial rfl fun _ hx => (by cases hx)
  | cleaning temp =>
    cases op with
    | clean removed =>
      cases h
      refine ⟨fun _ ht => (by cases ht), fun _ ht => (by cases ht), fun n hn _ _ => ?_, trivial,
        fun _ hx => (by cases hx), fun _ hx => hx.elim (fun hx => by cases hx)
          fun hx => (by cases hx)⟩
      have hn' : n ≠ temp := fun heq => hn (congrArg some heq.symm)
      cases removed with
      | true => exact Function.update_of_ne hn' _ _
      | false => rfl
    | _ => cases h
  | done | failed | gone => cases op <;> cases h

end Effect

/-! ### What a writer publishes -/

/-- **What a writer has published** of what it was to write. -/
def Writer.Outcome (writes published : List (NamedWrite ν β)) : Writer ν β → Prop
  | .done => published = writes
  | .failed => ∃ w rest, published ++ w :: rest = writes
  | .cleaning _ => ∃ w rest, published ++ w :: rest = writes
  | .gone => published <+: writes
  | .preparing todo => published ++ todo = writes
  | .naming w rest => published ++ w :: rest = writes
  | .created _ w rest => published ++ w :: rest = writes
  | .writing _ w _ rest => published ++ w :: rest = writes

section Outcome

variable {writes published : List (NamedWrite ν β)} {w w' : Writer ν β}

theorem Writer.Outcome.beginning (h : w.Outcome writes published) : published <+: writes := by
  cases w with
  | preparing todo => exact ⟨todo, h⟩
  | naming x rest => exact ⟨x :: rest, h⟩
  | created temp x rest => exact ⟨x :: rest, h⟩
  | writing temp x todo rest => exact ⟨x :: rest, h⟩
  | cleaning temp | failed =>
    obtain ⟨x, rest, h⟩ := h
    exact ⟨x :: rest, h⟩
  | done => exact ⟨[], by rw [List.append_nil]; exact h⟩
  | gone => exact h

theorem Writer.Outcome.lose (h : w.Outcome writes published) :
    w.lose.Outcome writes published := by
  cases w with
  | done | failed => exact h
  | preparing _ | naming _ _ | created _ _ _ | writing _ _ _ _ | cleaning _ | gone =>
    exact h.beginning

/-- An operation publishes the next value, or none. -/
theorem Writer.Outcome.step [DecidableEq ν] {files files' : ν → Option (List β)}
    {op : WriterOp ν} (h : w.Outcome writes published)
    (hstep : w.step files op = some (files', w')) :
    w'.Outcome writes (published ++ (w.publishes op).toList) := by
  cases w with
  | preparing todo =>
    cases todo with
    | nil =>
      cases op <;> cases hstep
      exact (List.append_nil _).trans ((List.append_nil _).symm.trans h)
    | cons x rest =>
      cases op <;> cases hstep
      · exact (congrArg (· ++ x :: rest) (List.append_nil published)).trans h
      · exact ⟨x, rest, (congrArg (· ++ x :: rest) (List.append_nil published)).trans h⟩
  | naming x rest =>
    have hkept : (published ++ []) ++ x :: rest = writes := by rw [List.append_nil]; exact h
    cases op with
    | create temp =>
      simp only [Writer.step] at hstep
      split at hstep <;> cases hstep <;> exact hkept
    | fail =>
      cases hstep
      exact ⟨x, rest, hkept⟩
    | _ => cases hstep
  | created temp x rest =>
    have hkept : (published ++ []) ++ x :: rest = writes := by rw [List.append_nil]; exact h
    cases op <;> cases hstep
    · exact hkept
    · exact ⟨x, rest, hkept⟩
  | writing temp x todo rest =>
    have hkept : (published ++ []) ++ x :: rest = writes := by rw [List.append_nil]; exact h
    cases todo with
    | nil =>
      cases op <;> cases hstep
      · -- The file is renamed.
        exact (List.append_assoc published [x] rest).trans h
      · exact ⟨x, rest, hkept⟩
    | cons piece todo =>
      cases op <;> cases hstep
      · exact hkept
      · exact ⟨x, rest, hkept⟩
  | cleaning temp =>
    obtain ⟨x, rest, h⟩ := h
    cases op with
    | clean removed =>
      cases hstep
      exact ⟨x, rest, by
        change (published ++ []) ++ x :: rest = writes
        rw [List.append_nil, h]⟩
    | _ => cases hstep
  | done | failed | gone => cases op <;> cases hstep

end Outcome

namespace Publishing

/-! ### Files that belong to a writer -/

section Invariant

variable {isTemp : ν → Prop}

/-- **Every temporary file belongs to one writer**, and holds what that has written. -/
structure Inv (isTemp : ν → Prop) (s : Publishing ν β ι) : Prop where
  owned : ∀ i temp, (s.writer i).temp = some temp → isTemp temp ∧ s.files temp ≠ none
  distinct : ∀ i j temp, (s.writer i).temp = some temp → (s.writer j).temp = some temp → i = j
  written : ∀ i, (s.writer i).Written s.files
  names : ∀ i, ∀ w ∈ (s.writer i).writes, ¬isTemp w.name

/-- Only temporary names are tried. -/
def Tries (isTemp : ν → Prop) : PublishingEvent ν ι → Prop
  | .op _ (.create temp) => isTemp temp
  | _ => True

/-- A system in which no writer has begun. -/
theorem inv_start {files : ν → Option (List β)} {writes : ι → List (NamedWrite ν β)}
    (h : ∀ i, ∀ w ∈ writes i, ¬isTemp w.name) :
    Inv isTemp ⟨files, fun i => .preparing (writes i)⟩ where
  owned := fun _ _ h => (by cases h)
  distinct := fun _ _ _ h => (by cases h)
  written := fun _ => trivial
  names := h

/-- A writer that is lost has no file, and nothing to write. -/
theorem lose_temp (w : Writer ν β) : w.lose.temp = none ∧ w.lose.writes = [] := by
  cases w <;> exact ⟨rfl, rfl⟩

theorem lose_written (files : ν → Option (List β)) (w : Writer ν β) : w.lose.Written files := by
  cases w <;> trivial

section Put

variable [DecidableEq ν]

/-- The values that have been put, one after the other. -/
def put (files : ν → Option (List β)) (puts : List (ι × NamedWrite ν β)) : ν → Option (List β) :=
  puts.foldl (fun files x => Function.update files x.2.name (some x.2.data)) files

/-- What is published goes to where it is to be found. -/
theorem put_congr {files files' : ν → Option (List β)} (puts : List (ι × NamedWrite ν β)) {n : ν}
    (h : files n = files' n) : put files puts n = put files' puts n := by
  induction puts generalizing files files' with
  | nil => exact h
  | cons x puts ih =>
    refine ih ?_
    dsimp only
    rcases eq_or_ne n x.2.name with rfl | hne
    · rw [Function.update_self, Function.update_self]
    · rw [Function.update_of_ne hne, Function.update_of_ne hne, h]

end Put

variable {s s' : Publishing ν β ι}

/-- Writers that are lost have no files. -/
theorem Inv.lose (h : Inv isTemp s) (lost : ι → Bool) :
    Inv isTemp ⟨s.files, fun i => if lost i then (s.writer i).lose else s.writer i⟩ := by
  refine ⟨fun i temp ht => ?_, fun i j temp hi hj => ?_, fun i => ?_, fun i w hw => ?_⟩
  · dsimp only at ht
    split at ht
    · rw [(lose_temp _).1] at ht
      cases ht
    · exact h.owned i temp ht
  · dsimp only at hi hj
    split at hi
    · rw [(lose_temp _).1] at hi
      cases hi
    · split at hj
      · rw [(lose_temp _).1] at hj
        cases hj
      · exact h.distinct i j temp hi hj
  · dsimp only
    split
    · exact lose_written _ _
    · exact h.written i
  · dsimp only at hw
    split at hw
    · rw [(lose_temp _).2] at hw
      cases hw
    · exact h.names i w hw

section Operation

variable {i : ι} {op : WriterOp ν} {files' : ν → Option (List β)} {w' : Writer ν β}

/-- A temporary file that a writer has after an operation is no one else's. -/
theorem Inv.own (h : Inv isTemp s) (htries : Tries isTemp (.op i op))
    (heffect : Writer.Effect s.files (s.writer i) op files' w') {t : ν} (ht : w'.temp = some t) :
    isTemp t ∧ ∀ j, (s.writer j).temp = some t → j = i := by
  obtain hold | ⟨hfree, rfl⟩ := heffect.temp t ht
  · exact ⟨(h.owned i t hold).1, fun j hj => h.distinct j i t hj hold⟩
  · exact ⟨htries, fun j hj => absurd hfree (h.owned j t hj).2⟩

/-- The files of the other writers are left alone. -/
theorem Inv.others (h : Inv isTemp s) (htries : Tries isTemp (.op i op))
    (heffect : Writer.Effect s.files (s.writer i) op files' w') {j : ι} (hj : j ≠ i) {t : ν}
    (ht : (s.writer j).temp = some t) : files' t = s.files t := by
  refine heffect.frame t (fun hi => hj (h.distinct j i t ht hi))
    (fun hi => hj ((h.own htries heffect hi).2 j ht)) fun x hx hname => ?_
  exact h.names i x (heffect.writes x (.inr hx)) (hname ▸ (h.owned j t ht).1)

/-- What an operation does to the other files is to publish a value. -/
theorem Inv.files_op [DecidableEq ν] (h : Inv isTemp s) (htries : Tries isTemp (.op i op))
    (heffect : Writer.Effect s.files (s.writer i) op files' w') {n : ν} (hn : ¬isTemp n) :
    files' n = put s.files (s.publishes (.op i op)) n := by
  have hframe := heffect.frame n (fun hi => hn (h.owned i n hi).1)
    (fun hi => hn (h.own htries heffect hi).1)
  change files' n = put s.files (((s.writer i).publishes op).map fun w => (i, w)).toList n
  cases hpublishes : (s.writer i).publishes op with
  | none => exact hframe fun x hx => (by rw [hpublishes] at hx; cases hx)
  | some x =>
    change files' n = Function.update s.files x.name (some x.data) n
    rcases eq_or_ne n x.name with rfl | hne
    · rw [Function.update_self, heffect.publishes x hpublishes]
    · rw [Function.update_of_ne hne]
      refine hframe fun y hy => ?_
      obtain rfl : x = y := Option.some.inj (hpublishes.symm.trans hy)
      exact hne.symm

/-- **An operation keeps what is known of the temporary files.** -/
theorem Inv.operation [DecidableEq ι] (h : Inv isTemp s) (htries : Tries isTemp (.op i op))
    (heffect : Writer.Effect s.files (s.writer i) op files' w') :
    Inv isTemp ⟨files', Function.update s.writer i w'⟩ := by
  refine ⟨fun j t ht => ?_, fun j k t hj hk => ?_, fun j => ?_, fun j x hx => ?_⟩
  · rcases eq_or_ne j i with rfl | hne
    · simp only [Function.update_self] at ht
      exact ⟨(h.own htries heffect ht).1, heffect.there t ht⟩
    · simp only [Function.update_of_ne hne] at ht
      obtain ⟨htemp, hthere⟩ := h.owned j t ht
      rw [← h.others htries heffect hne ht] at hthere
      exact ⟨htemp, hthere⟩
  · rcases eq_or_ne j i with rfl | hji
    -- If one of the two is the writer, the other one has no claim to its file.
    · rcases eq_or_ne k j with rfl | hkj
      · rfl
      · simp only [Function.update_self] at hj
        simp only [Function.update_of_ne hkj] at hk
        exact ((h.own htries heffect hj).2 k hk).symm
    · simp only [Function.update_of_ne hji] at hj
      rcases eq_or_ne k i with rfl | hki
      · simp only [Function.update_self] at hk
        exact (h.own htries heffect hk).2 j hj
      · simp only [Function.update_of_ne hki] at hk
        exact h.distinct j k t hj hk
  · rcases eq_or_ne j i with rfl | hne
    · simp only [Function.update_self]
      exact heffect.written
    · simp only [Function.update_of_ne hne]
      exact (h.written j).congr fun t ht => h.others htries heffect hne ht
  · rcases eq_or_ne j i with rfl | hne
    · simp only [Function.update_self] at hx
      exact h.names j x (heffect.writes x (.inl hx))
    · simp only [Function.update_of_ne hne] at hx
      exact h.names j x hx

end Operation

variable [DecidableEq ν] [DecidableEq ι] {e : PublishingEvent ν ι}

/-- **One step**: what is known of the temporary files is kept, and what is to be found under the
other names is what was there, or what has just been published. -/
theorem Inv.step (h : Inv isTemp s) (htries : Tries isTemp e) (hstep : s.step e = some s') :
    Inv isTemp s' ∧ ∀ n, ¬isTemp n → s'.files n = put s.files (s.publishes e) n := by
  cases e with
  | crash lost =>
    cases hstep
    exact ⟨h.lose lost, fun _ _ => rfl⟩
  | op i op =>
    obtain ⟨⟨files', w'⟩, hw, rfl⟩ := Option.map_eq_some_iff.mp hstep
    have heffect := Writer.effect_step hw (h.written i) (h.owned i) (h.names i)
    exact ⟨h.operation htries heffect, fun n hn => h.files_op htries heffect hn⟩

/-- What a step does to the outcome of a writer. -/
theorem outcome_step {writes published : List (NamedWrite ν β)} {i : ι}
    (h : (s.writer i).Outcome writes published) (hstep : s.step e = some s') :
    (s'.writer i).Outcome writes
      (published ++ ((s.publishes e).filter fun x => x.1 = i).map Prod.snd) := by
  cases e with
  | crash lost =>
    cases hstep
    change (if lost i then (s.writer i).lose else s.writer i).Outcome writes (published ++ [])
    rw [List.append_nil]
    split
    · exact h.lose
    · exact h
  | op j op =>
    obtain ⟨⟨files', w'⟩, hw, heq⟩ := Option.map_eq_some_iff.mp hstep
    subst heq
    rcases eq_or_ne i j with rfl | hne
    · have hpublished : (((((s.writer i).publishes op).map fun w => (i, w)).toList).filter
          fun x => x.1 = i).map Prod.snd = ((s.writer i).publishes op).toList := by
        cases (s.writer i).publishes op <;> simp
      rw [Publishing.publishes, hpublished]
      simp only [Function.update_self]
      exact h.step hw
    · have hpublished : (((((s.writer j).publishes op).map fun w => (j, w)).toList).filter
          fun x => x.1 = i).map Prod.snd = [] := by
        cases (s.writer j).publishes op <;> simp [hne.symm]
      rw [Publishing.publishes, hpublished, List.append_nil]
      simp only [Function.update_of_ne hne]
      exact h

/-! ### Runs -/

variable {events : List (PublishingEvent ν ι)}

/-- **Every name that is not temporary has a whole value**: the one that has been published last,
or what was there before. -/
theorem files_run (h : Inv isTemp s) (htries : ∀ e ∈ events, Tries isTemp e)
    (hrun : s.run events = some s') :
    Inv isTemp s' ∧ ∀ n, ¬isTemp n → s'.files n = put s.files (s.published events) n := by
  induction events generalizing s with
  | nil =>
    cases hrun
    exact ⟨h, fun _ _ => rfl⟩
  | cons e events ih =>
    rw [run, List.foldlM_cons] at hrun
    obtain ⟨t, hstep, hrest⟩ := Option.bind_eq_some_iff.mp hrun
    obtain ⟨ht, hfiles⟩ := h.step (htries e List.mem_cons_self) hstep
    obtain ⟨hs', hfiles'⟩ := ih ht (fun e he => htries e (List.mem_cons_of_mem _ he)) hrest
    refine ⟨hs', fun n hn => ?_⟩
    rw [hfiles' n hn, published, hstep, put, put, List.foldl_append]
    exact put_congr _ (hfiles n hn)

/-- **What a writer has published is the beginning of what it was to write.** -/
theorem outcome_run {writes published : List (NamedWrite ν β)} {i : ι}
    (h : (s.writer i).Outcome writes published) (hrun : s.run events = some s') :
    (s'.writer i).Outcome writes
      (published ++ ((s.published events).filter fun x => x.1 = i).map Prod.snd) := by
  induction events generalizing s published with
  | nil =>
    cases hrun
    rw [Publishing.published, List.filter_nil, List.map_nil, List.append_nil]
    exact h
  | cons e events ih =>
    rw [run, List.foldlM_cons] at hrun
    obtain ⟨t, hstep, hrest⟩ := Option.bind_eq_some_iff.mp hrun
    have hnext := ih (outcome_step h hstep) hrest
    rw [Publishing.published, hstep, List.filter_append, List.map_append, ← List.append_assoc]
    exact hnext

end Invariant

end Publishing

end MonadServices
