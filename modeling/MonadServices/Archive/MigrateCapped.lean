import Mathlib.Data.List.Sort
import Mathlib.Data.List.Nodup
import Mathlib.Data.List.Perm.Basic
import Mathlib.Order.Basic

/-!
# Making a capped collection uncapped

The migration renames the capped collection away, creates an uncapped one under the old name,
copies the documents in batches of ascending `_id` and drops the renamed collection. A document
in a collection of its own says which phase is reached, so that a run that is interrupted can be
taken up by the next one.

Every operation on the database is one step here, and between two of them the run may stop, be
it by a crash or by an error that it returns. **A run that stops between the creation of the
new collection and the note of it loses every document to the target**
(`MonadServices.Archive.MigrateCapped.stop_after_create_loses`): the next run sees a collection
that is not capped and takes the work for done. When no run stops there, and the `_id`s are all
of one kind, a run that ends well leaves every document in the target, once
(`MonadServices.Archive.MigrateCapped.perm_of_returned`).
-/

namespace MonadServices

namespace Archive

namespace MigrateCapped

variable {Id Body : Type}

/-! ### The database -/

/-- A collection, in its natural order. The index of `_id` keeps them apart. -/
structure Coll (Id Body : Type) where
  capped : Bool
  docs : List (Id × Body)
  unique : (docs.map Prod.fst).Nodup

/-- What `create_collection` makes. -/
def Coll.empty : Coll Id Body := ⟨false, [], List.nodup_nil⟩

/-- How `$merge` writes a document: one whose `_id` is there is kept, another one is inserted. -/
def Coll.keepExisting [DecidableEq Id] (c : Coll Id Body) (x : Id × Body) : Coll Id Body :=
  if h : x.1 ∈ c.docs.map Prod.fst then c
  else ⟨c.capped, c.docs ++ [x], by
    rw [List.map_append]
    exact c.unique.append (List.nodup_singleton _)
      fun _ ha hb => h (List.mem_singleton.mp hb ▸ ha)⟩

/-- The phases, in their order. -/
inductive Phase where
  | diskCheck
  | renamed
  | copying
  | dropping
  | done
  deriving DecidableEq, Repr

/-- The state document. -/
structure MetaDoc (Id : Type) where
  phase : Phase
  /-- The most recent `_id` that was copied. -/
  lastId : Option Id
  deriving DecidableEq

/-- The state before anything is done. -/
def MetaDoc.new : MetaDoc Id := ⟨.diskCheck, none⟩

/-- What the migration reads and writes: the collection under its name, the one that is renamed,
and the state document. -/
structure Db (Id Body : Type) where
  target : Option (Coll Id Body)
  source : Option (Coll Id Body)
  state : Option (MetaDoc Id)

/-- The state that a run starts from. -/
def Db.stored (db : Db Id Body) : MetaDoc Id := db.state.getD .new

/-- The document is added or replaced. -/
def Db.upsert (db : Db Id Body) (s : MetaDoc Id) : Db Id Body := { db with state := some s }

/-- What a server says when it is asked for the statistics of a collection it does not have. -/
inductive Missing where
  | error
  | zeros
  deriving DecidableEq, Repr

/-- The part of `collStats` that is used: whether the collection is capped. No answer is an
error. -/
def collStats (missing : Missing) : Option (Coll Id Body) → Option Bool
  | some c => some c.capped
  | none =>
    match missing with
    | .error => none
    | .zeros => some false

/-! ### Comparing `_id`s

`$gt` and `$lte` only match values of the type of what they compare with; `kind` is that type.
Sorting has an order over all types. -/

section Compare

variable [LinearOrder Id] (kind : Id → ℕ)

/-- `{ "$gt": last }`; there is no such filter at the beginning. -/
def gt (last : Option Id) (id : Id) : Bool :=
  match last with
  | none => true
  | some l => kind id = kind l ∧ l < id

/-- `{ "$lte": endId }`. -/
def lte (endId id : Id) : Bool :=
  kind id = kind endId ∧ id ≤ endId

/-- The `limit` of a query: none if it is 0. -/
def limited {α : Type} (batch : ℕ) (l : List α) : List α :=
  if batch = 0 then l else l.take batch

/-- **The next `_id`s after the last one**, in ascending order. -/
def nextIds (batch : ℕ) (last : Option Id) (source : Option (Coll Id Body)) : List Id :=
  match source with
  | none => []
  | some c =>
    limited batch (((c.docs.map Prod.fst).filter (gt kind last)).insertionSort (· ≤ ·))

/-- The documents that the pipeline matches. -/
def window (last : Option Id) (endId : Id) (source : Option (Coll Id Body)) :
    List (Id × Body) :=
  match source with
  | none => []
  | some c => c.docs.filter fun x => gt kind last x.1 && lte kind endId x.1

/-! ### The migration -/

/-- Where a run is, with the state it holds in memory. -/
inductive Pc (Id Body : Type) where
  /-- No run is under way. -/
  | idle
  /-- At the head of the loop. -/
  | loop (s : MetaDoc Id)
  /-- The disk check passed. -/
  | checked (s : MetaDoc Id)
  /-- The collection was found not to be capped. -/
  | alreadyUncapped
  /-- The collection was found to be capped. -/
  | capped (s : MetaDoc Id)
  /-- The collection was renamed. -/
  | renamed (s : MetaDoc Id)
  /-- The new collection was created, its indexes may have been. -/
  | created (s : MetaDoc Id)
  /-- The server is at a batch; the documents that are still to be merged. -/
  | merging (s : MetaDoc Id) (endId : Id) (rest : List (Id × Body))
  /-- There was no further document. -/
  | copied (s : MetaDoc Id)
  /-- The counts were compared. -/
  | counted
  /-- The renamed collection was dropped. -/
  | dropped
  /-- The run returned `Ok`. -/
  | returned

variable (batch : ℕ) (missing : Missing)

/-- **The next operation on the database** of a run that goes on. The disk check only reads: it
passes here, or the run stops. The copying of the indexes touches no document and is part of
the step that follows the creation. -/
def next (db : Db Id Body) : Pc Id Body → Db Id Body × Pc Id Body
  | .idle => (db, .idle)
  | .loop s =>
    match s.phase with
    | .diskCheck => (db, .checked s)
    | .renamed =>
      match collStats missing db.target with
      | none => (db, .idle)
      | some false => (db, .alreadyUncapped)
      | some true => (db, .capped s)
    | .copying =>
      match (nextIds kind batch s.lastId db.source).getLast? with
      | none => (db, .copied s)
      | some endId => (db, .merging s endId (window kind s.lastId endId db.source))
    | .dropping =>
      match collStats missing db.source, collStats missing db.target with
      | some _, some _ => (db, .counted)
      | _, _ => (db, .idle)
    | .done => (db, .returned)
  | .checked s =>
    let s := { s with phase := .renamed }
    (db.upsert s, .loop s)
  | .alreadyUncapped => ({ db with state := none }, .returned)
  -- What was there under the name that the collection gets is dropped.
  | .capped s => ({ db with target := none, source := db.target }, .renamed s)
  | .renamed s =>
    match db.target with
    | none => ({ db with target := some .empty }, .created s)
    | some _ => (db, .created s)
  | .created s =>
    let s := { s with phase := .copying }
    (db.upsert s, .loop s)
  | .merging s endId (x :: rest) =>
    ({ db with target := some ((db.target.getD .empty).keepExisting x) },
      .merging s endId rest)
  | .merging s endId [] =>
    let s := { s with lastId := some endId }
    (db.upsert s, .loop s)
  | .copied s =>
    let s := { s with phase := .dropping }
    (db.upsert s, .loop s)
  -- Counts that differ are only logged.
  | .counted => ({ db with source := none }, .dropped)
  | .dropped => ({ db with state := none }, .returned)
  | .returned => (db, .returned)

/-- What can happen. -/
inductive Event where
  /-- The program is started, unless it is running. -/
  | start
  /-- The run goes on by one operation. -/
  | next
  /-- The run crashes, or the operation that it is at fails and the run returns the error. -/
  | stop
  deriving DecidableEq, Repr

/-- The database, and where the run is. -/
structure System (Id Body : Type) where
  db : Db Id Body
  pc : Pc Id Body

/-- One event. -/
def step (σ : System Id Body) : Event → System Id Body
  | .start =>
    match σ.pc with
    | .idle | .returned => ⟨σ.db, .loop σ.db.stored⟩
    | _ => σ
  | .next => ⟨(next kind batch missing σ.db σ.pc).1, (next kind batch missing σ.db σ.pc).2⟩
  | .stop => ⟨σ.db, .idle⟩

/-- **Runs of the program one after the other**, each of which may stop anywhere. -/
def run : System Id Body → List Event → System Id Body
  | σ, [] => σ
  | σ, e :: es => run (step kind batch missing σ e) es

/-- Before the first run: there is a collection, and no state document. -/
def fresh (c : Coll Id Body) (source : Option (Coll Id Body)) : System Id Body :=
  ⟨⟨some c, source, none⟩, .idle⟩

/-! ### When nothing is lost -/

/-- Where a run must not stop: the target is there and empty, or not there, and the state
document does not say so. Without a target the next run fails where statistics need a
collection. -/
def Exposed : Pc Id Body → Prop
  | .created _ => True
  | .renamed _ => missing = .zeros
  | _ => False

instance decidableExposed : DecidablePred (Exposed missing : Pc Id Body → Prop)
  | .created _ => .isTrue trivial
  | .renamed _ => inferInstanceAs (Decidable (missing = .zeros))
  | .idle | .loop _ | .checked _ | .alreadyUncapped | .capped _ | .merging _ _ _ | .copied _
  | .counted | .dropped | .returned => .isFalse id

/-- No run stops where it must not. -/
def Calm : System Id Body → List Event → Prop
  | _, [] => True
  | σ, e :: es => (e = .stop → ¬Exposed missing σ.pc) ∧ Calm (step kind batch missing σ e) es

instance decidableCalm : ∀ (events : List Event) (σ : System Id Body),
    Decidable (Calm kind batch missing σ events)
  | [], _ => .isTrue trivial
  | e :: es, σ =>
    haveI := decidableCalm es (step kind batch missing σ e)
    inferInstanceAs (Decidable ((e = .stop → ¬Exposed missing σ.pc) ∧
      Calm kind batch missing (step kind batch missing σ e) es))

/-- The `_id`s can all be compared with each other. -/
def OneKind (c : Coll Id Body) : Prop :=
  ∀ x ∈ c.docs, ∀ y ∈ c.docs, kind x.1 = kind y.1

/-- The target is not capped and has the documents of the collection, each of them once. -/
def Migrated (c : Coll Id Body) (db : Db Id Body) : Prop :=
  ∃ t, db.target = some t ∧ t.capped = false ∧ t.docs.Perm c.docs

/-! ### What the operations do to the documents -/

theorem Coll.mem_keepExisting_self {c t : Coll Id Body} (hsub : ∀ x ∈ t.docs, x ∈ c.docs)
    {x : Id × Body} (hx : x ∈ c.docs) : x ∈ (t.keepExisting x).docs := by
  unfold Coll.keepExisting
  split
  · -- The document that is kept is the one of the source, as its `_id` is.
    next h =>
    obtain ⟨y, hy, hyx⟩ := List.mem_map.mp h
    have : y = x := List.inj_on_of_nodup_map c.unique (hsub y hy) hx hyx
    exact this ▸ hy
  · exact List.mem_append_right _ (List.mem_singleton_self x)

theorem Coll.mem_keepExisting {t : Coll Id Body} {x y : Id × Body} (hy : y ∈ t.docs) :
    y ∈ (t.keepExisting x).docs := by
  unfold Coll.keepExisting
  split
  · exact hy
  · exact List.mem_append_left _ hy

theorem Coll.of_mem_keepExisting {t : Coll Id Body} {x y : Id × Body}
    (hy : y ∈ (t.keepExisting x).docs) : y ∈ t.docs ∨ y = x := by
  unfold Coll.keepExisting at hy
  split at hy
  · exact .inl hy
  · simpa using hy

theorem Coll.keepExisting_capped (t : Coll Id Body) (x : Id × Body) :
    (t.keepExisting x).capped = t.capped := by
  unfold Coll.keepExisting
  split <;> rfl

theorem limited_eq_nil {α : Type} {n : ℕ} {l : List α} (h : limited n l = []) : l = [] := by
  unfold limited at h
  split at h
  · exact h
  · next hn => exact (List.take_eq_nil_iff.mp h).resolve_left hn

theorem mem_of_mem_limited {α : Type} {n : ℕ} {l : List α} {a : α} (h : a ∈ limited n l) :
    a ∈ l := by
  unfold limited at h
  split at h
  · exact h
  · exact List.mem_of_mem_take h

/-- The last `_id` of a batch is one of the source. -/
theorem mem_of_nextIds {c : Coll Id Body} {last : Option Id} {endId : Id}
    (h : (nextIds kind batch last (some c)).getLast? = some endId) :
    endId ∈ c.docs.map Prod.fst := by
  have hmem := mem_of_mem_limited (List.mem_of_getLast? h)
  rw [List.mem_insertionSort] at hmem
  exact List.mem_of_mem_filter hmem

/-- When there is no batch, no `_id` is after the last one. -/
theorem not_gt_of_nextIds {c : Coll Id Body} {last : Option Id}
    (h : (nextIds kind batch last (some c)).getLast? = none) {x : Id × Body}
    (hx : x ∈ c.docs) : gt kind last x.1 = false := by
  have hnil := limited_eq_nil (List.getLast?_eq_none_iff.mp h)
  have hfilter : (c.docs.map Prod.fst).filter (gt kind last) = [] := by
    have hlen := List.length_insertionSort (· ≤ ·) ((c.docs.map Prod.fst).filter (gt kind last))
    rw [hnil, List.length_nil] at hlen
    exact List.eq_nil_of_length_eq_zero hlen.symm
  have hnot := List.filter_eq_nil_iff.mp hfilter x.1 (List.mem_map_of_mem hx)
  exact Bool.eq_false_iff.mpr hnot

/-! ### How far a copy is -/

/-- The target has documents of the source only, and all of them up to the last `_id`. -/
structure Partial (c t : Coll Id Body) (last : Option Id) : Prop where
  uncapped : t.capped = false
  sub : ∀ x ∈ t.docs, x ∈ c.docs
  last_mem : ∀ l, last = some l → l ∈ c.docs.map Prod.fst
  upTo : ∀ l, last = some l → ∀ x ∈ c.docs, x.1 ≤ l → x ∈ t.docs

/-- The new collection is such a copy. -/
theorem Partial.empty (c : Coll Id Body) : Partial c .empty none where
  uncapped := rfl
  sub := fun _ hx => absurd hx List.not_mem_nil
  last_mem := fun _ h => nomatch h
  upTo := fun _ h => nomatch h

variable {kind}

/-- Among `_id`s of one kind, those after the last one are all that is missing. -/
theorem Partial.mem_of_not_gt {c t : Coll Id Body} {last : Option Id} (h : Partial c t last)
    (hkind : OneKind kind c) {x : Id × Body} (hx : x ∈ c.docs)
    (hgt : gt kind last x.1 = false) : x ∈ t.docs := by
  cases last with
  | none => exact absurd hgt (by simp [gt])
  | some l =>
    obtain ⟨y, hy, rfl⟩ := List.mem_map.mp (h.last_mem l rfl)
    have hle : x.1 ≤ y.1 := by
      simpa [gt, hkind x hx y hy] using hgt
    exact h.upTo y.1 rfl x hx hle

/-- A target that has every document of the source has the documents of the source. -/
theorem Partial.perm {c t : Coll Id Body} {last : Option Id} (h : Partial c t last)
    (hall : ∀ x ∈ c.docs, x ∈ t.docs) : t.docs.Perm c.docs :=
  (List.perm_ext_iff_of_nodup (List.Nodup.of_map _ t.unique) (List.Nodup.of_map _ c.unique)).mpr
    fun x => ⟨h.sub x, hall x⟩

/-- Merging a document of the source goes on with the copy. -/
theorem Partial.keepExisting {c t : Coll Id Body} {last : Option Id} (h : Partial c t last)
    {x : Id × Body} (hx : x ∈ c.docs) : Partial c (t.keepExisting x) last where
  uncapped := (t.keepExisting_capped x).trans h.uncapped
  sub := by
    intro y hy
    rcases Coll.of_mem_keepExisting hy with hy | rfl
    · exact h.sub y hy
    · exact hx
  last_mem := h.last_mem
  upTo := fun l hl y hy hle => Coll.mem_keepExisting (h.upTo l hl y hy hle)

/-- What the window of a batch leaves out is there already, or after its end. -/
theorem Partial.mem_or_mem_window {c t : Coll Id Body} {last : Option Id}
    (h : Partial c t last) (hkind : OneKind kind c) {endId : Id}
    (hend : endId ∈ c.docs.map Prod.fst) {x : Id × Body} (hx : x ∈ c.docs) (hle : x.1 ≤ endId) :
    x ∈ t.docs ∨ x ∈ window kind last endId (some c) := by
  rcases hgt : gt kind last x.1 with _ | _
  · exact .inl (h.mem_of_not_gt hkind hx hgt)
  · obtain ⟨y, hy, rfl⟩ := List.mem_map.mp hend
    have hlte : lte kind y.1 x.1 = true := by
      simp [lte, hkind x hx y hy, hle]
    exact .inr (List.mem_filter.mpr ⟨hx, by rw [hgt, hlte]; rfl⟩)

/-! ### The invariant of all runs -/

variable {batch} {missing}

/-- **What the database holds when its state document is `s`**, for a migration that began with
the collection `c`. The target may be gone in the phase of the renaming only, and only where
the next run cannot take that for a collection that is not capped. -/
def Agrees (missing : Missing) (c : Coll Id Body) (db : Db Id Body) (s : MetaDoc Id) : Prop :=
  match s.phase with
  | .diskCheck => s.lastId = none ∧ (db.target = some c ∨ Migrated c db)
  | .renamed =>
    s.lastId = none ∧ (db.target = some c ∨ Migrated c db ∨ missing = .error ∧ db.target = none)
  | .copying =>
    db.source = some c ∧ c.capped = true ∧ ∃ t, db.target = some t ∧ Partial c t s.lastId
  | .dropping => Migrated c db
  | .done => False

/-- The invariant: what the run has done since it loaded the state. -/
def Inv (missing : Missing) (c : Coll Id Body) (σ : System Id Body) : Prop :=
  match σ.pc with
  | .idle => Agrees missing c σ.db σ.db.stored
  | .loop s => s = σ.db.stored ∧ Agrees missing c σ.db s
  | .checked s => s = σ.db.stored ∧ s.phase = .diskCheck ∧ Agrees missing c σ.db s
  | .alreadyUncapped => Migrated c σ.db ∧ Agrees missing c σ.db σ.db.stored
  | .capped s =>
    s = σ.db.stored ∧ s = ⟨.renamed, none⟩ ∧ σ.db.target = some c ∧ c.capped = true
  | .renamed s =>
    s = σ.db.stored ∧ s = ⟨.renamed, none⟩ ∧ σ.db.target = none ∧ σ.db.source = some c ∧
      c.capped = true
  | .created s =>
    s = ⟨.renamed, none⟩ ∧ σ.db.target = some .empty ∧ σ.db.source = some c ∧ c.capped = true
  | .merging s endId rest =>
    s = σ.db.stored ∧ s.phase = .copying ∧ σ.db.source = some c ∧ c.capped = true ∧
      endId ∈ c.docs.map Prod.fst ∧ (∀ x ∈ rest, x ∈ c.docs) ∧
      ∃ t, σ.db.target = some t ∧ Partial c t s.lastId ∧
        ∀ x ∈ c.docs, x.1 ≤ endId → x ∈ t.docs ∨ x ∈ rest
  | .copied s => s = σ.db.stored ∧ Agrees missing c σ.db s ∧ Migrated c σ.db
  | .counted => σ.db.stored.phase = .dropping ∧ Migrated c σ.db
  | .dropped => σ.db.stored.phase = .dropping ∧ Migrated c σ.db
  | .returned => Agrees missing c σ.db σ.db.stored ∧ Migrated c σ.db

theorem Agrees.of_migrated {c : Coll Id Body} {db : Db Id Body} (h : Migrated c db) :
    Agrees missing c { db with state := none } .new := ⟨rfl, .inr h⟩

theorem Agrees.of_dropping {c : Coll Id Body} {db : Db Id Body} {s : MetaDoc Id}
    (hphase : s.phase = .dropping) (h : Migrated c db) : Agrees missing c db s := by
  obtain ⟨phase, lastId⟩ := s
  obtain rfl : phase = .dropping := hphase
  exact h

theorem Agrees.of_copying {c t : Coll Id Body} {db : Db Id Body} {s : MetaDoc Id}
    (hphase : s.phase = .copying) (hsource : db.source = some c) (hcapped : c.capped = true)
    (htarget : db.target = some t) (hcopied : Partial c t s.lastId) :
    Agrees missing c db s := by
  obtain ⟨phase, lastId⟩ := s
  obtain rfl : phase = .copying := hphase
  exact ⟨hsource, hcapped, t, htarget, hcopied⟩

omit [LinearOrder Id] in
/-- A collection that is not capped is migrated as it is. -/
theorem migrated_of_target {c : Coll Id Body} {db : Db Id Body} (h : db.target = some c)
    (hcapped : c.capped = false) : Migrated c db :=
  ⟨c, h, hcapped, List.Perm.refl _⟩

/-- Wherever a run is but in the exposed steps, the state document says how the database is:
the run can stop there. -/
theorem Inv.stop {c : Coll Id Body} {σ : System Id Body} (h : Inv missing c σ)
    (hcalm : ¬Exposed missing σ.pc) : Inv missing c ⟨σ.db, .idle⟩ := by
  obtain ⟨db, pc⟩ := σ
  change Agrees missing c db db.stored
  cases pc with
  | idle => exact h
  | loop s => exact h.1 ▸ h.2
  | checked s => exact h.1 ▸ h.2.2
  | alreadyUncapped => exact h.2
  | capped s =>
    obtain ⟨hs, rfl, htarget, -⟩ := h
    exact hs ▸ ⟨rfl, .inl htarget⟩
  | renamed s =>
    obtain ⟨hs, rfl, htarget, -⟩ := h
    -- The target is gone, but on this server that is an error to the next run.
    have herror : missing = .error := by
      cases missing with
      | error => rfl
      | zeros => exact absurd rfl hcalm
    exact hs ▸ ⟨rfl, .inr (.inr ⟨herror, htarget⟩)⟩
  | created s => exact absurd trivial hcalm
  | merging s endId rest =>
    obtain ⟨hs, hphase, hsource, hcapped, -, -, t, htarget, hcopied, -⟩ := h
    exact hs ▸ .of_copying hphase hsource hcapped htarget hcopied
  | copied s => exact h.1 ▸ h.2.1
  | counted => exact .of_dropping h.1 h.2
  | dropped => exact .of_dropping h.1 h.2
  | returned => exact h.1

/-- The step at the head of the loop. -/
theorem Inv.next_loop {c : Coll Id Body} {db : Db Id Body} {s : MetaDoc Id}
    (hkind : c.capped = true → OneKind kind c) (h : Inv missing c ⟨db, .loop s⟩) :
    Inv missing c ⟨(next kind batch missing db (.loop s)).1,
      (next kind batch missing db (.loop s)).2⟩ := by
  obtain ⟨hs, hagrees⟩ := h
  obtain ⟨phase, lastId⟩ := s
  cases phase with
  | diskCheck => exact ⟨hs, rfl, hagrees⟩
  | renamed =>
    obtain ⟨rfl, htarget⟩ := hagrees
    simp only [next]
    cases hstats : collStats missing db.target with
    | none =>
      rw [Inv, ← hs]
      exact ⟨rfl, htarget⟩
    | some capped =>
      -- A collection that is not capped is one that is migrated, or was never capped.
      rcases htarget with htarget | ⟨t, htarget, huncapped, hperm⟩ | ⟨rfl, htarget⟩
      · rw [htarget] at hstats
        obtain rfl : c.capped = capped := Option.some.inj hstats
        cases hcapped : c.capped with
        | false =>
          have hmigrated := migrated_of_target htarget hcapped
          exact ⟨hmigrated, hs ▸ ⟨rfl, .inr (.inl hmigrated)⟩⟩
        | true => exact ⟨hs, rfl, htarget, hcapped⟩
      · rw [htarget] at hstats
        obtain rfl : t.capped = capped := Option.some.inj hstats
        rw [huncapped]
        have hmigrated : Migrated c db := ⟨t, htarget, huncapped, hperm⟩
        exact ⟨hmigrated, hs ▸ ⟨rfl, .inr (.inl hmigrated)⟩⟩
      · rw [htarget] at hstats
        exact nomatch hstats
  | copying =>
    obtain ⟨hsource, hcapped, t, htarget, hcopied⟩ := hagrees
    simp only [next]
    rw [hsource]
    cases hids : (nextIds kind batch lastId (some c)).getLast? with
    | none =>
      have hall : ∀ x ∈ c.docs, x ∈ t.docs := fun x hx =>
        hcopied.mem_of_not_gt (hkind hcapped) hx (not_gt_of_nextIds kind batch hids hx)
      exact ⟨hs, ⟨hsource, hcapped, t, htarget, hcopied⟩,
        ⟨t, htarget, hcopied.uncapped, hcopied.perm hall⟩⟩
    | some endId =>
      have hend := mem_of_nextIds kind batch hids
      exact ⟨hs, rfl, hsource, hcapped, hend, fun x hx => List.mem_of_mem_filter hx, t, htarget,
        hcopied, fun x hx hle => hcopied.mem_or_mem_window (hkind hcapped) hend hx hle⟩
  | dropping =>
    simp only [next]
    split
    · exact ⟨hs ▸ rfl, hagrees⟩
    · rw [Inv, ← hs]
      exact hagrees
  | done => exact hagrees.elim

/-- **Every step of a run keeps the invariant.** -/
theorem Inv.next {c : Coll Id Body} {σ : System Id Body}
    (hkind : c.capped = true → OneKind kind c) (h : Inv missing c σ) :
    Inv missing c (step kind batch missing σ .next) := by
  obtain ⟨db, pc⟩ := σ
  cases pc with
  | idle => exact h
  | loop s => exact h.next_loop hkind
  | checked s =>
    obtain ⟨hs, hphase, hagrees⟩ := h
    obtain ⟨phase, lastId⟩ := s
    obtain rfl : phase = .diskCheck := hphase
    obtain ⟨rfl, htarget⟩ := hagrees
    exact ⟨rfl, rfl, htarget.imp id .inl⟩
  | alreadyUncapped => exact ⟨.of_migrated h.1, h.1⟩
  | capped s =>
    obtain ⟨hs, hnone, htarget, hcapped⟩ := h
    exact ⟨hs, hnone, rfl, htarget, hcapped⟩
  | renamed s =>
    obtain ⟨hs, hnone, htarget, hsource, hcapped⟩ := h
    simp only [step, MigrateCapped.next]
    change db.target = none at htarget
    rw [htarget]
    exact ⟨hnone, rfl, hsource, hcapped⟩
  | created s =>
    obtain ⟨rfl, htarget, hsource, hcapped⟩ := h
    exact ⟨rfl, hsource, hcapped, .empty, htarget, .empty c⟩
  | merging s endId rest =>
    obtain ⟨hs, hphase, hsource, hcapped, hend, hrest, t, htarget, hcopied, hupTo⟩ := h
    cases rest with
    | nil =>
      obtain ⟨phase, lastId⟩ := s
      obtain rfl : phase = .copying := hphase
      refine ⟨rfl, hsource, hcapped, t, htarget, ⟨hcopied.uncapped, hcopied.sub, ?_, ?_⟩⟩
      · rintro l ⟨⟩
        exact hend
      · rintro l ⟨⟩ x hx hle
        exact (hupTo x hx hle).resolve_right List.not_mem_nil
    | cons x rest =>
      have hx : x ∈ c.docs := hrest x List.mem_cons_self
      change db.target = some t at htarget
      have hnew : (step kind batch missing ⟨db, .merging s endId (x :: rest)⟩ .next).db.target =
          some (t.keepExisting x) := by
        simp only [step, MigrateCapped.next, htarget, Option.getD_some]
      refine ⟨hs, hphase, hsource, hcapped, hend,
        fun y hy => hrest y (List.mem_cons_of_mem x hy), t.keepExisting x, hnew,
        hcopied.keepExisting hx, ?_⟩
      intro y hy hle
      rcases hupTo y hy hle with hmem | hmem
      · exact .inl (Coll.mem_keepExisting hmem)
      · rcases List.mem_cons.mp hmem with rfl | hmem
        · exact .inl (Coll.mem_keepExisting_self hcopied.sub hx)
        · exact .inr hmem
  | copied s => exact ⟨rfl, h.2.2⟩
  | counted => exact h
  | dropped => exact ⟨.of_migrated h.2, h.2⟩
  | returned => exact h

/-- The program can be started on what the runs before it left. -/
theorem Inv.start {c : Coll Id Body} {σ : System Id Body} (h : Inv missing c σ) :
    Inv missing c (step kind batch missing σ .start) := by
  obtain ⟨db, pc⟩ := σ
  cases pc with
  | idle => exact ⟨rfl, h⟩
  | returned => exact ⟨rfl, h.1⟩
  | _ => exact h

/-- Any number of runs, stopped where they may be, keep the invariant. -/
theorem Inv.run {c : Coll Id Body} (hkind : c.capped = true → OneKind kind c)
    (events : List Event) : ∀ {σ : System Id Body}, Inv missing c σ →
    Calm kind batch missing σ events →
    Inv missing c (MigrateCapped.run kind batch missing σ events) := by
  induction events with
  | nil => exact fun h _ => h
  | cons e es ih =>
    rintro σ h ⟨hstop, hcalm⟩
    refine ih ?_ hcalm
    cases e with
    | start => exact h.start
    | next => exact h.next hkind
    | stop => exact h.stop (hstop rfl)

/-- **A migration is not undone by stopping it.** Whatever the collection is, with `_id`s of one
kind if it is capped, and however often the migration is stopped and started again: unless it is
stopped where the state document is behind, it returns only when the target is not capped and
has every document of the collection once. -/
theorem perm_of_returned (kind : Id → ℕ) (batch : ℕ) (missing : Missing) (c : Coll Id Body)
    (source : Option (Coll Id Body)) (events : List Event)
    (hkind : c.capped = true → OneKind kind c)
    (hcalm : Calm kind batch missing (fresh c source) events)
    (hreturned : (run kind batch missing (fresh c source) events).pc = .returned) :
    Migrated c (run kind batch missing (fresh c source) events).db := by
  have hfresh : Inv missing c (fresh c source) := ⟨rfl, .inl rfl⟩
  have hinv := hfresh.run hkind events hcalm
  rw [Inv, hreturned] at hinv
  exact hinv.2

end Compare

/-! ### Two runs -/

/-- A capped collection of two documents. -/
def twoDocs : Coll ℕ Bool := ⟨true, [(2, true), (1, false)], by decide⟩

/-- A run that is stopped in its first batch, with a document merged and not noted, and another
one that goes to the end. -/
def stoppedCopying : List Event :=
  [.start] ++ List.replicate 8 .next ++ [.stop, .start] ++ List.replicate 11 .next

theorem perm_of_returned_stopped_copying :
    Migrated twoDocs
      (run (fun _ => 0) 1 .zeros (fresh twoDocs none) stoppedCopying).db := by
  refine perm_of_returned (fun _ => 0) 1 .zeros twoDocs none stoppedCopying ?_ ?_ ?_
  · exact fun _ _ _ _ _ => rfl
  · decide
  · rfl

/-- A run that is stopped after the creation of the target, and another one. -/
def stoppedCreated : List Event :=
  [.start] ++ List.replicate 5 .next ++ [.stop, .start] ++ List.replicate 2 .next

/-- **Stopping after the creation of the target loses every document.** The second run finds a
collection that is not capped and returns `Ok`. -/
theorem stop_after_create_loses :
    (run (fun _ => 0) 1 .error (fresh twoDocs none) stoppedCreated).pc = .returned ∧
      ¬Migrated twoDocs (run (fun _ => 0) 1 .error (fresh twoDocs none) stoppedCreated).db := by
  refine ⟨rfl, ?_⟩
  rintro ⟨t, htarget, -, hperm⟩
  -- The target is the collection that was created.
  obtain rfl : Coll.empty = t := Option.some.inj htarget
  exact absurd hperm.length_eq (by decide)

end MigrateCapped

end Archive

end MonadServices
