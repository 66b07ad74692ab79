import MonadServices.Archive.Checker

/-!
# The order in which the checker meets the replicas

The groups of replicas with the same data of a block are compared by a key, and the first group
with the least key is good. The key of a group ends in the least of its names, so that no two of
them have the same one, except that **a group whose traces do not decode has a key without a
name**. When no group decodes, the one that is met first is good.

So the outcome does not depend on the order in which the replicas are met exactly when there is
one version of the block only, or when some version decodes
(`MonadServices.Archive.Checker.consensus_order_iff`).
-/

namespace MonadServices

namespace Archive

namespace Checker

variable {alloy : Alloy} (commitments : Commitments alloy)

/-! ### The key of a group -/

/-- The key of a group whose traces do not decode. -/
def bottomKey : GroupKey := toLex (0, toLex (0, ⊥))

theorem min?_perm {l l' : List String} (h : l'.Perm l) : l'.min? = l.min? := by
  cases hmin : l.min? with
  | none =>
    rw [List.min?_eq_none_iff] at hmin ⊢
    exact (hmin ▸ h).eq_nil
  | some name =>
    obtain ⟨hmem, hle⟩ := List.min?_eq_some_iff.mp hmin
    exact List.min?_eq_some_iff.mpr ⟨h.mem_iff.mpr hmem, fun b hb => hle b (h.mem_iff.mp hb)⟩

/-- The members of a group with one version have the same key in every order. -/
theorem groupKey_perm {g g' : List (String × BlockData alloy)} (h : g'.Perm g)
    (hdata : ∀ e ∈ g, ∀ e' ∈ g, e.2 = e'.2) : groupKey commitments g' = groupKey commitments g := by
  have hmin := min?_perm (h.map Prod.fst)
  have hlength := h.length_eq
  cases g with
  | nil => rw [h.eq_nil]
  | cons e g =>
    cases g' with
    | nil => cases h.nil_eq
    | cons e' g' =>
      have heq : e'.2 = e.2 := hdata e' (h.mem_iff.mp List.mem_cons_self) e List.mem_cons_self
      obtain ⟨name, data⟩ := e
      obtain ⟨name', data'⟩ := e'
      obtain rfl : data' = data := heq
      unfold groupKey
      rw [hmin, hlength]

/-- **The key of a group** names one of its members and is before that of a group that does not
decode, or the group does not decode. -/
theorem groupKey_cases {g : List (String × BlockData alloy)} {e : String × BlockData alloy}
    (he : e ∈ g) (hdata : ∀ e' ∈ g, e'.2 = e.2) :
    decodeTraces commitments.log e.2.2.2 = none ∧ groupKey commitments g = bottomKey ∨
    decodeTraces commitments.log e.2.2.2 ≠ none ∧ groupKey commitments g < bottomKey ∧
      ∃ (a b : ℤ) (name : String), name ∈ g.map Prod.fst ∧
        groupKey commitments g = toLex (a, toLex (b, (name : WithBot String))) := by
  obtain ⟨e₀, es, rfl⟩ := List.exists_cons_of_ne_nil (List.ne_nil_of_mem he)
  have hmem : e₀ ∈ e₀ :: es := List.mem_cons_self
  have heq : e₀.2 = e.2 := hdata e₀ hmem
  rw [← heq]
  obtain ⟨name₀, data⟩ := e₀
  cases hdecode : decodeTraces commitments.log data.2.2 with
  | none =>
    refine .inl ⟨rfl, ?_⟩
    simp only [groupKey, hdecode]
    rfl
  | some frames =>
    obtain ⟨name, hname⟩ : ∃ name, (((name₀, data) :: es).map Prod.fst).min? = some name :=
      Option.isSome_iff_exists.mp (List.isSome_min?_of_mem (List.mem_map_of_mem hmem))
    have hkey : groupKey commitments ((name₀, data) :: es) =
        toLex (-((frames.flatten.flatten.filter (·.output ≠ [])).length : ℤ),
          toLex (-(((name₀, data) :: es).length : ℤ), (name : WithBot String))) := by
      simp only [groupKey, hdecode, hname]
      rfl
    refine .inr ⟨nofun, ?_, _, _, name, List.min?_mem hname, hkey⟩
    rw [hkey]
    refine Prod.Lex.toLex_lt_toLex.mpr ?_
    rcases Nat.eq_zero_or_pos (frames.flatten.flatten.filter (·.output ≠ [])).length with hz | hpos
    · refine .inr ⟨by rw [hz]; rfl, Prod.Lex.toLex_lt_toLex.mpr (.inl ?_)⟩
      exact Int.neg_neg_of_pos (Int.natCast_pos.mpr (List.length_pos_of_mem hmem))
    · exact .inl (Int.neg_neg_of_pos (Int.natCast_pos.mpr hpos))

/-! ### The choice -/

/-- A single group is the one with the least key. -/
theorem choice_eq_argmin (groups : List (List (String × BlockData alloy))) :
    (if groups.length > 1 then groups.argmin (groupKey commitments) else groups.head?) =
      groups.argmin (groupKey commitments) := by
  match groups with
  | [] => rfl
  | [_] => rfl
  | _ :: _ :: _ => exact if_pos (Nat.lt_add_of_pos_left (Nat.succ_pos _))

/-- The names of the group with the least key. -/
theorem chooseGoodReplica_eq {groups : List (List (String × BlockData alloy))}
    {g : List (String × BlockData alloy)} (hne : g ≠ [])
    (hg : groups.argmin (groupKey commitments) = some g) : chooseGoodReplica commitments groups =
      some ((g.map Prod.fst).insertionSort (· ≤ ·)) := by
  have hempty : g.isEmpty = false := List.isEmpty_eq_false_iff.mpr hne
  rw [chooseGoodReplica, choice_eq_argmin, hg]
  simp only [hempty, Bool.false_eq_true, if_false]

section Equality

variable [DecidableEq alloy.Header] [DecidableEq alloy.TxEnvelope]
  [DecidableEq alloy.ReceiptEnvelope] [DecidableEq alloy.Withdrawal]

/-- The replicas that pass have one version of the block, or a version that decodes. -/
def Decided (valid : List (String × BlockData alloy)) : Prop :=
  (∃ e ∈ valid, decodeTraces commitments.log e.2.2.2 ≠ none) ∨
    ∀ e ∈ valid, ∀ e' ∈ valid, e.2 = e'.2

/-- The groups of the replicas that pass, by their data. -/
abbrev groupsOf (valid : List (String × BlockData alloy)) :
    List (List (String × BlockData alloy)) :=
  Classes.classes Prod.snd valid

variable {commitments} {valid valid' : List (String × BlockData alloy)}

theorem snd_eq_of_mem_group {g : List (String × BlockData alloy)} (hg : g ∈ groupsOf valid)
    {e e' : String × BlockData alloy} (he : e ∈ g) (he' : e' ∈ g) : e'.2 = e.2 :=
  ((Classes.mem_classes_iff hg he e').mp he').2

/-- **No two groups have the same least key**: what has it has the same data. -/
theorem snd_eq_of_least (hnodup : (valid.map Prod.fst).Nodup) (hdecided : Decided commitments valid)
    {g₁ g₂ : List (String × BlockData alloy)} (hg₁ : g₁ ∈ groupsOf valid)
    (hg₂ : g₂ ∈ groupsOf valid) (hkey : groupKey commitments g₂ = groupKey commitments g₁)
    (hleast : ∀ g ∈ groupsOf valid, groupKey commitments g₁ ≤ groupKey commitments g)
    {e₁ e₂ : String × BlockData alloy} (he₁ : e₁ ∈ g₁) (he₂ : e₂ ∈ g₂) : e₁.2 = e₂.2 := by
  have hvalid₁ := fun e => (Classes.mem_classes_iff hg₁ he₁ e).mp
  have hvalid₂ := fun e => (Classes.mem_classes_iff hg₂ he₂ e).mp
  rcases groupKey_cases commitments he₁ fun e he => (hvalid₁ e he).2 with
    ⟨-, hbottom⟩ | ⟨-, hlt, a, b, name, hname, heq⟩
  · -- A group that decodes would come before.
    rcases hdecided with ⟨e, he, hdecodes⟩ | hone
    · obtain ⟨g, hg, heg⟩ := (Classes.areClasses Prod.snd valid).cover e he
      rcases groupKey_cases commitments heg fun e' he' => snd_eq_of_mem_group hg heg he' with
        ⟨hnone, -⟩ | ⟨-, hlt, -⟩
      · exact absurd hnone hdecodes
      · exact absurd (hbottom ▸ hleast g hg) (not_le_of_gt hlt)
    · exact hone e₁ (hvalid₁ e₁ he₁).1 e₂ (hvalid₂ e₂ he₂).1
  · rcases groupKey_cases commitments he₂ fun e he => (hvalid₂ e he).2 with
      ⟨-, hbottom⟩ | ⟨-, -, a', b', name', hname', heq'⟩
    · exact absurd (hkey.symm.trans hbottom) hlt.ne
    · -- The names in the keys are those of one replica.
      have hnames : name' = name := by
        have hkeys : (toLex (a', toLex (b', (name' : WithBot String))) :
            ℤ ×ₗ ℤ ×ₗ WithBot String) = toLex (a, toLex (b, (name : WithBot String))) :=
          heq'.symm.trans (hkey.trans heq)
        simp only [toLex_inj, Prod.mk.injEq, WithBot.coe_inj] at hkeys
        exact hkeys.2.2
      subst hnames
      obtain ⟨⟨_, data₁⟩, hmem₁, rfl⟩ := List.mem_map.mp hname
      obtain ⟨⟨_, data₂⟩, hmem₂, hfst⟩ := List.mem_map.mp hname'
      dsimp only at hfst
      subst hfst
      have h₁ := hvalid₁ _ hmem₁
      have h₂ := hvalid₂ _ hmem₂
      exact h₁.2.symm.trans ((eq_of_mem_of_mem hnodup h₁.1 h₂.1).trans h₂.2)

/-- The least key is that of the same group in every order. -/
theorem argmin_perm (hnodup : (valid.map Prod.fst).Nodup) (hperm : valid'.Perm valid)
    (hdecided : Decided commitments valid) {g g' : List (String × BlockData alloy)}
    (hg : (groupsOf valid).argmin (groupKey commitments) = some g)
    (hg' : (groupsOf valid').argmin (groupKey commitments) = some g') : g'.Perm g := by
  have hvalid := hnodup.of_map
  have hmem := List.argmin_mem hg
  have hmem' := List.argmin_mem hg'
  -- Each of the two has a counterpart in the other order.
  obtain ⟨g₁, hg₁, hperm₁⟩ := Classes.exists_perm_of_mem_classes hvalid hperm hmem
  obtain ⟨g₂, hg₂, hperm₂⟩ := Classes.exists_perm_of_mem_classes
    (hperm.nodup_iff.mpr hvalid) hperm.symm hmem'
  have hkey₁ := groupKey_perm commitments hperm₁ fun e he e' he' => snd_eq_of_mem_group hmem he' he
  have hkey₂ := groupKey_perm commitments hperm₂ fun e he e' he' => snd_eq_of_mem_group hmem' he' he
  have hkey : groupKey commitments g₂ = groupKey commitments g :=
    le_antisymm (hkey₂.trans_le ((List.le_of_mem_argmin hg₁ hg').trans_eq hkey₁))
      (List.le_of_mem_argmin hg₂ hg)
  obtain ⟨e, es, hcons⟩ := List.exists_cons_of_ne_nil
    ((Classes.areClasses Prod.snd valid).ne_nil g hmem)
  obtain ⟨e₂, es₂, hcons₂⟩ := List.exists_cons_of_ne_nil
    ((Classes.areClasses Prod.snd valid).ne_nil g₂ hg₂)
  have he : e ∈ g := hcons ▸ List.mem_cons_self
  have he₂ : e₂ ∈ g₂ := hcons₂ ▸ List.mem_cons_self
  have hdata := snd_eq_of_least hnodup hdecided hmem hg₂ hkey
    (fun g₀ hg₀ => List.le_of_mem_argmin hg₀ hg) he he₂
  have hfilter := Classes.perm_filter_of_mem_classes hvalid hmem he
  have hfilter₂ := Classes.perm_filter_of_mem_classes hvalid hg₂ he₂
  rw [hdata] at hfilter
  exact hperm₂.symm.trans (hfilter₂.trans hfilter.symm)

/-! ### The consensus in another order -/

/-- **The faults of a map in another order**: a replica has at most one. -/
theorem foldl_push_perm {V : Type} {f : String × V → Option Fault}
    (hf : ∀ e fault, f e = some fault → fault.replica = e.1) {l l' : List (String × V)}
    (hnodup : (l.map Prod.fst).Nodup) (hperm : l'.Perm l) (results : Results) :
    (l'.filterMap f).foldl Results.push results = (l.filterMap f).foldl Results.push results := by
  have hnodup' : (l'.map Prod.fst).Nodup := (hperm.map Prod.fst).nodup_iff.mpr hnodup
  rw [foldl_push, foldl_push, Results.mk.injEq]
  refine ⟨funext fun r => ?_, rfl⟩
  by_cases hr : r ∈ l.map Prod.fst
  · obtain ⟨⟨_, v⟩, hmem, rfl⟩ := List.mem_map.mp hr
    rw [filter_filterMap_of_mem hf hnodup hmem,
      filter_filterMap_of_mem hf hnodup' (hperm.mem_iff.mpr hmem)]
  · rw [filter_filterMap_of_not_mem hf hr, filter_filterMap_of_not_mem hf
      (mt (hperm.map Prod.fst).mem_iff.mp hr)]

/-- **The good replica** is the first of the names that were chosen. -/
theorem goodBlocks_findConsensus {good : String} {names : List String}
    (hchoose : chooseGoodReplica commitments (groupsOf valid) = some (good :: names))
    (blockNum : UInt64) (results : Results) :
    (findConsensus commitments blockNum valid results).goodBlocks blockNum = some good := by
  have hfold : ∀ (f : Results → String × BlockData alloy → Results) (l : List _) (r : Results),
      (∀ r e, (f r e).goodBlocks = r.goodBlocks) → (l.foldl f r).goodBlocks = r.goodBlocks := by
    intro f l
    induction l with
    | nil => exact fun r _ => rfl
    | cons e l ih => exact fun r hf => (ih (f r e) hf).trans (hf r e)
  rw [findConsensus, hchoose]
  dsimp only
  rw [hfold]
  · exact Function.update_self ..
  · intro r e
    split
    · rfl
    · split
      · rfl
      · rfl

variable (commitments) in
/-- The names that are chosen are those of a group. -/
theorem exists_choice (hne : valid ≠ []) :
    ∃ g, (groupsOf valid).argmin (groupKey commitments) = some g ∧ g ∈ groupsOf valid ∧
      ∃ good names, (g.map Prod.fst).insertionSort (· ≤ ·) = good :: names ∧
        chooseGoodReplica commitments (groupsOf valid) = some (good :: names) ∧
        ∃ data, (good, data) ∈ g := by
  obtain ⟨g, hg⟩ := Option.ne_none_iff_exists'.mp
    (mt List.argmin_eq_none.mp (Classes.classes_ne_nil hne) :
      (groupsOf valid).argmin (groupKey commitments) ≠ none)
  have hmem := List.argmin_mem hg
  have hgne := (Classes.areClasses Prod.snd valid).ne_nil g hmem
  have hsort := List.perm_insertionSort (· ≤ ·) (g.map Prod.fst)
  obtain ⟨good, names, hsorted⟩ : ∃ good names,
      (g.map Prod.fst).insertionSort (· ≤ ·) = good :: names := by
    refine List.exists_cons_of_ne_nil fun hnil => hgne ?_
    rw [hnil] at hsort
    exact List.map_eq_nil_iff.mp hsort.nil_eq.symm
  refine ⟨g, hg, hmem, good, names, hsorted, hsorted ▸ chooseGoodReplica_eq commitments hgne hg, ?_⟩
  have hgood : good ∈ g.map Prod.fst := by
    rw [← hsort.mem_iff, hsorted]
    exact List.mem_cons_self
  obtain ⟨⟨_, data⟩, hdata, rfl⟩ := List.mem_map.mp hgood
  exact ⟨data, hdata⟩

/-- **When the replicas are decided, the order does not matter.** -/
theorem findConsensus_perm (hnodup : (valid.map Prod.fst).Nodup) (hperm : valid'.Perm valid)
    (hdecided : Decided commitments valid) (blockNum : UInt64) (results : Results) :
    findConsensus commitments blockNum valid' results =
      findConsensus commitments blockNum valid results := by
  have hnodup' : (valid'.map Prod.fst).Nodup := (hperm.map Prod.fst).nodup_iff.mpr hnodup
  rcases eq_or_ne valid [] with rfl | hne
  · rw [hperm.eq_nil]
  have hne' : valid' ≠ [] := fun hnil => hne (hnil ▸ hperm).nil_eq.symm
  obtain ⟨g, hg, -, good, names, hsorted, hchoose, -⟩ := exists_choice commitments hne
  obtain ⟨g', hg', -, good', names', hsorted', hchoose', -⟩ := exists_choice commitments hne'
  -- The groups have the same names, in the same order once they are sorted.
  have hsame : good' :: names' = good :: names := by
    rw [← hsorted, ← hsorted']
    have hnames := (argmin_perm hnodup hperm hdecided hg hg').map Prod.fst
    refine List.Perm.eq_of_sortedLE List.sortedLE_insertionSort List.sortedLE_insertionSort ?_
    exact ((List.perm_insertionSort _ _).trans hnames).trans (List.perm_insertionSort _ _).symm
  obtain ⟨rfl, rfl⟩ := List.cons.inj hsame
  have hgood := goodBlocks_findConsensus hchoose blockNum results
  have hgood' := goodBlocks_findConsensus hchoose' blockNum results
  obtain ⟨r, data, hmem, hspec⟩ := findConsensus_spec commitments hne hnodup blockNum
  obtain ⟨r', data', hmem', hspec'⟩ := findConsensus_spec commitments hne' hnodup' blockNum
  rw [hspec, foldl_push] at hgood
  rw [hspec', foldl_push] at hgood'
  simp only [Function.update_self, Option.some.injEq] at hgood hgood'
  subst hgood
  subst hgood'
  obtain rfl := eq_of_mem_of_mem hnodup hmem (hperm.mem_iff.mp hmem')
  rw [hspec, hspec']
  exact foldl_push_perm (fun _ _ h => (inconsistency_fields commitments h).1) hnodup hperm _

/-! ### The order that matters -/

/-- An element with the least key is chosen if it comes first. -/
theorem argmin_cons_of_le {α β : Type} [LinearOrder β] {f : α → β} {a : α} {l : List α}
    (h : ∀ b ∈ l, f a ≤ f b) : (a :: l).argmin f = some a := by
  rw [List.argmin_cons]
  cases hmin : l.argmin f with
  | none => rfl
  | some b => exact if_neg (not_lt_of_ge (h b (List.argmin_mem hmin)))

/-- **When no version decodes, the one that is met first is good.** -/
theorem goodBlocks_of_first {e : String × BlockData alloy} {l : List (String × BlockData alloy)}
    (hnone : ∀ e' ∈ e :: l, decodeTraces commitments.log e'.2.2.2 = none) (blockNum : UInt64)
    (results : Results) : ∃ name, (name, e.2) ∈ e :: l ∧
      (findConsensus commitments blockNum (e :: l) results).goodBlocks blockNum = some name := by
  obtain ⟨g, hg, hmem, good, names, -, hchoose, data, hdata⟩ :=
    exists_choice commitments (List.cons_ne_nil e l)
  obtain ⟨first, rest, hgroups, hfirst⟩ := Classes.exists_classes_cons Prod.snd e l
  have hbottom : ∀ g₀ ∈ groupsOf (e :: l), groupKey commitments g₀ = bottomKey := by
    intro g₀ hg₀
    obtain ⟨e₀, es, hcons⟩ := List.exists_cons_of_ne_nil
      ((Classes.areClasses Prod.snd (e :: l)).ne_nil g₀ hg₀)
    have he₀ : e₀ ∈ g₀ := hcons ▸ List.mem_cons_self
    have hin := ((Classes.mem_classes_iff hg₀ he₀ e₀).mp he₀).1
    rcases groupKey_cases commitments he₀ fun e' he' => snd_eq_of_mem_group hg₀ he₀ he' with
      ⟨-, hkey⟩ | ⟨hdecodes, -⟩
    · exact hkey
    · exact absurd (hnone e₀ hin) hdecodes
  have hgroups : groupsOf (e :: l) = first :: rest := hgroups
  rw [hgroups] at hbottom
  rw [hgroups, argmin_cons_of_le fun b hb => ((hbottom first List.mem_cons_self).trans
    (hbottom b (List.mem_cons_of_mem first hb)).symm).le] at hg
  obtain rfl := Option.some.inj hg
  have hsnd : data = e.2 := snd_eq_of_mem_group hmem hfirst hdata
  refine ⟨good, ?_, goodBlocks_findConsensus hchoose blockNum results⟩
  rw [← hsnd]
  exact ((Classes.mem_classes_iff hmem hdata _).mp hdata).1

/-- **When the replicas are not decided, the order matters.** -/
theorem exists_orders (hnodup : (valid.map Prod.fst).Nodup) (h : ¬Decided commitments valid) :
    ∃ valid₁ valid₂, valid₁.Perm valid ∧ valid₂.Perm valid ∧ ∀ blockNum results,
      (findConsensus commitments blockNum valid₁ results).goodBlocks blockNum ≠
        (findConsensus commitments blockNum valid₂ results).goodBlocks blockNum := by
  rw [Decided, not_or] at h
  push Not at h
  obtain ⟨hnone, e₁, he₁, e₂, he₂, hne⟩ := h
  have hperm₁ := (List.perm_cons_erase he₁).symm
  have hperm₂ := (List.perm_cons_erase he₂).symm
  refine ⟨e₁ :: valid.erase e₁, e₂ :: valid.erase e₂, hperm₁, hperm₂, fun blockNum results => ?_⟩
  obtain ⟨name₁, hmem₁, hgood₁⟩ := goodBlocks_of_first
    (fun e he => hnone e (hperm₁.mem_iff.mp he)) blockNum results
  obtain ⟨name₂, hmem₂, hgood₂⟩ := goodBlocks_of_first
    (fun e he => hnone e (hperm₂.mem_iff.mp he)) blockNum results
  rw [hgood₁, hgood₂]
  intro heq
  obtain rfl := Option.some.inj heq
  exact hne (eq_of_mem_of_mem hnodup (hperm₁.mem_iff.mp hmem₁) (hperm₂.mem_iff.mp hmem₂))

/-! ### The blocks -/

variable (commitments) in
/-- **The outcome does not depend on the orders** in which the maps are iterated: that of the
replicas, and that of those that pass. -/
def OrderFree (blockNum : UInt64) (replicaData : ReplicaMap (Option (BlockData alloy)))
    (parents : String → Option alloy.Header) : Prop :=
  ∀ (replicaData' : ReplicaMap (Option (BlockData alloy)))
    (order order' : IterOrder (String × BlockData alloy)) (results : Results),
    replicaData'.entries.Perm replicaData.entries →
    processSingleBlock commitments order' blockNum replicaData' parents results =
      processSingleBlock commitments order blockNum replicaData parents results

variable {blockNum : UInt64} {replicaData : ReplicaMap (Option (BlockData alloy))}
  {parents : String → Option alloy.Header}

variable (commitments replicaData) in
/-- The consensus is looked for among the replicas that pass. -/
theorem processSingleBlock_eq (order : IterOrder (String × BlockData alloy)) (blockNum : UInt64)
    (parents : String → Option alloy.Header) (results : Results) :
    processSingleBlock commitments order blockNum replicaData parents results =
      (if replicaData.entries.filterMap (passing commitments blockNum parents) ≠ [] then
        findConsensus commitments blockNum
          (order.order (replicaData.entries.filterMap (passing commitments blockNum parents)))
      else id) ((replicaData.entries.filterMap (failure commitments blockNum parents)).foldl
        Results.push results) := by
  rw [processSingleBlock, verifyReplicas_eq]
  dsimp only
  split <;> rfl

theorem orderFree_of_decided
    (h : Decided commitments
      (replicaData.entries.filterMap (passing commitments blockNum parents))) :
    OrderFree commitments blockNum replicaData parents := by
  intro replicaData' order order' results hperm
  have hnodup : ((replicaData.entries.filterMap
      (passing commitments blockNum parents)).map Prod.fst).Nodup :=
    nodup_filterMap_passing commitments replicaData.nodup
  have hpassed := hperm.filterMap (passing commitments blockNum parents)
  have hfailures : (replicaData'.entries.filterMap (failure commitments blockNum parents)).foldl
      Results.push results =
      (replicaData.entries.filterMap (failure commitments blockNum parents)).foldl
        Results.push results :=
    foldl_push_perm (fun _ _ h => (failure_fields commitments h).1) replicaData.nodup hperm results
  rw [processSingleBlock_eq, processSingleBlock_eq, hfailures]
  by_cases hempty : replicaData.entries.filterMap (passing commitments blockNum parents) = []
  · have hempty' : replicaData'.entries.filterMap (passing commitments blockNum parents) = [] :=
      (hempty ▸ hpassed).eq_nil
    rw [hempty, hempty', if_neg (not_not.mpr rfl), if_neg (not_not.mpr rfl)]
  · have hne' : replicaData'.entries.filterMap (passing commitments blockNum parents) ≠ [] :=
      fun hnil => hempty (hnil ▸ hpassed).nil_eq.symm
    rw [if_pos hempty, if_pos hne', findConsensus_perm hnodup (order.perm _) h,
      findConsensus_perm hnodup ((order'.perm _).trans hpassed) h]

theorem decided_of_orderFree (h : OrderFree commitments blockNum replicaData parents) :
    Decided commitments (replicaData.entries.filterMap (passing commitments blockNum parents)) := by
  have hnodup : ((replicaData.entries.filterMap
      (passing commitments blockNum parents)).map Prod.fst).Nodup :=
    nodup_filterMap_passing commitments replicaData.nodup
  by_contra hnot
  have hne : replicaData.entries.filterMap (passing commitments blockNum parents) ≠ [] := by
    intro hnil
    rw [hnil] at hnot
    exact hnot (.inr fun _ he => absurd he List.not_mem_nil)
  obtain ⟨valid₁, valid₂, hperm₁, hperm₂, hdiffer⟩ := exists_orders hnodup hnot
  obtain ⟨order₁, horder₁⟩ := IterOrder.exists_order hperm₁
  obtain ⟨order₂, horder₂⟩ := IterOrder.exists_order hperm₂
  have heq := h replicaData order₁ order₂ ⟨fun _ => [], fun _ => none⟩ (List.Perm.refl _)
  rw [processSingleBlock_eq, processSingleBlock_eq, if_pos hne, if_pos hne, horder₁, horder₂]
    at heq
  exact hdiffer _ _ (congrArg (fun r => r.goodBlocks blockNum) heq.symm)

variable (commitments) in
/-- **When the order does not matter**: exactly when the replicas that pass have one version of the
block, or a version whose traces decode. -/
theorem consensus_order_iff (blockNum : UInt64) :
    (∀ valid : ReplicaMap (BlockData alloy),
      (∀ (valid' : ReplicaMap (BlockData alloy)) (results : Results),
        valid'.entries.Perm valid.entries →
        findConsensus commitments blockNum valid'.entries results =
          findConsensus commitments blockNum valid.entries results) ↔
      Decided commitments valid.entries) ∧
    ∀ (replicaData : ReplicaMap (Option (BlockData alloy)))
      (parents : String → Option alloy.Header),
      OrderFree commitments blockNum replicaData parents ↔
        Decided commitments
          (replicaData.entries.filterMap (passing commitments blockNum parents)) := by
  refine ⟨fun valid => ⟨fun h => ?_, fun h valid' results hperm => ?_⟩, fun replicaData parents =>
    ⟨decided_of_orderFree, orderFree_of_decided⟩⟩
  · by_contra hnot
    obtain ⟨valid₁, valid₂, hperm₁, hperm₂, hdiffer⟩ := exists_orders valid.nodup hnot
    have hsame : ∀ l : List (String × BlockData alloy), l.Perm valid.entries → ∀ results,
        findConsensus commitments blockNum l results =
          findConsensus commitments blockNum valid.entries results := fun l hl results =>
      h ⟨l, (hl.map Prod.fst).nodup_iff.mpr valid.nodup⟩ results hl
    refine hdiffer blockNum ⟨fun _ => [], fun _ => none⟩ ?_
    rw [hsame valid₁ hperm₁, hsame valid₂ hperm₂]
  · exact findConsensus_perm valid.nodup hperm h blockNum results

end Equality

/-- A block with one transaction and a trace. -/
def blockWithTrace (trace : Bytes) : BlockData Alloy.sample :=
  let zero : UInt64 := 0
  (⟨zero, [⟨⟨toBe 20 1, length_toBe 20 1⟩, zero⟩], [], none⟩, [⟨zero, 0⟩], [trace])

/-- Two versions of a block whose traces do not decode. -/
def undecodable : ReplicaMap (Option (BlockData Alloy.sample)) where
  entries := [("a", some (blockWithTrace [])), ("b", some (blockWithTrace [0x80]))]
  nodup := by decide

/-- **The order matters** when no version decodes. -/
theorem not_orderFree : ¬∀ replicaData parents,
    OrderFree Commitments.sample 0 replicaData parents := by
  intro h
  have hdecided := decided_of_orderFree (h undecodable fun _ => none)
  have hpassed : undecodable.entries.filterMap (passing Commitments.sample 0 fun _ => none) =
      [("a", blockWithTrace []), ("b", blockWithTrace [0x80])] := rfl
  rw [hpassed] at hdecided
  rcases hdecided with ⟨e, he, hdecodes⟩ | hone
  · simp only [List.mem_cons, List.not_mem_nil, or_false] at he
    rcases he with rfl | rfl
    · exact hdecodes rfl
    · exact hdecodes rfl
  · have heq := hone _ List.mem_cons_self _ (List.mem_cons_of_mem _ List.mem_cons_self)
    exact absurd (congrArg (fun d => d.2.2) heq) (by decide)

end Checker

end Archive

end MonadServices
