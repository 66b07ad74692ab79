import MonadServices.Lib.IterOrder
import MonadServices.Primitives
import Mathlib.Data.Finset.Insert
import Mathlib.Data.List.AList

/-!
# The state of the transaction pool bridge

The RPC server keeps the status of the transactions it has sent to the pool or heard of from it:
a map from hashes to statuses, the sender of the hashes whose insertion it has seen, the hashes of
each sender, and a queue from which hashes fall after a quarter of an hour. Time is given to the
operations; it is counted in nanoseconds.

`MonadServices.Rpc.TxPool.Inv` is what the operations keep: the queue has each key of the status
map once, in order of time, and the two address maps are inverse to one another on the senders.
A hash outside the queue would never be forgotten, and one that is in the queue twice could be
forgotten while it is young.

**The bookkeeping is exact** after every sequence of operations
(`MonadServices.Rpc.TxPool.run_sound`).
-/

namespace MonadServices

namespace Rpc

namespace TxPool

/-! ### The state and its operations -/

section Model

/-- What is known of a transaction. -/
inductive TxStatus (D E : Type) where
  | unknown
  | tracked
  | dropped (reason : D)
  | evicted (reason : E)
  | committed
  deriving DecidableEq

/-- What the pool did with a transaction. -/
inductive EventType (D E : Type) where
  | insert (address : Address)
  | commit
  | drop (reason : D)
  | evict (reason : E)

/-- An event of the pool. -/
structure Event (D E : Type) where
  txHash : B256
  action : EventType D E

/-- The transactions of the pool, in the order in which their set is iterated. -/
structure Snapshot where
  txs : List B256
  nodup : txs.Nodup

/-- **The state of the bridge**, with its eviction queue. -/
structure State (D E : Type) where
  status : AList fun _ : B256 => TxStatus D E
  hashAddress : B256 → Option Address
  addressHashes : Address → Option (Finset B256)
  evictionQueue : List (ℕ × B256)

variable {D E : Type}

/-- How long a hash stays in the queue. -/
def txEvictDuration : ℕ := 15 * 60 * 10 ^ 9

namespace State

/-- No transaction is known. -/
def empty : State D E := ⟨∅, fun _ => none, fun _ => none, []⟩

/-- The hashes of an address, none when it has no entry. -/
def hashesOf (s : State D E) (a : Address) : Finset B256 := (s.addressHashes a).getD ∅

/-- The status of a hash. -/
def getStatusByHash (s : State D E) (h : B256) : Option (TxStatus D E) := s.status.lookup h

/-- The statuses of an address: a map from its hashes. -/
def getStatusByAddress (s : State D E) (a : Address) : Option (B256 → Option (TxStatus D E)) := do
  let hashes ← s.addressHashes a
  return fun h => if h ∈ hashes then s.status.lookup h else none

/-- A transaction is sent to the pool. The answer is whether it has to be. -/
def addTx (now : ℕ) (h : B256) (s : State D E) : Bool × State D E :=
  match s.status.lookup h with
  | some .unknown => (true, s)
  | some _ => (false, s)
  | none =>
    (true, { s with
      status := s.status.insert h .unknown
      evictionQueue := s.evictionQueue ++ [(now, h)] })

/-- Sets the status of a hash; a hash that had none enters the queue. -/
def insert (now : ℕ) (h : B256) (st : TxStatus D E) (s : State D E) : State D E :=
  if h ∈ s.status then { s with status := s.status.insert h st }
  else
    { s with
      status := s.status.insert h st
      evictionQueue := s.evictionQueue ++ [(now, h)] }

/-- Notes the sender of a hash. -/
def link (h : B256) (a : Address) (s : State D E) : State D E :=
  { s with
    hashAddress := Function.update s.hashAddress h (some a)
    addressHashes := Function.update s.addressHashes a (some (Insert.insert h (s.hashesOf a))) }

/-- Removes a hash from the three maps. An address keeps its set, be it empty. -/
def remove (h : B256) (s : State D E) : State D E :=
  match s.hashAddress h with
  | none => { s with status := s.status.erase h }
  | some a =>
    { s with
      status := s.status.erase h
      hashAddress := Function.update s.hashAddress h none
      addressHashes := Function.update s.addressHashes a ((s.addressHashes a).map (·.erase h)) }

/-- The effect of one event. -/
def handleEvent (now : ℕ) (s : State D E) (e : Event D E) : State D E :=
  match e.action with
  | .insert a => (s.insert now e.txHash .tracked).link e.txHash a
  | .commit => s.insert now e.txHash .committed
  | .drop reason => s.insert now e.txHash (.dropped reason)
  | .evict reason => s.insert now e.txHash (.evicted reason)

/-- The pool reports events. -/
def handleEvents (now : ℕ) (events : List (Event D E)) (s : State D E) : State D E :=
  events.foldl (handleEvent now) s

/-- One key of the status map against what is left of the snapshot. -/
def retainTx (now : ℕ) (acc : List B256 × State D E) (h : B256) : List B256 × State D E :=
  if h ∈ acc.1 then
    (acc.1.filter (· ≠ h), { acc.2 with
      status := acc.2.status.insert h .tracked
      evictionQueue := acc.2.evictionQueue ++ [(now, h)] })
  else (acc.1, acc.2.remove h)

/-- A hash of the snapshot that had no status. -/
def trackTx (now : ℕ) (s : State D E) (h : B256) : State D E :=
  { s with
    status := s.status.insert h .tracked
    evictionQueue := s.evictionQueue ++ [(now, h)] }

/-- **The pool's content replaces what was known.** The status map is iterated in any order. -/
def applySnapshot (now : ℕ) (order : IterOrder B256) (snapshot : Snapshot) (s : State D E) :
    State D E :=
  let retained := (order.order s.status.keys).foldl (retainTx now)
    (snapshot.txs, { s with evictionQueue := [] })
  retained.1.foldl (trackTx now) retained.2

/-- The bridge starts from a snapshot. -/
def new (now : ℕ) (order : IterOrder B256) (snapshot : Snapshot) : State D E :=
  applySnapshot now order snapshot empty

/-- The front of the queue falls while it is old. -/
def popExpired (now : ℕ) : List (ℕ × B256) → State D E → State D E
  | [], s => { s with evictionQueue := [] }
  | (t, h) :: queue, s =>
    if txEvictDuration ≤ now - t then
      popExpired now queue (if h ∈ s.status then s.remove h else s)
    else { s with evictionQueue := (t, h) :: queue }

/-- **Forgets what is old**, and the addresses that have no hash left. -/
def cleanup (now : ℕ) (s : State D E) : State D E :=
  let s := popExpired now s.evictionQueue s
  { s with addressHashes := fun a => (s.addressHashes a).filter fun hashes => hashes ≠ ∅ }

end State

/-- An operation on the state, with its time. -/
inductive Op (D E : Type) where
  | addTx (now : ℕ) (h : B256)
  | handleEvents (now : ℕ) (events : List (Event D E))
  | applySnapshot (now : ℕ) (order : IterOrder B256) (snapshot : Snapshot)
  | cleanup (now : ℕ)

namespace Op

/-- When an operation is done. -/
def time : Op D E → ℕ
  | addTx now _ | handleEvents now _ | applySnapshot now _ _ | cleanup now => now

/-- The state after an operation. -/
def apply (s : State D E) : Op D E → State D E
  | addTx now h => (s.addTx now h).2
  | handleEvents now events => s.handleEvents now events
  | applySnapshot now order snapshot => s.applySnapshot now order snapshot
  | cleanup now => s.cleanup now

/-- The insertions of an operation name the hashes' senders. -/
def SentBy (sender : B256 → Address) : Op D E → Prop
  | handleEvents _ events => ∀ e ∈ events, ∀ a, e.action = .insert a → a = sender e.txHash
  | _ => True

end Op

/-- The state after a sequence of operations. -/
def run (ops : List (Op D E)) : State D E := ops.foldl Op.apply State.empty

end Model

/-! ### The invariant -/

section Invariant

variable {D E : Type} {sender : B256 → Address} {now : ℕ} {s : State D E}

/-- The two address maps agree. -/
def State.Indexed (s : State D E) : Prop :=
  ∀ h a, h ∈ s.hashesOf a ↔ s.hashAddress h = some a

/-- **What every operation keeps**, at the time of the last one. -/
structure Inv (sender : B256 → Address) (now : ℕ) (s : State D E) : Prop where
  queue_nodup : (s.evictionQueue.map Prod.snd).Nodup
  mem_queue : ∀ h, h ∈ s.evictionQueue.map Prod.snd ↔ h ∈ s.status
  queue_sorted : s.evictionQueue.Pairwise fun e f => e.1 ≤ f.1
  queue_le : ∀ e ∈ s.evictionQueue, e.1 ≤ now
  mem_status : ∀ h a, s.hashAddress h = some a → h ∈ s.status
  indexed : s.Indexed
  sent : ∀ h a, s.hashAddress h = some a → a = sender h

theorem Inv.empty : Inv sender 0 (State.empty : State D E) where
  queue_nodup := .nil
  mem_queue h := by simp [State.empty]
  queue_sorted := .nil
  queue_le e he := by simp [State.empty] at he
  mem_status h a ha := by simp [State.empty] at ha
  indexed h a := by simp [State.empty, State.hashesOf]
  sent h a ha := by simp [State.empty] at ha

theorem Inv.mono (hs : Inv sender now s) {later : ℕ} (hle : now ≤ later) : Inv sender later s :=
  { hs with queue_le := fun e he => (hs.queue_le e he).trans hle }

/-- **The queue holds each key of the status map once** and nothing else. -/
theorem Inv.queue_perm (hs : Inv sender now s) :
    (s.evictionQueue.map Prod.snd).Perm s.status.keys := by
  rw [List.perm_ext_iff_of_nodup hs.queue_nodup s.status.keys_nodup]
  exact fun h => (hs.mem_queue h).trans AList.mem_keys

/-- A new hash at the end of the queue, now. -/
theorem Inv.push (hs : Inv sender now s) {h : B256} (hh : h ∉ s.status) (st : TxStatus D E) :
    Inv sender now { s with
      status := s.status.insert h st
      evictionQueue := s.evictionQueue ++ [(now, h)] } where
  queue_nodup := by
    rw [List.map_append]
    refine hs.queue_nodup.append (List.nodup_singleton h) ?_
    intro x hx hxh
    obtain rfl : x = h := by simpa using hxh
    exact hh ((hs.mem_queue x).mp hx)
  mem_queue x := by
    rw [List.map_append, List.mem_append, hs.mem_queue x, AList.mem_insert, or_comm]
    simp
  queue_sorted := by
    refine List.pairwise_append.mpr ⟨hs.queue_sorted, List.pairwise_singleton _ _, ?_⟩
    intro e he f hf
    rw [List.mem_singleton.mp hf]
    exact hs.queue_le e he
  queue_le e he := by
    rcases List.mem_append.mp he with he | he
    · exact hs.queue_le e he
    · rw [List.mem_singleton.mp he]
  mem_status x a hx := (AList.mem_insert _).mpr (.inr (hs.mem_status x a hx))
  indexed := hs.indexed
  sent := hs.sent

/-- A hash with a status gets another one. -/
theorem Inv.replace (hs : Inv sender now s) {h : B256} (hh : h ∈ s.status) (st : TxStatus D E) :
    Inv sender now { s with status := s.status.insert h st } :=
  { hs with
    mem_queue := fun x => by
      rw [hs.mem_queue x, AList.mem_insert]
      exact ⟨.inr, fun hx => hx.elim (fun heq => heq ▸ hh) id⟩
    mem_status := fun x a hx => (AList.mem_insert _).mpr (.inr (hs.mem_status x a hx)) }

theorem Inv.addTx (hs : Inv sender now s) (h : B256) : Inv sender now (s.addTx now h).2 := by
  unfold State.addTx
  split
  · exact hs
  · exact hs
  · next hnone => exact hs.push (AList.lookup_eq_none.mp hnone) _

/-! ### Events -/

theorem Inv.insert (hs : Inv sender now s) (h : B256) (st : TxStatus D E) :
    Inv sender now (s.insert now h st) := by
  unfold State.insert
  split
  · next hh => exact hs.replace hh st
  · next hh => exact hs.push hh st

theorem State.mem_status_insert (h : B256) (st : TxStatus D E) :
    h ∈ (s.insert now h st).status := by
  unfold State.insert
  split
  · exact (AList.mem_insert _).mpr (.inl rfl)
  · exact (AList.mem_insert _).mpr (.inl rfl)

theorem State.hashesOf_link (h : B256) (a b : Address) :
    (s.link h a).hashesOf b = if b = a then Insert.insert h (s.hashesOf a) else s.hashesOf b := by
  change (Function.update s.addressHashes a _ b).getD ∅ = _
  rw [Function.update_apply]
  split <;> rfl

theorem State.hashAddress_link (h x : B256) (a : Address) :
    (s.link h a).hashAddress x = if x = h then some a else s.hashAddress x :=
  Function.update_apply ..

/-- The sender of a known hash is noted. No other address can have had it. -/
theorem Inv.link (hs : Inv sender now s) {h : B256} (hh : h ∈ s.status) :
    Inv sender now (s.link h (sender h)) where
  queue_nodup := hs.queue_nodup
  mem_queue := hs.mem_queue
  queue_sorted := hs.queue_sorted
  queue_le := hs.queue_le
  mem_status x a hx := by
    rw [State.hashAddress_link] at hx
    split at hx
    · next heq => exact heq ▸ hh
    · exact hs.mem_status x a hx
  indexed x a := by
    rw [State.hashesOf_link, State.hashAddress_link]
    by_cases hx : x = h
    · subst hx
      rw [if_pos rfl, Option.some.injEq]
      constructor
      · intro hmem
        split at hmem
        · next heq => exact heq.symm
        · exact (hs.sent x a ((hs.indexed x a).mp hmem)).symm
      · rintro rfl
        rw [if_pos rfl]
        exact Finset.mem_insert_self _ _
    · rw [if_neg hx, ← hs.indexed x a]
      split
      · next heq => rw [Finset.mem_insert, or_iff_right hx, heq]
      · rfl
  sent x a hx := by
    rw [State.hashAddress_link] at hx
    split at hx
    · next heq => exact heq ▸ (Option.some.inj hx).symm
    · exact hs.sent x a hx

theorem Inv.handleEvent (hs : Inv sender now s) (e : Event D E)
    (he : ∀ a, e.action = .insert a → a = sender e.txHash) :
    Inv sender now (s.handleEvent now e) := by
  unfold State.handleEvent
  split
  · next a ha =>
    rw [he a ha]
    exact (hs.insert _ _).link (State.mem_status_insert _ _)
  · exact hs.insert _ _
  · exact hs.insert _ _
  · exact hs.insert _ _

theorem Inv.handleEvents (hs : Inv sender now s) (events : List (Event D E))
    (hsent : ∀ e ∈ events, ∀ a, e.action = .insert a → a = sender e.txHash) :
    Inv sender now (s.handleEvents now events) := by
  induction events generalizing s with
  | nil => exact hs
  | cons e events ih =>
    have hstep := hs.handleEvent e (hsent e (List.mem_cons_self ..))
    exact ih hstep fun f hf => hsent f (List.mem_cons_of_mem _ hf)

/-! ### Removing a hash -/

@[simp] theorem State.status_remove (h : B256) : (s.remove h).status = s.status.erase h := by
  unfold State.remove
  split <;> rfl

@[simp] theorem State.evictionQueue_remove (h : B256) :
    (s.remove h).evictionQueue = s.evictionQueue := by
  unfold State.remove
  split <;> rfl

theorem State.hashAddress_remove (h x : B256) :
    (s.remove h).hashAddress x = if x = h then none else s.hashAddress x := by
  unfold State.remove
  split
  · next hnone =>
    split
    · next heq => rw [heq, hnone]
    · rfl
  · exact Function.update_apply ..

/-- A removed hash leaves its sender's set, and was in no other. -/
theorem State.Indexed.mem_hashesOf_remove (hs : s.Indexed) (h x : B256) (a : Address) :
    x ∈ (s.remove h).hashesOf a ↔ x ≠ h ∧ x ∈ s.hashesOf a := by
  unfold State.remove
  split
  · next hnone =>
    change x ∈ s.hashesOf a ↔ _
    refine ⟨fun hx => ⟨?_, hx⟩, And.right⟩
    rintro rfl
    rw [(hs x a).mp hx] at hnone
    exact Option.some_ne_none _ hnone
  · next b hb =>
    change x ∈ (Function.update s.addressHashes b _ a).getD ∅ ↔ _
    rw [Function.update_apply]
    split
    · next hab =>
      subst hab
      rw [State.hashesOf]
      cases s.addressHashes a with
      | none => simp
      | some hashes => exact Finset.mem_erase
    · next hab =>
      refine ⟨fun hx => ⟨?_, hx⟩, And.right⟩
      rintro rfl
      have hxa := (hs x a).mp hx
      exact hab (Option.some.inj (hxa.symm.trans hb))

theorem State.Indexed.remove (hs : s.Indexed) (h : B256) : (s.remove h).Indexed := by
  intro x a
  rw [hs.mem_hashesOf_remove, State.hashAddress_remove, hs x a]
  split
  · next heq => simp [heq]
  · next hne => exact and_iff_right hne

/-! ### Cleaning up -/

/-- The front of the queue is forgotten. -/
theorem Inv.pop {t : ℕ} {h : B256} {queue : List (ℕ × B256)}
    (hs : Inv sender now { s with evictionQueue := (t, h) :: queue }) :
    Inv sender now { s.remove h with evictionQueue := queue } where
  queue_nodup := (List.nodup_cons.mp hs.queue_nodup).2
  mem_queue x := by
    have hnot : h ∉ queue.map Prod.snd := (List.nodup_cons.mp hs.queue_nodup).1
    have hx : x = h ∨ x ∈ queue.map Prod.snd ↔ x ∈ s.status :=
      List.mem_cons.symm.trans (hs.mem_queue x)
    change _ ↔ x ∈ (s.remove h).status
    rw [State.status_remove, AList.mem_erase, ← hx]
    constructor
    · intro hmem
      exact ⟨fun heq => hnot (heq ▸ hmem), .inr hmem⟩
    · rintro ⟨hne, heq | hmem⟩
      · exact absurd heq hne
      · exact hmem
  queue_sorted := (List.pairwise_cons.mp hs.queue_sorted).2
  queue_le e he := hs.queue_le e (List.mem_cons_of_mem _ he)
  mem_status x a hx := by
    change (s.remove h).hashAddress x = some a at hx
    change x ∈ (s.remove h).status
    rw [State.hashAddress_remove] at hx
    rw [State.status_remove, AList.mem_erase]
    split at hx
    · exact absurd hx.symm (Option.some_ne_none a)
    · next hne => exact ⟨hne, hs.mem_status x a hx⟩
  indexed := State.Indexed.remove (s := s) hs.indexed h
  sent x a hx := by
    change (s.remove h).hashAddress x = some a at hx
    rw [State.hashAddress_remove] at hx
    split at hx
    · exact absurd hx.symm (Option.some_ne_none a)
    · exact hs.sent x a hx

/-- What is left of a sorted queue: the entries that are young. -/
theorem Inv.popExpired {queue : List (ℕ × B256)}
    (hs : Inv sender now { s with evictionQueue := queue }) :
    Inv sender now (s.popExpired now queue) ∧
      ∀ h st, (s.popExpired now queue).status.lookup h = some st ↔
        s.status.lookup h = some st ∧ ∀ t, (t, h) ∈ queue → now < t + txEvictDuration := by
  induction queue generalizing s with
  | nil => exact ⟨hs, fun h st => by simp [State.popExpired]⟩
  | cons e queue ih =>
    obtain ⟨t, h⟩ := e
    have hmem : h ∈ s.status := (hs.mem_queue h).mp (List.mem_cons_self ..)
    have hle : t ≤ now := hs.queue_le (t, h) (List.mem_cons_self ..)
    have hnot : h ∉ queue.map Prod.snd := (List.nodup_cons.mp hs.queue_nodup).1
    rw [State.popExpired, if_pos hmem]
    split
    · next hold =>
      obtain ⟨hinv, hkept⟩ := ih hs.pop
      refine ⟨hinv, fun x st => (hkept x st).trans ?_⟩
      rw [State.status_remove]
      by_cases hx : x = h
      · subst hx
        rw [AList.lookup_erase]
        refine ⟨fun hcon => absurd hcon.1.symm (Option.some_ne_none st), fun hcon => ?_⟩
        have hyoung := hcon.2 t (List.mem_cons_self ..)
        omega
      · rw [AList.lookup_erase_ne hx]
        refine and_congr_right fun _ => forall_congr' fun u => ?_
        rw [List.mem_cons, or_iff_right fun heq => hx (Prod.mk.inj heq).2]
    · next hyoung =>
      refine ⟨hs, fun x st => (and_iff_left ?_).symm⟩
      intro u hu
      rcases List.mem_cons.mp hu with heq | hmem
      · obtain ⟨rfl, -⟩ := Prod.mk.inj heq
        omega
      · have htu : t ≤ u := (List.pairwise_cons.mp hs.queue_sorted).1 (u, x) hmem
        omega

theorem Inv.cleanup (hs : Inv sender now s) : Inv sender now (s.cleanup now) :=
  { hs.popExpired.1 with
    indexed := fun h a => by
      refine Iff.trans ?_ (hs.popExpired.1.indexed h a)
      -- an address without an entry and one with an empty set have the same hashes
      change h ∈ (Option.filter _ ((s.popExpired now s.evictionQueue).addressHashes a)).getD ∅ ↔ _
      rw [State.hashesOf]
      cases (s.popExpired now s.evictionQueue).addressHashes a with
      | none => rfl
      | some hashes =>
        by_cases hempty : hashes = ∅
        · simp [Option.filter, hempty]
        · simp [Option.filter, hempty] }

/-- **A clean-up keeps exactly what is young.** -/
theorem Inv.lookup_cleanup (hs : Inv sender now s) (h : B256) (st : TxStatus D E) :
    (s.cleanup now).status.lookup h = some st ↔
      s.status.lookup h = some st ∧
        ∀ t, (t, h) ∈ s.evictionQueue → now < t + txEvictDuration :=
  hs.popExpired.2 h st

/-! ### Snapshots -/

/-- The keys `keys` of the status map have been compared with the snapshot `txs`. -/
structure Retained (now : ℕ) (keys txs : List B256) (s : State D E)
    (acc : List B256 × State D E) : Prop where
  /-- What is left of the snapshot has no status. -/
  left : acc.1 = txs.filter (· ∉ keys)
  queue : acc.2.evictionQueue =
    s.evictionQueue ++ (keys.filter (· ∈ txs)).map fun h => (now, h)
  lookup : ∀ h, acc.2.status.lookup h =
    if h ∈ keys then if h ∈ txs then some .tracked else none else s.status.lookup h
  hashAddress : ∀ h, acc.2.hashAddress h =
    if h ∈ keys ∧ h ∉ txs then none else s.hashAddress h
  indexed : acc.2.Indexed

theorem Retained.nil {txs : List B256} (hs : s.Indexed) : Retained now [] txs s (txs, s) where
  left := by simp
  queue := by simp
  lookup h := by simp
  hashAddress h := by simp
  indexed := hs

/-- One more key: it stays if the snapshot has it. -/
theorem Retained.snoc {keys txs : List B256} {acc : List B256 × State D E} {k : B256}
    (hacc : Retained now keys txs s acc) (hk : k ∉ keys) :
    Retained now (keys ++ [k]) txs s (State.retainTx now acc k) := by
  have hleft : k ∈ acc.1 ↔ k ∈ txs := by simp [hacc.left, hk]
  by_cases htx : k ∈ txs
  · rw [State.retainTx, if_pos (hleft.mpr htx)]
    refine ⟨?_, ?_, fun h => ?_, fun h => ?_, hacc.indexed⟩
    · simp only [hacc.left, List.filter_filter]
      exact List.filter_congr fun h _ => by simp [and_comm]
    · simp [hacc.queue, htx]
    · by_cases hh : h = k
      · subst hh
        simp [htx]
      · simp [AList.lookup_insert_ne hh, hacc.lookup h, hh]
    · by_cases hh : h = k
      · subst hh
        simp [hacc.hashAddress h, htx]
      · simp [hacc.hashAddress h, hh]
  · rw [State.retainTx, if_neg (mt hleft.mp htx)]
    refine ⟨?_, ?_, fun h => ?_, fun h => ?_, hacc.indexed.remove k⟩
    · rw [hacc.left]
      refine List.filter_congr fun h hh => ?_
      have hne : h ≠ k := fun heq => htx (heq ▸ hh)
      simp [hne]
    · simp [hacc.queue, htx]
    · rw [State.status_remove]
      by_cases hh : h = k
      · subst hh
        simp [htx]
      · simp [AList.lookup_erase_ne hh, hacc.lookup h, hh]
    · rw [State.hashAddress_remove]
      by_cases hh : h = k
      · subst hh
        simp [htx]
      · simp [hacc.hashAddress h, hh]

/-- **The status map has been compared with the snapshot.** -/
theorem Retained.foldl {txs : List B256} (hs : s.Indexed) (keys : List B256)
    (hkeys : keys.Nodup) :
    Retained now keys txs s (keys.foldl (State.retainTx now) (txs, s)) := by
  induction keys using List.reverseRecOn with
  | nil => exact .nil hs
  | append_singleton keys k ih =>
    rw [List.foldl_append]
    have hsplit := List.nodup_append.mp hkeys
    refine (ih hsplit.1).snoc fun hk => ?_
    exact hsplit.2.2 k hk k (List.mem_singleton_self k) rfl

/-- What is left of the snapshot is tracked. -/
theorem State.foldl_trackTx (txs : List B256) (s : State D E) :
    (txs.foldl (State.trackTx now) s).evictionQueue =
        s.evictionQueue ++ txs.map (fun h => (now, h)) ∧
      (∀ h, (txs.foldl (State.trackTx now) s).status.lookup h =
        if h ∈ txs then some .tracked else s.status.lookup h) ∧
      (txs.foldl (State.trackTx now) s).hashAddress = s.hashAddress ∧
      (txs.foldl (State.trackTx now) s).addressHashes = s.addressHashes := by
  induction txs generalizing s with
  | nil => simp
  | cons k txs ih =>
    obtain ⟨hqueue, hlookup, haddress, hhashes⟩ := ih (State.trackTx now s k)
    refine ⟨?_, fun h => ?_, haddress, hhashes⟩
    · rw [List.foldl_cons, hqueue]
      simp [State.trackTx]
    · rw [List.foldl_cons, hlookup h]
      by_cases hh : h = k
      · subst hh
        simp [State.trackTx]
      · simp [State.trackTx, AList.lookup_insert_ne hh, hh]

section Snapshot

variable (hs : Inv sender now s) (order : IterOrder B256) (snapshot : Snapshot)

include hs

/-- The keys of the status map, in the order of iteration, have been compared. -/
theorem Inv.retained :
    Retained now (order.order s.status.keys) snapshot.txs { s with evictionQueue := [] }
      ((order.order s.status.keys).foldl (State.retainTx now)
        (snapshot.txs, { s with evictionQueue := [] })) :=
  Retained.foldl (s := { s with evictionQueue := [] }) hs.indexed _
    (order.nodup_order s.status.keys_nodup)

/-- **A snapshot leaves exactly its hashes**, all tracked. -/
theorem Inv.lookup_applySnapshot (h : B256) :
    (s.applySnapshot now order snapshot).status.lookup h =
      if h ∈ snapshot.txs then some .tracked else none := by
  have hret := hs.retained order snapshot
  rw [State.applySnapshot, (State.foldl_trackTx _ _).2.1 h, hret.lookup h, hret.left]
  by_cases htx : h ∈ snapshot.txs
  · by_cases hkey : h ∈ s.status.keys
    · simp [htx, hkey]
    · simp [htx, hkey]
  · by_cases hkey : h ∈ s.status.keys
    · simp [htx, hkey]
    · have hnone : s.status.lookup h = none :=
        AList.lookup_eq_none.mpr (mt AList.mem_keys.mp hkey)
      simp [htx, hkey, hnone]

theorem Inv.mem_applySnapshot (h : B256) :
    h ∈ (s.applySnapshot now order snapshot).status ↔ h ∈ snapshot.txs := by
  rw [← AList.lookup_isSome, hs.lookup_applySnapshot order snapshot h]
  split
  · next htx => simp [htx]
  · next htx => simp [htx]

/-- The queue after a snapshot: the hashes that had a status, then the others. -/
theorem Inv.queue_applySnapshot :
    (s.applySnapshot now order snapshot).evictionQueue =
      ((order.order s.status.keys).filter (· ∈ snapshot.txs) ++
        snapshot.txs.filter (· ∉ order.order s.status.keys)).map fun h => (now, h) := by
  have hret := hs.retained order snapshot
  rw [State.applySnapshot, (State.foldl_trackTx _ _).1, hret.queue, hret.left, List.map_append,
    List.nil_append]

theorem Inv.hashAddress_applySnapshot (h : B256) :
    (s.applySnapshot now order snapshot).hashAddress h =
      if h ∈ s.status ∧ h ∉ snapshot.txs then none else s.hashAddress h := by
  rw [State.applySnapshot, (State.foldl_trackTx _ _).2.2.1,
    (hs.retained order snapshot).hashAddress h]
  simp only [IterOrder.mem_order, AList.mem_keys]

theorem Inv.applySnapshot : Inv sender now (s.applySnapshot now order snapshot) where
  queue_nodup := by
    rw [hs.queue_applySnapshot order snapshot, List.map_map]
    change (List.map id _).Nodup
    rw [List.map_id]
    refine ((order.nodup_order s.status.keys_nodup).filter _).append
      (snapshot.nodup.filter _) ?_
    intro h hkey htx
    exact (decide_eq_true_iff.mp (List.mem_filter.mp htx).2) (List.mem_filter.mp hkey).1
  mem_queue h := by
    rw [hs.mem_applySnapshot, hs.queue_applySnapshot order snapshot, List.map_map]
    change h ∈ List.map id _ ↔ _
    rw [List.map_id, List.mem_append, List.mem_filter, List.mem_filter, decide_eq_true_iff,
      decide_eq_true_iff]
    by_cases hkey : h ∈ order.order s.status.keys
    · simp [hkey]
    · simp [hkey]
  queue_sorted := by
    rw [hs.queue_applySnapshot order snapshot]
    exact List.pairwise_map.mpr (List.pairwise_of_forall fun _ _ => le_rfl)
  queue_le e he := by
    rw [hs.queue_applySnapshot order snapshot] at he
    obtain ⟨h, -, rfl⟩ := List.mem_map.mp he
    exact le_rfl
  mem_status h a ha := by
    rw [hs.hashAddress_applySnapshot] at ha
    rw [hs.mem_applySnapshot]
    split at ha
    · exact absurd ha.symm (Option.some_ne_none a)
    · next hnot =>
      by_contra htx
      exact hnot ⟨hs.mem_status h a ha, htx⟩
  indexed h a := by
    have hret := (hs.retained order snapshot).indexed h a
    rw [State.hashesOf] at hret ⊢
    rw [State.applySnapshot, (State.foldl_trackTx _ _).2.2.1, (State.foldl_trackTx _ _).2.2.2]
    exact hret
  sent h a ha := by
    rw [hs.hashAddress_applySnapshot] at ha
    split at ha
    · exact absurd ha.symm (Option.some_ne_none a)
    · exact hs.sent h a ha

end Snapshot

/-! ### Sequences of operations -/

/-- One operation, not earlier than the last one. -/
theorem Inv.apply (hs : Inv sender now s) (op : Op D E) (hle : now ≤ op.time)
    (hsent : op.SentBy sender) : Inv sender op.time (op.apply s) := by
  have hs := hs.mono hle
  cases op with
  | addTx now h => exact hs.addTx h
  | handleEvents now events => exact hs.handleEvents events hsent
  | applySnapshot now order snapshot => exact hs.applySnapshot order snapshot
  | cleanup now => exact hs.cleanup

/-- **The invariant holds after every sequence of operations** with nondecreasing times. -/
theorem Inv.foldl (hs : Inv sender now s) (ops : List (Op D E)) {later : ℕ}
    (hsorted : ops.Pairwise fun o p => o.time ≤ p.time) (hle : ∀ op ∈ ops, now ≤ op.time)
    (hlater : ∀ op ∈ ops, op.time ≤ later) (hnow : now ≤ later)
    (hsent : ∀ op ∈ ops, op.SentBy sender) : Inv sender later (ops.foldl Op.apply s) := by
  induction ops generalizing now s with
  | nil => exact hs.mono hnow
  | cons op ops ih =>
    have hmem : op ∈ op :: ops := List.mem_cons_self ..
    obtain ⟨hhead, htail⟩ := List.pairwise_cons.mp hsorted
    exact ih (hs.apply op (hle op hmem) (hsent op hmem)) htail hhead
      (fun o ho => hlater o (List.mem_cons_of_mem _ ho)) (hlater op hmem)
      (fun o ho => hsent o (List.mem_cons_of_mem _ ho))

theorem Inv.run {ops : List (Op D E)} {later : ℕ}
    (hsorted : ops.Pairwise fun o p => o.time ≤ p.time) (hlater : ∀ op ∈ ops, op.time ≤ later)
    (hsent : ∀ op ∈ ops, op.SentBy sender) : Inv sender later (run ops) :=
  Inv.empty.foldl ops hsorted (fun _ _ => Nat.zero_le _) hlater (Nat.zero_le _) hsent

/-- The statuses of an address are those of its hashes. -/
theorem Inv.getStatusByAddress_eq_some (hs : Inv sender now s) {a : Address}
    {statuses : B256 → Option (TxStatus D E)} (hget : s.getStatusByAddress a = some statuses)
    (h : B256) :
    statuses h = if s.hashAddress h = some a then s.getStatusByHash h else none := by
  obtain ⟨hashes, hhashes, hstatuses⟩ : ∃ hashes, s.addressHashes a = some hashes ∧
      some (fun h => if h ∈ hashes then s.status.lookup h else none) = some statuses :=
    Option.bind_eq_some_iff.mp hget
  obtain rfl := Option.some.inj hstatuses
  have hmem : h ∈ hashes ↔ s.hashAddress h = some a := by
    rw [← hs.indexed h a, State.hashesOf, hhashes, Option.getD_some]
  simp only [hmem, State.getStatusByHash]

/-- An address without an entry has no hash. -/
theorem Inv.getStatusByAddress_eq_none (hs : Inv sender now s) {a : Address}
    (hget : s.getStatusByAddress a = none) (h : B256) : s.hashAddress h ≠ some a := by
  have hnone : s.addressHashes a = none := by
    cases hhashes : s.addressHashes a with
    | none => rfl
    | some hashes => simp [State.getStatusByAddress, hhashes] at hget
  rw [Ne, ← hs.indexed h a, State.hashesOf, hnone]
  exact Finset.notMem_empty h

/-- **The bookkeeping is exact after every sequence of operations** with nondecreasing times in
which every insertion of a hash names its sender. -/
theorem run_sound (sender : B256 → Address) (ops : List (Op D E))
    (hsorted : ops.Pairwise fun o p => o.time ≤ p.time)
    (hsent : ∀ op ∈ ops, op.SentBy sender) :
    -- the queue has each key of the status map once, in order of time
    ((run ops).evictionQueue.map Prod.snd).Perm (run ops).status.keys ∧
    ((run ops).evictionQueue.map Prod.fst).Pairwise (· ≤ ·) ∧
    -- the address maps agree, on hashes with a status
    (∀ h a, (run ops).hashAddress h = some a → h ∈ (run ops).status) ∧
    (∀ h a, (∃ hashes, (run ops).addressHashes a = some hashes ∧ h ∈ hashes) ↔
      (run ops).hashAddress h = some a) ∧
    -- the statuses of an address
    (∀ a statuses, (run ops).getStatusByAddress a = some statuses → ∀ h, statuses h =
      if (run ops).hashAddress h = some a then (run ops).getStatusByHash h else none) ∧
    (∀ a, (run ops).getStatusByAddress a = none → ∀ h, (run ops).hashAddress h ≠ some a) ∧
    -- a clean-up at a later time keeps exactly what is less than a quarter of an hour old
    (∀ now, (∀ op ∈ ops, op.time ≤ now) → ∀ h st,
      ((run ops).cleanup now).getStatusByHash h = some st ↔
        (run ops).getStatusByHash h = some st ∧
          ∀ t, (t, h) ∈ (run ops).evictionQueue → now < t + txEvictDuration) ∧
    -- a snapshot at a later time leaves exactly its hashes
    (∀ now, (∀ op ∈ ops, op.time ≤ now) → ∀ order snapshot h,
      ((run ops).applySnapshot now order snapshot).getStatusByHash h =
        if h ∈ snapshot.txs then some .tracked else none) := by
  have hrun : ∀ now, (∀ op ∈ ops, op.time ≤ now) → Inv sender now (run ops) :=
    fun now hnow => Inv.run hsorted hnow hsent
  obtain ⟨last, hlast⟩ : ∃ last, ∀ op ∈ ops, op.time ≤ last :=
    ⟨(ops.map Op.time).sum, fun op hop =>
      List.single_le_sum (fun _ _ => Nat.zero_le _) _ (List.mem_map_of_mem hop)⟩
  have hinv := hrun last hlast
  refine ⟨hinv.queue_perm, List.pairwise_map.mpr hinv.queue_sorted, hinv.mem_status,
    fun h a => ?_, fun a statuses hget h => hinv.getStatusByAddress_eq_some hget h,
    fun a hget h => hinv.getStatusByAddress_eq_none hget h,
    fun now hnow => (hrun now hnow).lookup_cleanup,
    fun now hnow order snapshot => (hrun now hnow).lookup_applySnapshot order snapshot⟩
  rw [← hinv.indexed h a, State.hashesOf]
  cases (run ops).addressHashes a with
  | none => simp
  | some hashes => simp

end Invariant

/-! ### A run -/

/-- The pool starts with one transaction, reports an insertion and an eviction, and another
transaction is sent to it. -/
def briefOps : List (Op Unit Unit) :=
  [.applySnapshot 0 (inOrder B256) ⟨[word 1], List.nodup_singleton _⟩,
    .handleEvents 1 [⟨word 2, .insert zeroAddress⟩, ⟨word 1, .evict ()⟩],
    .addTx 2 (word 3)]

/-- A quarter of an hour after the insertion the inserted hash is forgotten, and the hash that was
sent afterwards is not. -/
theorem run_sound_brief :
    ((run briefOps).evictionQueue.map Prod.snd).Perm (run briefOps).status.keys ∧
      ((run briefOps).cleanup (1 + txEvictDuration)).getStatusByHash (word 2) ≠ some .tracked ∧
      ((run briefOps).cleanup (1 + txEvictDuration)).getStatusByHash (word 3) = some .unknown := by
  have hsorted : briefOps.Pairwise fun o p => o.time ≤ p.time := by
    simp [briefOps, Op.time]
  have hsent : ∀ op ∈ briefOps, op.SentBy fun _ => zeroAddress := by
    simp only [briefOps, List.forall_mem_cons, Op.SentBy]
    exact ⟨trivial, ⟨fun a ha => (EventType.insert.inj ha).symm, by simp⟩, trivial, by simp⟩
  have hnow : ∀ op ∈ briefOps, op.time ≤ 1 + txEvictDuration := by
    simp [briefOps, Op.time, txEvictDuration]
  have hqueue : (run briefOps).evictionQueue = [(0, word 1), (1, word 2), (2, word 3)] := by
    decide +kernel
  have hthird : (run briefOps).getStatusByHash (word 3) = some .unknown := by
    decide +kernel
  obtain ⟨hperm, -, -, -, -, -, hcleanup, -⟩ := run_sound _ briefOps hsorted hsent
  refine ⟨hperm, fun hcon => ?_, ?_⟩
  · have hyoung := ((hcleanup _ hnow (word 2) .tracked).mp hcon).2 1 (by simp [hqueue])
    omega
  · refine (hcleanup _ hnow (word 3) .unknown).mpr ⟨hthird, fun t ht => ?_⟩
    have hne : word 3 ≠ word 1 ∧ word 3 ≠ word 2 := by decide
    obtain rfl : t = 2 := by simpa [hqueue, hne] using ht
    omega

end TxPool

end Rpc

end MonadServices
