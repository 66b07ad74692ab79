import MonadServices.Lib.Slots
import MonadServices.Rpc.TxPoolState
import Mathlib.Logic.Relation

/-!
# The channel to the transaction pool

A call of `submit_to_txpool` takes a guard, that is, a clone of a counter, sends its transaction
through a bounded channel without waiting for room, and waits, for a second each, for the receiver
of its status and for a change of it. The guard is given back when the call returns. The bridge
takes the transactions out of the channel, and may be slow or without a connection at any time.

The counter counts the guards and the handles of the client, of which there is at least one, and a
guard is refused when there are more of them than the channel has room: fewer guards than that are
out at a time, and the channel was to have room for the transaction of everyone who has one. But a
call that has waited for too long returns and leaves its transaction behind, where no guard counts
it. **While the bridge does not take anything out, calls that come and go fill the channel**
(`MonadServices.Rpc.TxPoolBridge.fillsUp`), and the next one has the guard and finds it full
(`MonadServices.Rpc.TxPoolBridge.not_neverFull`).

What the guard does bound is the number of those who have one. When a guard is given out only while
these and the transactions that were left behind are together fewer than the channel has room for,
**the channel has room for everyone who has a guard**
(`MonadServices.Rpc.TxPoolBridge.neverFull_of_clear`). The counter sees to it as long as no more
were left behind than there are handles
(`MonadServices.Rpc.TxPoolBridge.System.clear_of_leftBehind_le`).
-/

namespace MonadServices

namespace Rpc

namespace TxPoolBridge

open TxPool (TxStatus)

variable {D E : Type}

/-! ### A call of `submit_to_txpool` -/

section Submit

/-- The number of the transactions that the channel holds. -/
def ethTxpoolBridgeChannelSize : ℕ := 1024

/-- Why the channel gave a transaction back. -/
inductive TrySendError where
  | full
  | disconnected

/-- What a call has got through its oneshot channel. -/
inductive Reply where
  | pending
  /-- The receiver of the status of the transaction. -/
  | sent
  /-- The other end was dropped. -/
  | dropped

/-- The errors that a call returns. -/
inductive SubmitError where
  | overloaded
  | serverError (message : String)

/-- How far a call is. -/
inductive Pc where
  /-- The counter has been cloned, its value not yet looked at. -/
  | cloned
  /-- The call has the guard. -/
  | guarded
  /-- The transaction was sent, and the receiver of its status is waited for. -/
  | waiting (reply : Reply)
  /-- A change of the status is waited for. -/
  | watching
  | returned (result : Except SubmitError Unit)
  /-- The transaction was given back. The error is logged, and the call returns that the server is
  overloaded. -/
  | failed (err : TrySendError)

/-- How the wait for a change of the status ends. -/
inductive WaitEnd where
  | changed
  /-- The sender of the status was dropped. -/
  | closed
  | elapsed

/-- What a call returns for the status that it has got in the end. -/
def submitResult (asUserString : D → String) :
    WaitEnd → TxStatus D E → Except SubmitError Unit
  | .closed, .unknown => .error .overloaded
  | .closed, _ => .error (.serverError "rpc no longer tracking tx")
  | _, .evicted _ => .error (.serverError "rejected")
  | _, .dropped reason => .error (.serverError (asUserString reason))
  | _, .tracked => .ok ()
  | _, .committed => .ok ()
  | _, .unknown => .error .overloaded

/-- The call looks at the counter. -/
def Pc.acquire (strongCount capacity : ℕ) : Pc → Option Pc
  | .cloned =>
    some (if capacity < strongCount then .returned (.error .overloaded) else .guarded)
  | _ => none

/-- The call hears of its transaction. -/
def Pc.hear : Pc → Option Pc
  | .waiting .sent => some .watching
  | .waiting .dropped => some (.returned (.error .overloaded))
  | _ => none

/-- A second has passed, and the call has heard nothing. -/
def Pc.timeOut : Pc → Option Pc
  | .waiting .pending => some (.returned (.error .overloaded))
  | _ => none

/-- The wait for a change of the status is over. -/
def Pc.finish (result : Except SubmitError Unit) : Pc → Option Pc
  | .watching => some (.returned result)
  | _ => none

/-- The call has a clone of the counter. -/
def Pc.holds : Pc → Bool
  | .cloned | .guarded | .waiting _ | .watching => true
  | .returned _ | .failed _ => false

/-- The call has the guard. -/
def Pc.hasGuard : Pc → Bool
  | .guarded | .waiting _ | .watching => true
  | .cloned | .returned _ | .failed _ => false

def Pc.hasReturned : Pc → Bool
  | .returned _ => true
  | _ => false

/-- The call has sent its transaction, and nothing has come back so far. -/
def Pc.HasSent : Pc → Prop
  | .waiting .pending | .returned _ => True
  | _ => False

end Submit

/-! ### The client, the channel and the bridge -/

section System

/-- How far the task of the bridge is. -/
inductive Bridge where
  /-- It has a connection to the pool and waits for something to happen. -/
  | selecting
  /-- It has received a transaction, and the rest of the channel is to be drained. -/
  | received (i : ℕ)
  /-- The transactions that are still to be fed to the pool. -/
  | feeding (txs : List ℕ)
  /-- It waits for the socket of the pool. -/
  | reconnecting
  | stopped

/-- The transactions that the bridge has taken out of the channel. -/
def Bridge.txs : Bridge → List ℕ
  | .received i => [i]
  | .feeding txs => txs
  | _ => []

/-- **The system**: the client, the calls, the channel and the bridge. A transaction is named by
the number of its call. -/
structure System where
  capacity : ℕ
  /-- The clones of the client. -/
  handles : ℕ
  submitters : List Pc
  channel : List ℕ
  bridge : Bridge

/-- The system at its start. -/
def System.new (capacity : ℕ) : System := ⟨capacity, 1, [], [], .selecting⟩

/-- The value of the counter: the client in each of its clones has one reference. -/
def System.strongCount (s : System) : ℕ := s.handles + s.submitters.countP Pc.holds

/-- The number of the guards that are out. -/
def System.guards (s : System) : ℕ := s.submitters.countP Pc.hasGuard

/-- The number of the transactions in the channel whose calls have returned. -/
def System.leftBehind (s : System) : ℕ :=
  s.channel.countP fun i => s.submitters[i]?.any Pc.hasReturned

/-- What may happen. -/
inductive Event (D E : Type) where
  | cloneClient
  | dropClient
  /-- A new call clones the counter. -/
  | submit
  | acquire (i : ℕ)
  | trySend (i : ℕ)
  | hear (i : ℕ)
  | timeOut (i : ℕ)
  | finish (i : ℕ) (waitEnd : WaitEnd) (status : TxStatus D E)
  /-- The bridge receives a transaction. -/
  | receive
  | drain
  | feed
  | flush
  /-- The pool is gone and the bridge does not get a new connection. -/
  | disconnect
  /-- The bridge has a connection again, and drops what is in the channel. -/
  | reconnect
  /-- The task of the bridge ends. -/
  | stop

def System.setPc (s : System) (i : ℕ) (pc : Pc) : System :=
  { s with submitters := s.submitters.set i pc }

/-- One of the calls goes on. -/
def System.move (s : System) (i : ℕ) (f : Pc → Option Pc) : Option System :=
  (s.submitters[i]?.bind f).map (s.setPc i)

/-- Something comes through the oneshot channel of a call, if it is still there to hear of it. -/
def System.deliver (reply : Reply) (s : System) (i : ℕ) : System :=
  match s.submitters[i]? with
  | some (.waiting .pending) => s.setPc i (.waiting reply)
  | _ => s

/-- A transaction is put into the channel. -/
def System.trySend (s : System) (i : ℕ) : Except TrySendError System :=
  match s.bridge with
  | .stopped => .error .disconnected
  | _ => if s.channel.length < s.capacity then .ok { s with channel := s.channel ++ [i] }
    else .error .full

/-- **One step of the system.** -/
def System.step (asUserString : D → String) (s : System) : Event D E → Option System
  | .cloneClient => if 0 < s.handles then some { s with handles := s.handles + 1 } else none
  -- A call borrows the client, so that the last clone stays as long as there is one.
  | .dropClient =>
    if 1 < s.handles ∨ s.handles = 1 ∧ s.submitters.countP Pc.holds = 0 then
      some { s with handles := s.handles - 1 }
    else none
  | .submit =>
    if 0 < s.handles then some { s with submitters := s.submitters ++ [.cloned] } else none
  | .acquire i => s.move i (Pc.acquire s.strongCount s.capacity)
  | .trySend i =>
    match s.submitters[i]?, s.trySend i with
    | some .guarded, .ok s' => some (s'.setPc i (.waiting .pending))
    | some .guarded, .error err => some (s.setPc i (.failed err))
    | _, _ => none
  | .hear i => s.move i Pc.hear
  | .timeOut i => s.move i Pc.timeOut
  | .finish i waitEnd status => s.move i (Pc.finish (submitResult asUserString waitEnd status))
  | .receive =>
    match s.bridge, s.channel with
    | .selecting, i :: channel => some { s with channel, bridge := .received i }
    | _, _ => none
  | .drain =>
    match s.bridge with
    | .received i => some { s with channel := [], bridge := .feeding (i :: s.channel) }
    | _ => none
  | .feed =>
    match s.bridge with
    | .feeding (i :: txs) => some (System.deliver .sent { s with bridge := .feeding txs } i)
    | _ => none
  | .flush =>
    match s.bridge with
    | .feeding [] => some { s with bridge := .selecting }
    | _ => none
  | .disconnect =>
    match s.bridge with
    | .selecting => some { s with bridge := .reconnecting }
    | _ => none
  | .reconnect =>
    match s.bridge with
    | .reconnecting =>
      some (s.channel.foldl (System.deliver .dropped)
        { s with channel := [], bridge := .selecting })
    | _ => none
  | .stop =>
    match s.bridge with
    | .selecting | .reconnecting => some { s with bridge := .stopped }
    | _ => none

/-- A step by an event of which `allowed` holds in the state before it. -/
def System.Step (asUserString : D → String) (allowed : System → Event D E → Prop)
    (s s' : System) : Prop :=
  ∃ e, allowed s e ∧ s.step asUserString e = some s'

/-- No call has had the guard and found the channel full. -/
def System.NeverFull (s : System) : Prop := ∀ i : ℕ, s.submitters[i]? ≠ some (.failed .full)

/-- The condition on the steps: a guard is given out only while the channel has room for the
transactions of those who have one and for what was left behind in it, and for one more. -/
def System.Clear (s : System) : Event D E → Prop
  | .acquire _ => s.strongCount ≤ s.capacity → s.guards + s.leftBehind < s.capacity
  | _ => True

end System

/-! ### What the guard bounds -/

section Bound

variable {asUserString : D → String} {s s' : System} {i : ℕ} {pc pc' : Pc}

/-- The transactions that have been sent and not yet been dealt with. -/
def System.sent (s : System) : List ℕ := s.bridge.txs ++ s.channel

/-- **What the steps keep**: no transaction is there twice, those who have sent one wait for it or
have returned, and the guards and the transactions that were left behind are together no more than
the channel has room for. -/
structure System.Inv (s : System) : Prop where
  nodup : s.sent.Nodup
  hasSent : ∀ i ∈ s.sent, ∃ pc, s.submitters[i]? = some pc ∧ pc.HasSent
  load : s.guards + s.leftBehind ≤ s.capacity
  neverFull : s.NeverFull

theorem System.inv_new (capacity : ℕ) : (System.new capacity).Inv :=
  ⟨List.nodup_nil, fun _ hi => absurd hi List.not_mem_nil, Nat.zero_le _,
    fun _ h => by cases h⟩

theorem System.Inv.nodup_channel (h : s.Inv) : s.channel.Nodup :=
  (List.nodup_append.mp h.nodup).2.1

/-- Transactions may be taken away from those that have been sent. -/
theorem System.Inv.take {channel : List ℕ} {bridge : Bridge} (h : s.Inv)
    (hsent : (bridge.txs ++ channel).Sublist s.sent) (hchannel : channel.Sublist s.channel) :
    System.Inv { s with channel, bridge } where
  nodup := h.nodup.sublist hsent
  hasSent i hi := h.hasSent i (hsent.subset hi)
  load := (Nat.add_le_add_left hchannel.countP_le _).trans h.load
  neverFull := h.neverFull

/-- One call goes from one point to another. A transaction that is on its way stays one that was
sent, and the guard is given back before the transaction counts as left behind. -/
theorem System.Inv.setPc (h : s.Inv) (hpc : s.submitters[i]? = some pc)
    (hsent : i ∈ s.sent → pc'.HasSent) (hfull : pc' ≠ .failed .full)
    (hload : (s.setPc i pc').guards + (s.setPc i pc').leftBehind ≤ s.capacity) :
    (s.setPc i pc').Inv where
  nodup := h.nodup
  hasSent j hj := by
    rcases eq_or_ne i j with rfl | hne
    · exact ⟨pc', List.getElem?_set_self (List.getElem?_eq_some_iff.mp hpc).1, hsent hj⟩
    · obtain ⟨pc₁, hpc₁, hhas⟩ := h.hasSent j hj
      exact ⟨pc₁, (List.getElem?_set_ne hne).trans hpc₁, hhas⟩
  load := hload
  neverFull j := by
    rcases eq_or_ne i j with rfl | hne
    · rw [System.setPc, List.getElem?_set_self (List.getElem?_eq_some_iff.mp hpc).1]
      exact fun heq => hfull (Option.some.inj heq)
    · rw [System.setPc, List.getElem?_set_ne hne]
      exact h.neverFull j

/-- A move of a call whose transaction stays sent, and that gives its guard back before its
transaction may be left behind. -/
structure Pc.Keeps (pc pc' : Pc) : Prop where
  hasSent : pc.HasSent → pc'.HasSent
  notFull : pc' ≠ .failed .full
  load : pc'.hasGuard.toNat + pc'.hasReturned.toNat ≤ pc.hasGuard.toNat

theorem Pc.keeps_hear (h : pc.hear = some pc') : pc.Keeps pc' := by
  cases pc with
  | waiting reply =>
    cases reply with
    | pending => cases h
    | sent => cases h; exact ⟨False.elim, Pc.noConfusion, le_rfl⟩
    | dropped => cases h; exact ⟨False.elim, Pc.noConfusion, le_rfl⟩
  | _ => cases h

theorem Pc.keeps_timeOut (h : pc.timeOut = some pc') : pc.Keeps pc' := by
  cases pc with
  | waiting reply =>
    cases reply with
    | pending => cases h; exact ⟨fun _ => trivial, Pc.noConfusion, le_rfl⟩
    | _ => cases h
  | _ => cases h

theorem Pc.keeps_finish {result : Except SubmitError Unit} (h : pc.finish result = some pc') :
    pc.Keeps pc' := by
  cases pc with
  | watching => cases h; exact ⟨False.elim, Pc.noConfusion, le_rfl⟩
  | _ => cases h

theorem System.move_eq_some {f : Pc → Option Pc} :
    s.move i f = some s' ↔
      ∃ pc pc', s.submitters[i]? = some pc ∧ f pc = some pc' ∧ s.setPc i pc' = s' := by
  rw [System.move, Option.map_eq_some_iff]
  constructor
  · rintro ⟨pc', hbind, rfl⟩
    obtain ⟨pc, hpc, hf⟩ := Option.bind_eq_some_iff.mp hbind
    exact ⟨pc, pc', hpc, hf, rfl⟩
  · rintro ⟨pc, pc', hpc, hf, rfl⟩
    exact ⟨pc', Option.bind_eq_some_iff.mpr ⟨pc, hpc, hf⟩, rfl⟩

/-- What one call changes in the number of the guards. -/
theorem System.guards_setPc (pc' : Pc) (hpc : s.submitters[i]? = some pc) :
    (s.setPc i pc').guards + pc.hasGuard.toNat = s.guards + pc'.hasGuard.toNat :=
  countP_set_add Pc.hasGuard pc' hpc

/-- What one call changes in the number of the transactions that were left behind. -/
theorem System.leftBehind_setPc_le (h : s.Inv) (i : ℕ) (pc' : Pc) :
    (s.setPc i pc').leftBehind ≤ s.leftBehind + pc'.hasReturned.toNat :=
  countP_any_set_le Pc.hasReturned pc' h.nodup_channel

/-- A call that gives its guard back may leave its transaction behind. -/
theorem System.Inv.load_setPc (h : s.Inv) (hpc : s.submitters[i]? = some pc)
    (hle : pc'.hasGuard.toNat + pc'.hasReturned.toNat ≤ pc.hasGuard.toNat) :
    (s.setPc i pc').guards + (s.setPc i pc').leftBehind ≤ s.capacity := by
  have hguards := System.guards_setPc pc' hpc
  have hleft := System.leftBehind_setPc_le h i pc'
  have hload := h.load
  omega

/-- The transaction of a call that has not sent it, or has heard of it, is not on its way. -/
theorem System.Inv.notMem_sent (h : s.Inv) (hpc : s.submitters[i]? = some pc)
    (hnot : ¬pc.HasSent) : i ∉ s.sent := by
  intro hi
  obtain ⟨pc₁, hpc₁, hhas⟩ := h.hasSent i hi
  rw [hpc] at hpc₁
  cases hpc₁
  exact hnot hhas

theorem System.Inv.move {f : Pc → Option Pc} (h : s.Inv) (hstep : s.move i f = some s')
    (hf : ∀ pc pc', f pc = some pc' → pc.Keeps pc') : s'.Inv := by
  obtain ⟨pc, pc', hpc, hpc', rfl⟩ := System.move_eq_some.mp hstep
  have hkeeps := hf pc pc' hpc'
  refine h.setPc hpc (fun hi => ?_) hkeeps.notFull (h.load_setPc hpc hkeeps.load)
  by_contra hnot
  exact h.notMem_sent hpc (fun hhas => hnot (hkeeps.hasSent hhas)) hi

/-- **The counter leaves room for as many as there are clones of the client**: a guard is given
out as the condition says while no more transactions than that were left behind. -/
theorem System.clear_of_leftBehind_le (hpc : s.submitters[i]? = some .cloned)
    (hle : s.leftBehind ≤ s.handles) : s.Clear (.acquire i : Event D E) := by
  intro hroom
  -- The guard that is to be given out is one of the references that are counted.
  have hguards := System.guards_setPc .guarded hpc
  have hholds := countP_set_add Pc.holds .guarded hpc
  have hcounted : (s.setPc i .guarded).guards ≤ (s.submitters.set i .guarded).countP Pc.holds := by
    refine List.countP_mono_left fun pc _ hguard => ?_
    cases pc with
    | cloned => cases hguard
    | returned result => cases hguard
    | failed err => cases hguard
    | _ => rfl
  simp only [Pc.hasGuard, Pc.holds, Bool.toNat_true, Bool.toNat_false] at hguards hholds
  rw [System.strongCount] at hroom
  omega

theorem System.Inv.acquire (h : s.Inv)
    (hstep : s.move i (Pc.acquire s.strongCount s.capacity) = some s')
    (hclear : s.strongCount ≤ s.capacity → s.guards + s.leftBehind < s.capacity) : s'.Inv := by
  obtain ⟨pc, pc', hpc, hacquire, rfl⟩ := System.move_eq_some.mp hstep
  have hcloned : pc = .cloned := by
    cases pc with
    | cloned => rfl
    | _ => cases hacquire
  subst hcloned
  have hi : i ∉ s.sent := h.notMem_sent hpc id
  have hguards := System.guards_setPc pc' hpc
  have hleft : (s.setPc i pc').leftBehind = s.leftBehind :=
    countP_any_set_of_notMem Pc.hasReturned pc' fun hmem => hi (List.mem_append_right _ hmem)
  rw [Pc.acquire, Option.some.injEq] at hacquire
  split at hacquire
  · subst hacquire
    refine h.setPc hpc (fun hmem => absurd hmem hi) Pc.noConfusion ?_
    rw [hleft, Nat.add_right_cancel hguards]
    exact h.load
  · rename_i hroom
    subst hacquire
    refine h.setPc hpc (fun hmem => absurd hmem hi) Pc.noConfusion ?_
    rw [hleft, show (s.setPc i .guarded).guards = s.guards + 1 from hguards, Nat.add_right_comm]
    exact hclear (Nat.le_of_not_lt hroom)

/-- **There is room in the channel** for the transaction of a call that has the guard: what is in
there was left behind or belongs to another one with a guard. -/
theorem System.Inv.room (h : s.Inv) (hpc : s.submitters[i]? = some .guarded) :
    s.channel.length < s.capacity := by
  let waits : ℕ → Bool := fun j => decide ¬s.submitters[j]?.any Pc.hasReturned = true
  have hi : i ∉ s.sent := h.notMem_sent hpc id
  have hguards : (i :: s.channel.filter waits).length ≤ s.guards := by
    refine length_le_countP (List.nodup_cons.mpr ⟨fun hmem => hi ?_, h.nodup_channel.filter _⟩)
      fun j hj => ?_
    · exact List.mem_append_right _ (List.mem_filter.mp hmem).1
    rcases List.mem_cons.mp hj with rfl | hj
    · exact ⟨.guarded, hpc, rfl⟩
    obtain ⟨hchannel, hwaits⟩ := List.mem_filter.mp hj
    obtain ⟨pc, hpc, hhas⟩ := h.hasSent j (List.mem_append_right _ hchannel)
    refine ⟨pc, hpc, ?_⟩
    cases pc with
    | waiting reply => rfl
    | returned result => exact absurd (hpc ▸ rfl) (of_decide_eq_true hwaits)
    | _ => cases hhas
  have hsplit : s.channel.length = s.leftBehind + (s.channel.filter waits).length := by
    rw [← List.countP_eq_length_filter]
    exact List.length_eq_countP_add_countP _
  rw [List.length_cons] at hguards
  have := h.load
  omega

/-- A call that has sent its transaction waits for it. -/
theorem System.Inv.send (h : s.Inv) (hpc : s.submitters[i]? = some .guarded) :
    (System.setPc { s with channel := s.channel ++ [i] } i (.waiting .pending)).Inv := by
  have hi : i ∉ s.sent := h.notMem_sent hpc id
  have hlt := (List.getElem?_eq_some_iff.mp hpc).1
  have hwaiting : (s.setPc i (.waiting .pending)).submitters[i]? = some (.waiting .pending) :=
    List.getElem?_set_self hlt
  have hset : (s.setPc i (.waiting .pending)).Inv :=
    h.setPc hpc (fun hmem => absurd hmem hi) Pc.noConfusion (h.load_setPc hpc le_rfl)
  refine ⟨?_, fun j hj => ?_, ?_, hset.neverFull⟩
  · show (s.bridge.txs ++ (s.channel ++ [i])).Nodup
    rw [← List.append_assoc]
    exact List.nodup_append.mpr ⟨h.nodup, List.nodup_singleton i, fun j hj k hk => by
      rw [List.mem_singleton.mp hk]
      exact ne_of_mem_of_not_mem hj hi⟩
  · have hj : j ∈ s.bridge.txs ++ (s.channel ++ [i]) := hj
    rw [← List.append_assoc] at hj
    rcases List.mem_append.mp hj with hj | hj
    · exact hset.hasSent j hj
    · rw [List.mem_singleton.mp hj]
      exact ⟨.waiting .pending, hwaiting, trivial⟩
  · show (s.setPc i (.waiting .pending)).guards + (s.channel ++ [i]).countP _ ≤ s.capacity
    rw [List.countP_append, List.countP_singleton]
    show _ + (_ + if ((s.setPc i (.waiting .pending)).submitters[i]?.any Pc.hasReturned) = true
      then 1 else 0) ≤ _
    rw [hwaiting]
    exact hset.load

/-- Something is sent through the oneshot channel of a call whose transaction has been taken
out. -/
theorem System.Inv.deliver {reply : Reply} (h : s.Inv) (hi : i ∉ s.sent) :
    (s.deliver reply i).Inv := by
  rw [System.deliver]
  split
  · rename_i hpc
    exact h.setPc hpc (fun hmem => absurd hmem hi) Pc.noConfusion (h.load_setPc hpc le_rfl)
  · exact h

theorem System.Inv.deliverAll {reply : Reply} {queue : List ℕ} (h : s.Inv)
    (hqueue : ∀ i ∈ queue, i ∉ s.sent) : (queue.foldl (System.deliver reply) s).Inv := by
  induction queue generalizing s with
  | nil => exact h
  | cons i queue ih =>
    refine ih (h.deliver (hqueue i List.mem_cons_self)) fun j hj => ?_
    have hsent : (s.deliver reply i).sent = s.sent := by
      rw [System.deliver]
      split <;> rfl
    rw [hsent]
    exact hqueue j (List.mem_cons_of_mem i hj)

theorem System.Inv.trySend
    (h : s.Inv) (hstep : s.step asUserString (.trySend i : Event D E) = some s') : s'.Inv := by
  rw [System.step] at hstep
  split at hstep
  · rename_i s₁ hpc hsend
    have hs₁ : s₁ = { s with channel := s.channel ++ [i] } := by
      rw [System.trySend] at hsend
      split at hsend
      · cases hsend
      · split at hsend
        · cases hsend
          rfl
        · cases hsend
    rw [Option.some.injEq] at hstep
    rw [← hstep, hs₁]
    exact h.send hpc
  · rename_i err hpc hsend
    have hroom := h.room hpc
    have herr : err ≠ .full := by
      rintro rfl
      rw [System.trySend] at hsend
      split at hsend
      · cases hsend
      · rw [if_pos hroom] at hsend
        cases hsend
    rw [Option.some.injEq] at hstep
    rw [← hstep]
    refine h.setPc hpc (fun hmem => absurd hmem (h.notMem_sent hpc id))
      (fun heq => herr (Pc.failed.inj heq)) (h.load_setPc hpc ?_)
    exact Nat.zero_le _
  · cases hstep

/-- A new call. -/
theorem System.Inv.submit (h : s.Inv) :
    System.Inv { s with submitters := s.submitters ++ [.cloned] } := by
  have hold : ∀ j ∈ s.sent, (s.submitters ++ [Pc.cloned])[j]? = s.submitters[j]? := by
    intro j hj
    obtain ⟨pc, hpc, -⟩ := h.hasSent j hj
    exact List.getElem?_append_left (List.getElem?_eq_some_iff.mp hpc).1
  refine ⟨h.nodup, fun j hj => ?_, ?_, fun j => ?_⟩
  · obtain ⟨pc, hpc, hhas⟩ := h.hasSent j hj
    exact ⟨pc, (hold j hj).trans hpc, hhas⟩
  · have hguards : (s.submitters ++ [Pc.cloned]).countP Pc.hasGuard = s.guards := by
      rw [List.countP_append]
      rfl
    have hleft : (s.channel.countP fun j =>
        (s.submitters ++ [Pc.cloned])[j]?.any Pc.hasReturned) = s.leftBehind :=
      List.countP_congr fun j hj => by rw [hold j (List.mem_append_right _ hj)]
    show (s.submitters ++ [Pc.cloned]).countP Pc.hasGuard + (s.channel.countP fun j =>
      (s.submitters ++ [Pc.cloned])[j]?.any Pc.hasReturned) ≤ s.capacity
    rw [hguards, hleft]
    exact h.load
  · show (s.submitters ++ [.cloned])[j]? ≠ some (.failed .full)
    intro hj
    rcases List.mem_append.mp (List.mem_of_getElem? hj) with hmem | hmem
    · obtain ⟨k, hk⟩ := List.getElem?_of_mem hmem
      exact h.neverFull k hk
    · cases List.mem_singleton.mp hmem

/-- **A step keeps the invariant** when a guard is given out only as the condition says. -/
theorem System.Inv.step {e : Event D E} (h : s.Inv) (hclear : s.Clear e)
    (hstep : s.step asUserString e = some s') : s'.Inv := by
  cases e with
  | cloneClient =>
    rw [System.step, Option.ite_none_right_eq_some, Option.some.injEq] at hstep
    obtain ⟨-, rfl⟩ := hstep
    exact ⟨h.nodup, h.hasSent, h.load, h.neverFull⟩
  | dropClient =>
    rw [System.step, Option.ite_none_right_eq_some, Option.some.injEq] at hstep
    obtain ⟨-, rfl⟩ := hstep
    exact ⟨h.nodup, h.hasSent, h.load, h.neverFull⟩
  | submit =>
    rw [System.step, Option.ite_none_right_eq_some, Option.some.injEq] at hstep
    obtain ⟨-, rfl⟩ := hstep
    exact h.submit
  | acquire i => exact h.acquire hstep hclear
  | trySend i => exact h.trySend hstep
  | hear i => exact h.move hstep fun _ _ => Pc.keeps_hear
  | timeOut i => exact h.move hstep fun _ _ => Pc.keeps_timeOut
  | finish i waitEnd status => exact h.move hstep fun _ _ => Pc.keeps_finish
  | receive =>
    rw [System.step] at hstep
    split at hstep
    · rename_i j channel hbridge hchannel
      cases hstep
      have hsent : s.sent = j :: channel := by rw [System.sent, hbridge, hchannel]; rfl
      refine h.take ?_ ?_
      · rw [hsent]
        exact List.Sublist.refl _
      · rw [hchannel]
        exact List.sublist_cons_self j channel
    · cases hstep
  | drain =>
    rw [System.step] at hstep
    split at hstep
    · rename_i j hbridge
      cases hstep
      refine h.take ?_ (List.nil_sublist _)
      rw [System.sent, hbridge, List.append_nil]
      exact List.Sublist.refl _
    · cases hstep
  | feed =>
    rw [System.step] at hstep
    split at hstep
    · rename_i j txs hbridge
      cases hstep
      have hsent : s.sent = j :: (txs ++ s.channel) := by rw [System.sent, hbridge]; rfl
      have hnodup := h.nodup
      rw [hsent] at hnodup
      refine System.Inv.deliver (h.take ?_ (List.Sublist.refl _)) (List.nodup_cons.mp hnodup).1
      rw [hsent]
      exact List.sublist_cons_self j _
    · cases hstep
  | flush =>
    rw [System.step] at hstep
    split at hstep
    · rename_i hbridge
      cases hstep
      refine h.take ?_ (List.Sublist.refl _)
      rw [System.sent, hbridge]
      exact List.Sublist.refl _
    · cases hstep
  | disconnect =>
    rw [System.step] at hstep
    split at hstep
    · rename_i hbridge
      cases hstep
      refine h.take ?_ (List.Sublist.refl _)
      rw [System.sent, hbridge]
      exact List.Sublist.refl _
    · cases hstep
  | reconnect =>
    rw [System.step] at hstep
    split at hstep
    · cases hstep
      exact System.Inv.deliverAll (h.take (List.nil_sublist _) (List.nil_sublist _))
        fun _ _ => List.not_mem_nil
    · cases hstep
  | stop =>
    rw [System.step] at hstep
    split at hstep
    · cases hstep
      exact h.take (List.sublist_append_right _ _) (List.Sublist.refl _)
    · cases hstep
      exact h.take (List.sublist_append_right _ _) (List.Sublist.refl _)
    · cases hstep

/-- **The channel has room for everyone who has a guard**, in every run in which a guard is given
out only while those who have one and the transactions left behind are together fewer than it has
room for. -/
theorem neverFull_of_clear (asUserString : D → String) (capacity : ℕ) (s : System)
    (hrun : Relation.ReflTransGen (System.Step asUserString (System.Clear (D := D) (E := E)))
      (System.new capacity) s) : s.NeverFull := by
  have hinv : s.Inv := by
    induction hrun with
    | refl => exact System.inv_new capacity
    | tail _ hstep ih =>
      obtain ⟨e, hclear, hstep⟩ := hstep
      exact ih.step hclear hstep
  exact hinv.neverFull

/-- The channel of two places is full while one call has left its transaction in it. -/
theorem neverFull_of_one_left :
    System.NeverFull ⟨2, 1, [.returned (.error .overloaded), .waiting .pending], [0, 1],
      .selecting⟩ :=
  neverFull_of_clear (D := Unit) (E := Unit) (fun _ => "") 2 _ <|
    .head ⟨.submit, trivial, rfl⟩ <|
    .head ⟨.acquire 0, fun _ => by decide, rfl⟩ <|
    .head ⟨.trySend 0, trivial, rfl⟩ <|
    .head ⟨.timeOut 0, trivial, rfl⟩ <|
    .head ⟨.submit, trivial, rfl⟩ <|
    .head ⟨.acquire 1, fun _ => by decide, rfl⟩ <|
    .single ⟨.trySend 1, trivial, rfl⟩

end Bound

/-! ### What is left behind -/

section LeftBehind

variable {asUserString : D → String} {s : System} {capacity n : ℕ}

/-- The bridge is without a connection, and `n` calls have come and gone. -/
structure System.Stuck (capacity n : ℕ) (s : System) : Prop where
  capacity : s.capacity = capacity
  handles : s.handles = 1
  noGuard : s.submitters.countP Pc.holds = 0
  channel : s.channel.length = n
  bridge : s.bridge = .reconnecting

/-- The last of the calls goes on. -/
theorem System.setPc_last (l : List Pc) (pc pc' : Pc) :
    System.setPc { s with submitters := l ++ [pc] } l.length pc' =
      { s with submitters := l ++ [pc'] } := by
  have hset : (l ++ [pc]).set l.length pc' = l ++ [pc'] := by simp
  rw [System.setPc, hset]

theorem System.move_last {pc pc' : Pc} {f : Pc → Option Pc} {l : List Pc} (hf : f pc = some pc') :
    System.move { s with submitters := l ++ [pc] } l.length f =
      some { s with submitters := l ++ [pc'] } := by
  rw [System.move, List.getElem?_concat_length, Option.bind_some, hf, Option.map_some,
    System.setPc_last]

/-- The bridge is there, but without a connection. -/
theorem System.Stuck.trySend (h : s.Stuck capacity n) {l : List Pc} (i : ℕ) :
    System.trySend { s with submitters := l } i =
      if n < capacity then .ok { s with submitters := l, channel := s.channel ++ [i] }
      else .error .full := by
  simp only [System.trySend, h.bridge, h.channel, h.capacity]

/-- When all have gone, the next call gets the guard. -/
theorem System.Stuck.guarded (h : s.Stuck capacity n) (hcapacity : 2 ≤ capacity) :
    Relation.ReflTransGen
      (System.Step asUserString fun (_ : System) (_ : Event D E) => True) s
      { s with submitters := s.submitters ++ [.guarded] } := by
  have hsubmit : s.step asUserString (.submit : Event D E) =
      some { s with submitters := s.submitters ++ [.cloned] } := by
    rw [System.step, if_pos (by rw [h.handles]; exact Nat.one_pos)]
  refine .head ⟨.submit, trivial, hsubmit⟩ (.single ⟨.acquire s.submitters.length, trivial, ?_⟩)
  refine System.move_last ?_
  have hcount : System.strongCount { s with submitters := s.submitters ++ [.cloned] } = 2 := by
    show s.handles + (s.submitters ++ [Pc.cloned]).countP Pc.holds = 2
    rw [List.countP_append, h.handles, h.noGuard]
    rfl
  rw [Pc.acquire, hcount, if_neg]
  show ¬s.capacity < 2
  rw [h.capacity]
  omega

/-- One more call comes, sends its transaction, and goes. -/
theorem System.Stuck.next (h : s.Stuck capacity n) (hcapacity : 2 ≤ capacity) (hn : n < capacity) :
    ∃ s' : System, Relation.ReflTransGen
      (System.Step asUserString fun (_ : System) (_ : Event D E) => True) s s' ∧
        s'.Stuck capacity (n + 1) := by
  let k := s.submitters.length
  let gone : Pc := .returned (.error .overloaded)
  refine ⟨{ s with submitters := s.submitters ++ [gone], channel := s.channel ++ [k] },
    (h.guarded hcapacity).trans (.head
      (b := { s with
        submitters := s.submitters ++ [.waiting .pending], channel := s.channel ++ [k] })
      ⟨.trySend k, trivial, ?_⟩ (.single ⟨.timeOut k, trivial, ?_⟩)), ?_⟩
  · rw [System.step, h.trySend, if_pos hn, List.getElem?_concat_length]
    exact congrArg some (System.setPc_last (s := { s with channel := s.channel ++ [k] }) _ _ _)
  · exact System.move_last (s := { s with channel := s.channel ++ [k] }) rfl
  · refine ⟨h.capacity, h.handles, ?_, ?_, h.bridge⟩
    · show (s.submitters ++ [gone]).countP Pc.holds = 0
      rw [List.countP_append, h.noGuard]
      rfl
    · show (s.channel ++ [k]).length = n + 1
      rw [List.length_append, h.channel]
      rfl

/-- **Calls that come and go fill the channel** while the bridge takes nothing out, and then the
next one has the guard and finds the channel full. -/
theorem fillsUp (asUserString : D → String) {capacity : ℕ} (hcapacity : 2 ≤ capacity) :
    ∃ s : System, Relation.ReflTransGen
      (System.Step asUserString fun (_ : System) (_ : Event D E) => True) (System.new capacity) s ∧
        ¬s.NeverFull := by
  have hstuck : ∀ n, n ≤ capacity → ∃ s : System, Relation.ReflTransGen
      (System.Step asUserString fun (_ : System) (_ : Event D E) => True) (System.new capacity) s ∧
        s.Stuck capacity n := by
    intro n
    induction n with
    | zero =>
      intro _
      refine ⟨⟨capacity, 1, [], [], .reconnecting⟩, .single ⟨.disconnect, trivial, rfl⟩, ?_⟩
      exact ⟨rfl, rfl, rfl, rfl, rfl⟩
    | succ n ih =>
      intro hn
      obtain ⟨s, hrun, hs⟩ := ih (Nat.le_of_succ_le hn)
      obtain ⟨s', hrun', hs'⟩ := hs.next hcapacity hn
      exact ⟨s', hrun.trans hrun', hs'⟩
  obtain ⟨s, hrun, hs⟩ := hstuck capacity le_rfl
  refine ⟨{ s with submitters := s.submitters ++ [.failed .full] },
    (hrun.trans (hs.guarded hcapacity)).tail ⟨.trySend s.submitters.length, trivial, ?_⟩, ?_⟩
  · rw [System.step, hs.trySend, if_neg (lt_irrefl capacity), List.getElem?_concat_length]
    exact congrArg some (System.setPc_last _ _ _)
  · exact fun hnever => hnever s.submitters.length List.getElem?_concat_length

/-- Without the condition, a call that has the guard may find the channel full. -/
theorem not_neverFull :
    ¬ ∀ s : System, Relation.ReflTransGen
      (System.Step (fun _ : Unit => "") fun (_ : System) (_ : Event Unit Unit) => True)
      (System.new ethTxpoolBridgeChannelSize) s → s.NeverFull := by
  intro h
  have hsize : 2 ≤ ethTxpoolBridgeChannelSize := by decide
  obtain ⟨s, hrun, hfull⟩ := fillsUp (E := Unit) (fun _ : Unit => "") hsize
  exact hfull (h s hrun)

end LeftBehind

end TxPoolBridge

end Rpc

end MonadServices
