import MonadServices.Lib.Bytes
import MonadServices.Lib.Checked
import MonadServices.Lib.IterOrder
import MonadServices.Lib.Multimap
import MonadServices.Rpc.Jsonrpc

/-!
# Subscriptions of a websocket connection

A client subscribes to the heads or to the logs of new blocks, and gives a subscription up by the
id that it was given for it. The subscriptions of a connection are kept in a list for each kind,
and there is a limit to their number, which is counted in 16 bits whenever one is to be added.

Under the largest limit the count of a connection that has reached it has no successor in 16 bits:
it is taken to be zero, and the subscription is accepted, or the server panics where overflows are
checked. **As long as nobody subscribes in this state, the limit holds, only what would exceed it
is refused, and what is given up is the subscription with the id and no other**
(`MonadServices.Rpc.Websocket.eachStep_served_iff`).
-/

namespace MonadServices

namespace Rpc

namespace Websocket

/-! ### Requests -/

inductive SubscriptionKind where
  | newHeads
  | logs
  | monadNewHeads
  | monadLogs
  deriving DecidableEq

/-- `pubsub::Params`. -/
inductive Params (Filter : Type) where
  | none
  | logs (filter : Filter)
  | bool (value : Bool)
  | transactionReceipts

deriving instance DecidableEq for FixedData

abbrev SubscriptionId := FixedData 16

structure EthSubscribeRequest (Filter : Type) where
  kind : SubscriptionKind
  params : Params Filter

structure EthUnsubscribeRequest where
  id : SubscriptionId

/-- A request and its parameters, if they could be read. -/
inductive Request (Filter : Type) where
  | ethSubscribe (params : Option (EthSubscribeRequest Filter))
  | ethUnsubscribe (params : Option EthUnsubscribeRequest)

variable {Filter : Type}

/-- The filter of a subscription, if the parameters allow for one. -/
def Params.filter : Params Filter → Option (Option Filter)
  | .none => some .none
  | .logs filter => some (some filter)
  | .bool _ | .transactionReceipts => Option.none

/-- What is to be subscribed to. -/
def Request.subscription : Request Filter → Option (SubscriptionKind × Option Filter)
  | .ethSubscribe (some req) => req.params.filter.map fun filter => (req.kind, filter)
  | _ => none

abbrev Subscriptions (Filter : Type) := Multimap SubscriptionKind (SubscriptionId × Option Filter)

/-- A request as it is handled. -/
structure Incoming (Filter : Type) where
  request : Request Filter
  id : Jsonrpc.RequestId
  /-- The order in which the lists are met. -/
  order : IterOrder (Σ _ : SubscriptionKind, List (SubscriptionId × Option Filter))
  randomBytes : SubscriptionId
  /-- Whether the response can be sent. -/
  sent : Bool

/-! ### The handler -/

structure Connection (Filter : Type) where
  subscriptions : Subscriptions Filter
  /-- What the connection has recorded of its topics, if there are metrics. -/
  topics : Option ℤ

/-- A connection that has been opened. -/
def Connection.new (Filter : Type) (metrics : Bool) : Connection Filter :=
  ⟨∅, if metrics then some 0 else none⟩

/-- The number of subscriptions. -/
def Connection.total (c : Connection Filter) : ℕ := c.subscriptions.elements.length

def Connection.recordWebsocketTopic (c : Connection Filter) (increment : ℤ) : Connection Filter :=
  { c with topics := c.topics.map (· + increment) }

/-- A close reason with the code `Error`. -/
structure CloseReason where
  description : Option String

/-- A connection is closed if a response cannot be sent. -/
def Incoming.send (i : Incoming Filter) (response : Jsonrpc.Response) :
    Except (Halt CloseReason) Jsonrpc.Response :=
  if i.sent then .ok response else .error (.error ⟨none⟩)

def Incoming.invalidParams (i : Incoming Filter) : Jsonrpc.Response :=
  .new none (some .invalidParams) i.id

def Incoming.limitReached (i : Incoming Filter) : Jsonrpc.Response :=
  .new none (some (.withMessage .serverError "WebSocket subscription limit reached")) i.id

def Incoming.subscribed (i : Incoming Filter) : Jsonrpc.Response :=
  .fromResult i.id (serializeResult i.randomBytes)

def Incoming.unsubscribed (i : Incoming Filter) (existed : Bool) : Jsonrpc.Response :=
  .fromResult i.id (serializeResult existed)

/-- Whether one more subscription would exceed the limit. -/
def exceedsLimit (overflowChecks : Bool) (subscriptionLimit : UInt16) (lengths : List ℕ) :
    Except (Halt CloseReason) Bool := do
  let subscriptionCount ← (lengths.map UInt16.ofNat).foldlM (addU16 overflowChecks) 0
  let next ← addU16 overflowChecks subscriptionCount 1
  return decide (subscriptionLimit < next)

/-- `handle_request` for `eth_subscribe` and `eth_unsubscribe`. -/
def handleRequest (overflowChecks : Bool) (subscriptionLimit : UInt16) (c : Connection Filter)
    (i : Incoming Filter) : Except (Halt CloseReason) Jsonrpc.Response × Connection Filter :=
  let lists := i.order.order c.subscriptions.entries
  match i.request with
  | .ethSubscribe none => (i.send i.invalidParams, c)
  | .ethSubscribe (some req) =>
    match req.params.filter with
    | none => (i.send i.invalidParams, c)
    | some filter =>
      match exceedsLimit overflowChecks subscriptionLimit (lists.map fun e => e.2.length) with
      | .error halt => (.error halt, c)
      | .ok true => (i.send i.limitReached, c)
      | .ok false =>
        (i.send i.subscribed,
          -- The client is told the id first, and what it cannot be told is not added.
          if i.sent then
            { c with subscriptions := c.subscriptions.push req.kind (i.randomBytes, filter) }
              |>.recordWebsocketTopic 1
          else c)
  | .ethUnsubscribe none => (i.send i.invalidParams, c)
  | .ethUnsubscribe (some req) =>
    match c.subscriptions.retainFirst lists (fun x => x.1 ≠ req.id) with
    | (false, subscriptions) => (i.send (i.unsubscribed false), { c with subscriptions })
    | (true, subscriptions) =>
      (i.send (i.unsubscribed true), { c with subscriptions } |>.recordWebsocketTopic (-1))

/-- When a connection has ended its topics are taken back. -/
def Connection.close (c : Connection Filter) : Connection Filter :=
  (c.subscriptions.entries.map fun e => (-(e.2.length : ℤ))).foldl recordWebsocketTopic c

/-- **Every step of a run has the property `P`**: of the connection, the request, the response and
the connection after it. A run ends where a response is not sent, or the server panics. -/
def EachStep (overflowChecks : Bool) (subscriptionLimit : UInt16)
    (P : Connection Filter → Incoming Filter → Except (Halt CloseReason) Jsonrpc.Response →
      Connection Filter → Prop) : Connection Filter → List (Incoming Filter) → Prop
  | _, [] => True
  | c, i :: is =>
    P c i (handleRequest overflowChecks subscriptionLimit c i).1
      (handleRequest overflowChecks subscriptionLimit c i).2 ∧
    ((handleRequest overflowChecks subscriptionLimit c i).1.toBool = true →
      EachStep overflowChecks subscriptionLimit P
        (handleRequest overflowChecks subscriptionLimit c i).2 is)

/-! ### Counting in 16 bits -/

section Count

variable {overflowChecks : Bool} {subscriptionLimit : UInt16} {lengths : List ℕ}

theorem toNat_ofNat_of_mem {n : ℕ} (h : lengths.sum < UInt16.size) (hn : n ∈ lengths) :
    (UInt16.ofNat n).toNat = n :=
  UInt16.toNat_ofNat_of_lt' (Nat.lt_of_le_of_lt (List.le_sum_of_mem hn) h)

/-- The count, where it fits. -/
theorem count_eq (h : lengths.sum < UInt16.size) :
    ((lengths.map UInt16.ofNat).foldlM (addU16 overflowChecks) 0 :
      Except (Halt CloseReason) UInt16) = .ok (UInt16.ofNat lengths.sum) := by
  have hmap : (lengths.map UInt16.ofNat).map UInt16.toNat = lengths := by
    rw [List.map_map]
    refine (List.map_congr_left fun n hn => ?_).trans (List.map_id lengths)
    exact toNat_ofNat_of_mem h hn
  rw [foldlM_addU16 (by rw [hmap]; simpa using h), hmap]
  simp

/-- The next number fits as well: the limit is exceeded if it has been reached. -/
theorem exceedsLimit_of_lt (h : lengths.sum + 1 < UInt16.size) :
    exceedsLimit overflowChecks subscriptionLimit lengths =
      .ok (decide (subscriptionLimit.toNat ≤ lengths.sum)) := by
  have hsum : (UInt16.ofNat lengths.sum).toNat = lengths.sum :=
    UInt16.toNat_ofNat_of_lt' (Nat.lt_of_succ_lt h)
  have hone : (1 : UInt16).toNat = 1 := rfl
  have hnext : (UInt16.ofNat lengths.sum + 1).toNat = lengths.sum + 1 := by
    rw [UInt16.toNat_add, hsum, hone]
    exact Nat.mod_eq_of_lt h
  rw [exceedsLimit, count_eq (Nat.lt_of_succ_lt h), ok_bind, addU16_of_lt (by rwa [hsum]), ok_bind]
  refine congrArg Except.ok (decide_eq_decide.mpr ?_)
  rw [UInt16.lt_iff_toNat_lt, hnext, Nat.lt_succ_iff]

/-- **The largest number has no successor**: no limit is exceeded, where this is not checked. -/
theorem exceedsLimit_of_eq (h : lengths.sum + 1 = UInt16.size) :
    exceedsLimit false subscriptionLimit lengths = .ok false ∧
      ∃ message, exceedsLimit true subscriptionLimit lengths = .error (.panic message) := by
  have hlt : lengths.sum < UInt16.size := h ▸ Nat.lt_succ_self _
  have hsum : lengths.sum = 65535 := Nat.succ.inj h
  constructor
  · rw [exceedsLimit, count_eq hlt, hsum]
    exact congrArg Except.ok (decide_eq_false (by simp [UInt16.lt_iff_toNat_lt]))
  · rw [exceedsLimit, count_eq hlt, hsum]
    exact ⟨_, rfl⟩

end Count

/-! ### What is served -/

section Served

variable {overflowChecks : Bool} {subscriptionLimit : UInt16} {c c' : Connection Filter}
  {i : Incoming Filter} {r : Except (Halt CloseReason) Jsonrpc.Response}

/-- The ids of the subscriptions. -/
def Connection.ids (c : Connection Filter) : List SubscriptionId :=
  c.subscriptions.elements.map Prod.fst

/-- What is not a request to subscribe or unsubscribe, for its parameters. -/
def Request.invalid : Request Filter → Bool
  | .ethSubscribe (some req) => req.params.filter.isNone
  | .ethUnsubscribe (some _) => false
  | _ => true

/-- A subscription gets an id that is not in use. -/
def Fresh (c : Connection Filter) (i : Incoming Filter)
    (_ : Except (Halt CloseReason) Jsonrpc.Response) (_ : Connection Filter) : Prop :=
  i.request.subscription.isSome = true → i.randomBytes ∉ c.ids

/-- **A request is served**: the limit and the metric are right after it, and what has been
answered and done is what was asked for. -/
structure Served (subscriptionLimit : UInt16) (c : Connection Filter) (i : Incoming Filter)
    (r : Except (Halt CloseReason) Jsonrpc.Response) (c' : Connection Filter) : Prop where
  no_panic : ∀ message, r ≠ .error (.panic message)
  within : c'.total ≤ subscriptionLimit.toNat
  topics : ∀ n ∈ c'.topics, n = (c'.total : ℤ)
  /-- A subscription is added, or refused if the limit has been reached. -/
  subscribe : ∀ kind filter, i.request.subscription = some (kind, filter) →
    if c.total < subscriptionLimit.toNat then
      r = i.send i.subscribed ∧ (i.sent = true →
        c'.subscriptions = c.subscriptions.push kind (i.randomBytes, filter))
    else r = i.send i.limitReached ∧ c'.subscriptions = c.subscriptions
  /-- What is left of every list is what has another id. -/
  unsubscribe : ∀ req, i.request = .ethUnsubscribe (some req) →
    (∀ kind, c'.subscriptions.get kind =
      (c.subscriptions.get kind).filter fun x => x.1 ≠ req.id) ∧
    ∃ existed, r = i.send (i.unsubscribed existed) ∧ (existed = true ↔ req.id ∈ c.ids)
  invalid : i.request.invalid = true → r = i.send i.invalidParams ∧ c' = c

/-- **Nobody subscribes to more than can be counted.** What cannot be answered is not added, but
where overflows are checked the server panics before. -/
def Countable (overflowChecks : Bool) (c : Connection Filter) (i : Incoming Filter)
    (_ : Except (Halt CloseReason) Jsonrpc.Response) (_ : Connection Filter) : Prop :=
  i.request.subscription.isSome = true → (overflowChecks = true ∨ i.sent = true) →
    c.total + 1 < UInt16.size

/-- What holds between the requests. -/
structure Inv (subscriptionLimit : UInt16) (c : Connection Filter) : Prop where
  within : c.total ≤ subscriptionLimit.toNat
  nodup : c.ids.Nodup
  topics : ∀ n ∈ c.topics, n = (c.total : ℤ)

theorem inv_new (subscriptionLimit : UInt16) (metrics : Bool) :
    Inv subscriptionLimit (Connection.new Filter metrics) where
  within := Nat.zero_le _
  nodup := List.nodup_nil
  topics := by
    cases metrics
    · exact fun n hn => (by cases hn)
    · exact fun n hn => (Option.some.inj hn).symm

theorem length_ids (c : Connection Filter) : c.ids.length = c.total := List.length_map _

/-- The lengths of the lists, as they are met. -/
theorem sum_lengths (c : Connection Filter) (i : Incoming Filter) :
    ((i.order.order c.subscriptions.entries).map fun e => e.2.length).sum = c.total :=
  Multimap.sum_length (i.order.perm _)

/-! ### Subscribing -/

/-- The connection with one more subscription. -/
def Connection.add (c : Connection Filter) (kind : SubscriptionKind)
    (x : SubscriptionId × Option Filter) : Connection Filter :=
  { c with subscriptions := c.subscriptions.push kind x } |>.recordWebsocketTopic 1

theorem total_add (c : Connection Filter) (kind : SubscriptionKind)
    (x : SubscriptionId × Option Filter) : (c.add kind x).total = c.total + 1 :=
  Multimap.length_elements_push c.subscriptions kind x

theorem perm_ids_add (c : Connection Filter) (kind : SubscriptionKind)
    (x : SubscriptionId × Option Filter) : (c.add kind x).ids.Perm (x.1 :: c.ids) :=
  (Multimap.perm_elements_push c.subscriptions kind x).map Prod.fst

theorem topics_recordWebsocketTopic {increment m : ℤ} (hc : ∀ n ∈ c.topics, n = m) :
    ∀ n ∈ (c.recordWebsocketTopic increment).topics, n = m + increment := by
  intro n hn
  obtain ⟨n', hn', rfl⟩ := Option.map_eq_some_iff.mp hn
  rw [hc n' hn']

theorem topics_foldl (c : Connection Filter) (increments : List ℤ) :
    (increments.foldl Connection.recordWebsocketTopic c).topics =
      c.topics.map (· + increments.sum) := by
  induction increments generalizing c with
  | nil => simp
  | cons increment increments ih =>
    rw [List.foldl_cons, ih, Connection.recordWebsocketTopic, Option.map_map, List.sum_cons]
    refine congrArg (Option.map · c.topics) (funext fun n => ?_)
    exact Int.add_assoc _ _ _

/-- A request to subscribe. -/
theorem handleRequest_subscription {kind : SubscriptionKind} {filter : Option Filter}
    (h : i.request.subscription = some (kind, filter)) :
    handleRequest overflowChecks subscriptionLimit c i =
      match exceedsLimit overflowChecks subscriptionLimit
        ((i.order.order c.subscriptions.entries).map fun e => e.2.length) with
      | .error halt => (.error halt, c)
      | .ok true => (i.send i.limitReached, c)
      | .ok false =>
        (i.send i.subscribed, if i.sent then c.add kind (i.randomBytes, filter) else c) := by
  obtain ⟨request, id, order, randomBytes, sent⟩ := i
  obtain (_ | ⟨kind', params⟩) | params := request
  · cases h
  · cases params with
    | none | logs filter' =>
      obtain ⟨rfl, rfl⟩ := Prod.mk.inj (Option.some.inj h)
      rfl
    | bool value => cases h
    | transactionReceipts => cases h
  · cases h

/-- A subscription that can be counted is accepted if the limit has not been reached. -/
theorem handleRequest_of_lt {kind : SubscriptionKind} {filter : Option Filter}
    (h : i.request.subscription = some (kind, filter)) (hlt : c.total + 1 < UInt16.size) :
    handleRequest overflowChecks subscriptionLimit c i =
      if c.total < subscriptionLimit.toNat then
        (i.send i.subscribed, if i.sent then c.add kind (i.randomBytes, filter) else c)
      else (i.send i.limitReached, c) := by
  rw [handleRequest_subscription h, exceedsLimit_of_lt (by rwa [sum_lengths]), sum_lengths]
  by_cases hreached : c.total < subscriptionLimit.toNat
  · rw [decide_eq_false (Nat.not_le.mpr hreached), if_pos hreached]
  · rw [decide_eq_true (Nat.not_lt.mp hreached), if_neg hreached]

theorem send_of_not_sent (h : i.sent = false) (response : Jsonrpc.Response) :
    i.send response = .error (.error ⟨none⟩) := by
  rw [Incoming.send, h]
  rfl

theorem send_ne_panic (response : Jsonrpc.Response) (message : String) :
    i.send response ≠ .error (.panic message) := by
  unfold Incoming.send
  split
  · exact fun h => (by cases h)
  · exact fun h => (by cases h)

/-- What is left if the state does not change. -/
theorem Inv.served (hc : Inv subscriptionLimit c)
    (hno : ∀ message, r ≠ .error (.panic message))
    (hsubscribe : ∀ kind filter, i.request.subscription = some (kind, filter) →
      ¬c.total < subscriptionLimit.toNat ∧ r = i.send i.limitReached ∨
        c.total < subscriptionLimit.toNat ∧ r = i.send i.subscribed ∧ i.sent = false)
    (hunsubscribe : ∀ req, i.request ≠ .ethUnsubscribe (some req))
    (hinvalid : i.request.invalid = true → r = i.send i.invalidParams) :
    Served subscriptionLimit c i r c where
  no_panic := hno
  within := hc.within
  topics := hc.topics
  subscribe := by
    intro kind filter h
    obtain ⟨hreached, hr⟩ | ⟨hlt, hr, hsent⟩ := hsubscribe kind filter h
    · rw [if_neg hreached]
      exact ⟨hr, rfl⟩
    · rw [if_pos hlt]
      exact ⟨hr, fun h => absurd (hsent.symm.trans h) Bool.false_ne_true⟩
  unsubscribe := fun req h => absurd h (hunsubscribe req)
  invalid := fun h => ⟨hinvalid h, rfl⟩

theorem not_unsubscribe_of_subscription {s : SubscriptionKind × Option Filter}
    (h : i.request.subscription = some s) :
    i.request.invalid = false ∧ ∀ req, i.request ≠ .ethUnsubscribe (some req) := by
  obtain ⟨request, id, order, randomBytes, sent⟩ := i
  obtain (_ | ⟨kind', params⟩) | params := request
  · cases h
  · cases params with
    | none | logs filter' => exact ⟨rfl, fun req h => (by cases h)⟩
    | bool value => cases h
    | transactionReceipts => cases h
  · cases h

/-- **What can be counted is served.** -/
theorem served_of_subscription {kind : SubscriptionKind} {filter : Option Filter}
    (h : i.request.subscription = some (kind, filter)) (hc : Inv subscriptionLimit c)
    (hfresh : i.randomBytes ∉ c.ids)
    (hcount : overflowChecks = true ∨ i.sent = true → c.total + 1 < UInt16.size) :
    Served subscriptionLimit c i (handleRequest overflowChecks subscriptionLimit c i).1
        (handleRequest overflowChecks subscriptionLimit c i).2 ∧
      Inv subscriptionLimit (handleRequest overflowChecks subscriptionLimit c i).2 := by
  obtain ⟨hvalid, hsubscribe⟩ := not_unsubscribe_of_subscription h
  have hinvalid : ∀ r : Except (Halt CloseReason) Jsonrpc.Response,
      i.request.invalid = true → r = i.send i.invalidParams :=
    fun r h' => absurd (hvalid.symm.trans h') Bool.false_ne_true
  by_cases hlt : c.total + 1 < UInt16.size
  · rw [handleRequest_of_lt h hlt]
    by_cases hreached : c.total < subscriptionLimit.toNat
    · rw [if_pos hreached]
      by_cases hsent : i.sent = true
      · have hadded : Inv subscriptionLimit (c.add kind (i.randomBytes, filter)) := by
          refine ⟨?_, ?_, fun n hn => ?_⟩
          · rw [total_add]
            exact hreached
          · exact (perm_ids_add c kind _).nodup_iff.mpr (List.nodup_cons.mpr ⟨hfresh, hc.nodup⟩)
          · rw [total_add, Nat.cast_succ]
            exact topics_recordWebsocketTopic hc.topics n hn
        simp only [if_pos hsent]
        refine ⟨⟨send_ne_panic _, hadded.within, hadded.topics, fun kind' filter' h' => ?_,
          fun req h' => absurd h' (hsubscribe req),
          fun h' => absurd (hvalid.symm.trans h') Bool.false_ne_true⟩, hadded⟩
        obtain ⟨rfl, rfl⟩ := Prod.mk.inj (Option.some.inj (h.symm.trans h'))
        rw [if_pos hreached]
        exact ⟨rfl, fun _ => rfl⟩
      · simp only [if_neg hsent]
        exact ⟨hc.served (send_ne_panic _)
          (fun _ _ _ => .inr ⟨hreached, rfl, Bool.not_eq_true _ ▸ hsent⟩) hsubscribe
          (hinvalid _), hc⟩
    · rw [if_neg hreached]
      exact ⟨hc.served (send_ne_panic _) (fun _ _ _ => .inl ⟨hreached, rfl⟩) hsubscribe
        (hinvalid _), hc⟩
  · -- The count has no successor, and nobody notices.
    obtain ⟨hchecks, hsent⟩ := not_or.mp (mt hcount hlt)
    rw [Bool.not_eq_true] at hchecks hsent
    have hlimit : subscriptionLimit.toNat < UInt16.size := subscriptionLimit.toNat_lt
    have hwithin : c.total ≤ subscriptionLimit.toNat := hc.within
    have hfull : c.total + 1 = UInt16.size := by omega
    subst hchecks
    rw [handleRequest_subscription h, (exceedsLimit_of_eq (by rwa [sum_lengths])).1]
    simp only [hsent, Bool.false_eq_true, if_false]
    have hsend := send_of_not_sent hsent
    refine ⟨hc.served (send_ne_panic _) (fun _ _ _ => .inl ⟨by omega, ?_⟩) hsubscribe
      (hinvalid _), hc⟩
    rw [hsend, hsend]

/-- **What cannot be counted is not served.** -/
theorem total_lt_of_served {kind : SubscriptionKind} {filter : Option Filter}
    (h : i.request.subscription = some (kind, filter)) (hc : Inv subscriptionLimit c)
    (hserved : Served subscriptionLimit c i
      (handleRequest overflowChecks subscriptionLimit c i).1
      (handleRequest overflowChecks subscriptionLimit c i).2)
    (hor : overflowChecks = true ∨ i.sent = true) : c.total + 1 < UInt16.size := by
  by_contra hlt
  have hlimit : subscriptionLimit.toNat < UInt16.size := subscriptionLimit.toNat_lt
  have hwithin : c.total ≤ subscriptionLimit.toNat := hc.within
  have hfull : c.total + 1 = UInt16.size := by omega
  have hlengths : ((i.order.order c.subscriptions.entries).map fun e => e.2.length).sum + 1 =
      UInt16.size := by rwa [sum_lengths]
  have hexceeds := @exceedsLimit_of_eq subscriptionLimit _ hlengths
  rw [handleRequest_subscription h] at hserved
  cases overflowChecks with
  | true =>
    obtain ⟨message, hpanic⟩ := hexceeds.2
    rw [hpanic] at hserved
    exact hserved.no_panic message rfl
  | false =>
    have hsent : i.sent = true := hor.resolve_left Bool.false_ne_true
    rw [hexceeds.1] at hserved
    have hmore := hserved.within
    simp only [if_pos hsent, total_add] at hmore
    omega

/-! ### Giving up -/

/-- The other subscriptions. -/
def otherThan (id : SubscriptionId) (x : SubscriptionId × Option Filter) : Bool :=
  decide (x.1 ≠ id)

theorem eq_of_otherThan {id : SubscriptionId} {x : SubscriptionId × Option Filter}
    (h : otherThan id x = false) : x.1 = id :=
  not_not.mp (of_decide_eq_false h)

theorem Inv.one_list (hc : Inv subscriptionLimit c) (id : SubscriptionId) :
    ∀ k k' a a', a ∈ c.subscriptions.get k → otherThan id a = false →
      a' ∈ c.subscriptions.get k' → otherThan id a' = false → k = k' :=
  fun _ _ _ _ ha hid ha' hid' => Multimap.eq_of_nodup hc.nodup ha ha'
    ((eq_of_otherThan hid).trans (eq_of_otherThan hid').symm)

/-- The ids that are left. -/
theorem Inv.perm_ids (hc : Inv subscriptionLimit c) (id : SubscriptionId)
    {order : List (Σ _ : SubscriptionKind, List (SubscriptionId × Option Filter))}
    (horder : order.Perm c.subscriptions.entries) :
    ((c.subscriptions.retainFirst order (otherThan id)).2.elements.map Prod.fst).Perm
      (c.ids.erase id) := by
  have hperm := Multimap.perm_elements_retainFirst horder (hc.one_list id)
  rw [hc.nodup.erase_eq_filter, Connection.ids, List.filter_map]
  refine (hperm.map Prod.fst).trans (List.Perm.of_eq ?_)
  congr 2
  funext x
  by_cases hx : x.1 = id <;> simp [otherThan, hx]

theorem handleRequest_unsubscribe {req : EthUnsubscribeRequest}
    (h : i.request = .ethUnsubscribe (some req)) :
    handleRequest overflowChecks subscriptionLimit c i =
      match c.subscriptions.retainFirst (i.order.order c.subscriptions.entries)
        (otherThan req.id) with
      | (false, subscriptions) => (i.send (i.unsubscribed false), { c with subscriptions })
      | (true, subscriptions) =>
        (i.send (i.unsubscribed true),
          { c with subscriptions } |>.recordWebsocketTopic (-1)) := by
  rw [handleRequest, h]
  rfl

/-- **The subscription with the id, and no other, is removed.** -/
theorem served_of_unsubscribe {req : EthUnsubscribeRequest}
    (h : i.request = .ethUnsubscribe (some req)) (hc : Inv subscriptionLimit c) :
    Served subscriptionLimit c i (handleRequest overflowChecks subscriptionLimit c i).1
        (handleRequest overflowChecks subscriptionLimit c i).2 ∧
      Inv subscriptionLimit (handleRequest overflowChecks subscriptionLimit c i).2 := by
  have horder := i.order.perm c.subscriptions.entries
  have hget := Multimap.get_retainFirst horder (hc.one_list req.id)
  have hids := hc.perm_ids req.id horder
  have hexisted : (c.subscriptions.retainFirst (i.order.order c.subscriptions.entries)
      (otherThan req.id)).1 = true ↔ req.id ∈ c.ids := by
    rw [Multimap.retainFirst_fst horder, Connection.ids, List.mem_map]
    exact exists_congr fun x => and_congr_right fun _ =>
      ⟨eq_of_otherThan, fun hx => decide_eq_false (not_not.mpr hx)⟩
  have hvalid : i.request.invalid = false := by
    rw [h]
    rfl
  -- It is served if the number and the metric are right.
  have hserved : ∀ c' : Connection Filter, ∀ existed,
      (existed = true ↔ req.id ∈ c.ids) → c'.ids.Perm (c.ids.erase req.id) →
      (∀ kind, c'.subscriptions.get kind =
        (c.subscriptions.get kind).filter (otherThan req.id)) →
      (∀ n ∈ c'.topics, n = (c'.total : ℤ)) →
      Served subscriptionLimit c i (i.send (i.unsubscribed existed)) c' ∧
        Inv subscriptionLimit c' := by
    intro c' existed hiff hperm hkept htopics
    have hwithin : c'.total ≤ subscriptionLimit.toNat := by
      rw [← length_ids, hperm.length_eq]
      exact List.length_erase_le.trans ((length_ids c).trans_le hc.within)
    refine ⟨⟨send_ne_panic _, hwithin, htopics, fun kind filter h' => ?_, fun req' h' => ?_,
      fun h' => absurd (hvalid.symm.trans h') Bool.false_ne_true⟩,
      ⟨hwithin, hperm.nodup_iff.mpr (hc.nodup.erase _), htopics⟩⟩
    · exact absurd h ((not_unsubscribe_of_subscription h').2 req)
    · obtain rfl : req = req' := Option.some.inj (Request.ethUnsubscribe.inj (h.symm.trans h'))
      exact ⟨hkept, existed, rfl, hiff⟩
  rw [handleRequest_unsubscribe h]
  generalize c.subscriptions.retainFirst (i.order.order c.subscriptions.entries)
    (otherThan req.id) = removed at hexisted hids hget ⊢
  obtain ⟨existed, subscriptions⟩ := removed
  cases existed with
  | true =>
    have hmem : req.id ∈ c.ids := hexisted.mp rfl
    refine hserved _ true hexisted hids hget fun n hn => ?_
    have hlength : (subscriptions.elements.map Prod.fst).length = c.ids.length - 1 :=
      hids.length_eq.trans (List.length_erase_of_mem hmem)
    have hpos : 0 < c.ids.length := List.length_pos_of_mem hmem
    rw [topics_recordWebsocketTopic (c := { c with subscriptions }) hc.topics n hn,
      ← length_ids c, ← length_ids]
    change _ = ((subscriptions.elements.map Prod.fst).length : ℤ)
    omega
  | false =>
    have hnot : req.id ∉ c.ids := fun hmem => Bool.false_ne_true (hexisted.mpr hmem)
    refine hserved _ false hexisted hids hget fun n hn => ?_
    rw [List.erase_of_not_mem hnot] at hids
    rw [hc.topics n hn, ← length_ids c, ← length_ids, ← hids.length_eq]
    rfl

theorem handleRequest_invalid (h : i.request.invalid = true) :
    handleRequest overflowChecks subscriptionLimit c i = (i.send i.invalidParams, c) := by
  obtain ⟨request, id, order, randomBytes, sent⟩ := i
  obtain (_ | ⟨kind, params⟩) | (_ | req) := request
  · rfl
  · cases params with
    | none | logs filter => cases h
    | bool value | transactionReceipts => rfl
  · rfl
  · cases h

theorem served_of_invalid (h : i.request.invalid = true) (hc : Inv subscriptionLimit c) :
    Served subscriptionLimit c i (handleRequest overflowChecks subscriptionLimit c i).1
        (handleRequest overflowChecks subscriptionLimit c i).2 ∧
      Inv subscriptionLimit (handleRequest overflowChecks subscriptionLimit c i).2 := by
  have hno : ∀ kind filter, i.request.subscription ≠ some (kind, filter) := fun kind filter h' =>
    absurd ((not_unsubscribe_of_subscription h').1.symm.trans h) Bool.false_ne_true
  rw [handleRequest_invalid h]
  refine ⟨hc.served (send_ne_panic _) (fun kind filter h' => absurd h' (hno kind filter))
    (fun req h' => ?_) fun _ => rfl, hc⟩
  rw [h'] at h
  cases h

/-! ### Runs -/

/-- What a request is. -/
theorem Request.cases (request : Request Filter) :
    (∃ kind filter, request.subscription = some (kind, filter)) ∨
      (request.subscription = none ∧ ∃ req, request = .ethUnsubscribe (some req)) ∨
      (request.subscription = none ∧ request.invalid = true) := by
  rcases request with (_ | ⟨kind, params⟩) | (_ | req)
  · exact .inr (.inr ⟨rfl, rfl⟩)
  · cases params with
    | none | logs filter => exact .inl ⟨_, _, rfl⟩
    | bool value | transactionReceipts => exact .inr (.inr ⟨rfl, rfl⟩)
  · exact .inr (.inr ⟨rfl, rfl⟩)
  · exact .inr (.inl ⟨rfl, req, rfl⟩)

/-- A step that can be counted, and the connection after it. -/
theorem served_of_countable (hc : Inv subscriptionLimit c) (hfresh : Fresh c i r c')
    (hcount : Countable overflowChecks c i r c') :
    Served subscriptionLimit c i (handleRequest overflowChecks subscriptionLimit c i).1
        (handleRequest overflowChecks subscriptionLimit c i).2 ∧
      Inv subscriptionLimit (handleRequest overflowChecks subscriptionLimit c i).2 := by
  obtain ⟨kind, filter, h⟩ | ⟨-, req, h⟩ | ⟨-, h⟩ := i.request.cases
  · have hsome : i.request.subscription.isSome = true := Option.isSome_of_eq_some h
    exact served_of_subscription h hc (hfresh hsome) (hcount hsome)
  · exact served_of_unsubscribe h hc
  · exact served_of_invalid h hc

theorem countable_of_served (hc : Inv subscriptionLimit c)
    (hserved : Served subscriptionLimit c i
      (handleRequest overflowChecks subscriptionLimit c i).1
      (handleRequest overflowChecks subscriptionLimit c i).2) :
    Countable overflowChecks c i r c' := by
  intro hsome
  obtain ⟨⟨kind, filter⟩, h⟩ := Option.isSome_iff_exists.mp hsome
  exact total_lt_of_served h hc hserved

variable {is : List (Incoming Filter)}

/-- From any state between requests. -/
theorem Inv.eachStep_iff (hc : Inv subscriptionLimit c)
    (hfresh : EachStep overflowChecks subscriptionLimit Fresh c is) :
    EachStep overflowChecks subscriptionLimit (Served subscriptionLimit) c is ↔
      EachStep overflowChecks subscriptionLimit (Countable overflowChecks) c is := by
  induction is generalizing c with
  | nil => exact Iff.rfl
  | cons i is ih =>
    obtain ⟨hfresh, hrest⟩ := hfresh
    constructor
    · rintro ⟨hserved, hlater⟩
      have hcount : Countable overflowChecks c i
          (handleRequest overflowChecks subscriptionLimit c i).1
          (handleRequest overflowChecks subscriptionLimit c i).2 := countable_of_served hc hserved
      have hnext := (served_of_countable hc hfresh hcount).2
      exact ⟨hcount, fun hok => (ih hnext (hrest hok)).mp (hlater hok)⟩
    · rintro ⟨hcount, hlater⟩
      obtain ⟨hserved, hnext⟩ := served_of_countable hc hfresh hcount
      exact ⟨hserved, fun hok => (ih hnext (hrest hok)).mpr (hlater hok)⟩

/-- The ids that are given to subscriptions. -/
def generated (is : List (Incoming Filter)) : List SubscriptionId :=
  (is.filter fun i => i.request.subscription.isSome).map Incoming.randomBytes

/-- What a request adds to the ids is the one given to it. -/
theorem mem_ids_handleRequest {id : SubscriptionId}
    (h : id ∈ (handleRequest overflowChecks subscriptionLimit c i).2.ids) :
    id ∈ generated [i] ∨ id ∈ c.ids := by
  obtain ⟨kind, filter, hi⟩ | ⟨-, req, hi⟩ | ⟨-, hi⟩ := i.request.cases
  · rw [handleRequest_subscription hi] at h
    split at h
    · exact .inr h
    · exact .inr h
    · split at h
      · refine (List.mem_cons.mp ((perm_ids_add c kind _).mem_iff.mp h)).imp_left fun h => ?_
        simp [generated, hi, h]
      · exact .inr h
  · have horder := i.order.perm c.subscriptions.entries
    obtain ⟨x, hx, rfl⟩ := List.mem_map.mp h
    refine .inr (List.mem_map_of_mem (Multimap.mem_of_mem_retainFirst horder (p := otherThan req.id)
      ?_))
    rw [handleRequest_unsubscribe hi] at hx
    split at hx <;> rename_i hremoved <;> rw [hremoved] <;> exact hx
  · rw [handleRequest_invalid hi] at h
    exact .inr h

/-- **Ids that are all different are fresh.** -/
theorem eachStep_fresh (hnodup : (generated is).Nodup)
    (hdisjoint : ∀ id ∈ generated is, id ∉ c.ids) :
    EachStep overflowChecks subscriptionLimit Fresh c is := by
  induction is generalizing c with
  | nil => trivial
  | cons i is ih =>
    have hsplit : generated (i :: is) = generated [i] ++ generated is := by
      rw [generated, ← List.singleton_append, List.filter_append, List.map_append]
      rfl
    rw [hsplit] at hnodup hdisjoint
    have hrest : (generated is).Nodup := hnodup.of_append_right
    refine ⟨fun hsome => hdisjoint _ (List.mem_append_left _ ?_), fun _ =>
      ih hrest fun id hid hmem => ?_⟩
    · simp [generated, hsome]
    · obtain hnew | hold := mem_ids_handleRequest hmem
      · exact List.disjoint_of_nodup_append hnodup hnew hid
      · exact hdisjoint id (List.mem_append_right _ hid) hold

/-- The topics of a connection that has ended are none. -/
theorem Inv.topics_close (hc : Inv subscriptionLimit c) : ∀ n ∈ c.close.topics, n = 0 := by
  intro n hn
  rw [Connection.close, topics_foldl] at hn
  obtain ⟨m, hm, rfl⟩ := Option.map_eq_some_iff.mp hn
  have hsum : ∀ l : List (Σ _ : SubscriptionKind, List (SubscriptionId × Option Filter)),
      (l.map fun e => (-(e.2.length : ℤ))).sum = -(((l.map fun e => e.2.length).sum : ℕ) : ℤ) := by
    intro l
    induction l with
    | nil => rfl
    | cons e l ih =>
      rw [List.map_cons, List.map_cons, List.sum_cons, List.sum_cons, ih]
      push_cast
      omega
  rw [hc.topics m hm, hsum, Multimap.sum_length (List.Perm.refl _)]
  exact Int.add_right_neg _

/-- **Every request of a run is served if and only if every subscription can be counted**, where
no id is given to two subscriptions at a time. -/
theorem eachStep_served_iff (overflowChecks metrics : Bool) (subscriptionLimit : UInt16)
    (is : List (Incoming Filter))
    (hfresh : EachStep overflowChecks subscriptionLimit Fresh (.new Filter metrics) is) :
    EachStep overflowChecks subscriptionLimit (Served subscriptionLimit) (.new Filter metrics) is ↔
      EachStep overflowChecks subscriptionLimit (Countable overflowChecks) (.new Filter metrics)
        is :=
  (inv_new subscriptionLimit metrics).eachStep_iff hfresh

/-! ### Many requests -/

/-- A request to subscribe to the heads, that gets the id `n`. -/
def subscribeTo (n : ℕ) : Incoming Unit where
  request := .ethSubscribe (some ⟨.newHeads, .none⟩)
  id := .null
  order := inOrder _
  randomBytes := ⟨toBe 16 n, length_toBe 16 n⟩
  sent := true

/-- A request to give up the subscription with the id `n`. -/
def unsubscribeFrom (n : ℕ) : Incoming Unit :=
  { subscribeTo n with request := .ethUnsubscribe (some ⟨(subscribeTo n).randomBytes⟩) }

theorem eachStep_served_subscribeTo :
    EachStep false 1 (Served 1) (.new Unit true)
      [subscribeTo 1, subscribeTo 2, unsubscribeFrom 1, subscribeTo 3] :=
  (eachStep_served_iff false true 1 _ (eachStep_fresh (by decide) (by decide))).mpr
    ⟨fun _ _ => by decide, fun _ => ⟨fun _ _ => by decide, fun _ =>
      ⟨fun h => absurd h (by decide), fun _ => ⟨fun _ _ => by decide, fun _ => trivial⟩⟩⟩⟩

/-- The requests to subscribe that get the ids below `n`. -/
def subscribeBelow : ℕ → List (Incoming Unit)
  | 0 => []
  | n + 1 => subscribeTo n :: subscribeBelow n

/-- Subscriptions that can all be counted are not many. -/
theorem total_add_lt {limit : UInt16} (hlimit : limit.toNat + 1 = UInt16.size)
    {c : Connection Unit} {n : ℕ} (hc : c.total < UInt16.size)
    (h : EachStep false limit (Countable false) c (subscribeBelow n)) :
    c.total + n < UInt16.size := by
  induction n generalizing c with
  | zero => exact hc
  | succ n ih =>
    have hlt : c.total + 1 < UInt16.size := h.1 rfl (.inr rfl)
    have hnext : handleRequest false limit c (subscribeTo n) =
        (.ok (subscribeTo n).subscribed, c.add .newHeads ((subscribeTo n).randomBytes, none)) := by
      rw [handleRequest_of_lt rfl hlt, if_pos (by omega)]
      rfl
    have hrest := h.2
    rw [hnext] at hrest
    have hlength := ih (by rwa [total_add]) (hrest rfl)
    rw [total_add] at hlength
    omega

theorem generated_subscribeBelow (n : ℕ) :
    generated (subscribeBelow n) =
      (List.range n).reverse.map fun k => (subscribeTo k).randomBytes := by
  induction n with
  | zero => rfl
  | succ n ih =>
    rw [List.range_succ, List.reverse_append, List.map_append, ← ih]
    rfl

theorem fresh_subscribeBelow (limit : UInt16) {n : ℕ} (hn : n ≤ 256 ^ 16) :
    EachStep false limit Fresh (.new Unit true) (subscribeBelow n) := by
  refine eachStep_fresh ?_ fun _ _ h => (by cases h)
  rw [generated_subscribeBelow]
  refine List.Nodup.map_on (fun a ha b hb hab => ?_) (List.nodup_reverse.mpr List.nodup_range)
  have hbound : ∀ k ∈ (List.range n).reverse, k < 256 ^ 16 := fun k hk =>
    (List.mem_range.mp (List.mem_reverse.mp hk)).trans_le hn
  exact toBe_injOn (hbound a ha) (hbound b hb)
    (congrArg (fun id : SubscriptionId => id.data.1) hab)

/-- **The subscription after the last one that can be counted** is accepted. -/
theorem not_eachStep_served_tooMany :
    EachStep false 65535 Fresh (.new Unit true) (subscribeBelow 65536) ∧
      ¬EachStep false 65535 (Served 65535) (.new Unit true) (subscribeBelow 65536) := by
  have hfresh := fresh_subscribeBelow 65535 (n := 65536) (by decide)
  refine ⟨hfresh, fun hserved => ?_⟩
  have hcount := ((inv_new 65535 true).eachStep_iff hfresh).mp hserved
  exact absurd (total_add_lt (by decide) (by decide) hcount) (by decide)

end Served

end Websocket

end Rpc

end MonadServices
