import MonadServices.Rpc.BlockBuffer
import MonadServices.Rpc.RpcHandler
import MonadServices.Rpc.Websocket

/-!
# Notifications of a websocket connection

A connection goes through requests of the client and events of the event server, one at a time. For
every block it looks at its subscriptions, kind by kind, and sends what each of them is to be told:
the head of the block, or those of its logs that a filter lets pass. Two of the kinds are told of
every state of a block and two of its proposal only, and before the logs are looked at, the bloom of
the block is asked whether there may be any that pass. A gap in the events closes the connection,
and so does a notification that cannot be sent.

**Every subscription is served as if it were alone**: what a client receives under an id is what
the blocks between the response that gave it the id and its request to give it up are to be told
for its kind and filter, in their order and each of them once
(`MonadServices.Rpc.Websocket.delivered`).
-/

namespace MonadServices

namespace Rpc

namespace Websocket

open Buffer (BlockCommitState)

open Jsonrpc (Response RequestId serializeWithSizeLimit)

/-! ### Events -/

/-- `JsonSerialized`: a value, and a text that has been written for it. -/
structure JsonSerialized (α : Type) where
  value : α
  serialized : RawValue

/-- `MonadNotification`. -/
structure MonadNotification (α : Type) where
  blockId : B256
  commitState : BlockCommitState
  data : α

/-- What is looked at in the header of a block. -/
structure Header where
  number : UInt64
  hash : B256
  logsBloom : FixedBytes 256

/-- What is looked at in a log. -/
structure Log where
  address : Address
  topics : List B256

abbrev HeaderNotification := JsonSerialized (MonadNotification (JsonSerialized Header))

abbrev LogNotification := JsonSerialized (MonadNotification (JsonSerialized Log))

/-- `EventServerEvent`, with the logs of the transactions of a block. -/
inductive EventServerEvent where
  | gap
  | block (commitState : BlockCommitState) (header : HeaderNotification)
      (transactions : List (List LogNotification))

/-- `COMMIT_STATE_FILTER`. -/
def commitStateFilter : BlockCommitState := .proposed

/-! ### Filters -/

/-- `FilteredParams`: **the filters**, by what they make of a block and of a log. -/
structure FilteredParams (Filter : Type) where
  filterBlockRange : Filter → UInt64 → Bool
  filterBlockHash : Filter → B256 → Bool
  matchesAddress : Filter → FixedBytes 256 → Bool
  matchesTopics : Filter → FixedBytes 256 → Bool
  filterAddress : Filter → Address → Bool
  filterTopics : Filter → List B256 → Bool

variable {Filter : Type} (params : FilteredParams Filter)

/-- `apply_logs_filter`; `none` when the block is skipped. -/
def applyLogsFilter (filter : Option Filter) (header : Header) (logs : List LogNotification) :
    Option (List LogNotification) :=
  match filter with
  | none => some logs
  | some filter =>
    if !params.filterBlockRange filter header.number ||
        !params.filterBlockHash filter header.hash then none
    else if !params.matchesAddress filter header.logsBloom ||
        !params.matchesTopics filter header.logsBloom then none
    else some (logs.filter fun log =>
      params.filterAddress filter log.value.data.value.address &&
        params.filterTopics filter log.value.data.value.topics)

/-! ### Sending -/

structure EthSubscribeResult where
  subscription : SubscriptionId
  result : RawValue

instance : Serialize EthSubscribeResult where
  toJson := fun r => .obj
    [("subscription", toJson r.subscription), ("result", toJson r.result)]

/-- `jsonrpc::Notification`. -/
structure Notification (α : Type) where
  jsonrpc : String
  method : String
  params : α

def Notification.new {α : Type} (method : String) (params : α) : Notification α :=
  ⟨"2.0", method, params⟩

instance {α : Type} [Serialize α] : Serialize (Notification α) where
  toJson := fun n => .obj
    [("jsonrpc", toJson n.jsonrpc), ("method", toJson n.method), ("params", toJson n.params)]

/-- `to_response`. -/
def toResponse {α : Type} [Serialize α] (value : α) : String := (toJson value).compact

/-- What `send_notification` sends: the notification, or an error in its place if it is too
long. -/
def notificationText (maxResponseSize : ℕ) (id : SubscriptionId) (result : RawValue) : String :=
  match serializeWithSizeLimit
    (Notification.new "eth_subscription" (EthSubscribeResult.mk id result)) maxResponseSize with
  | .ok raw => raw.text
  | .error _ => toResponse (Notification.new "eth_subscription" (EthSubscribeResult.mk id
      ⟨(toJson (Jsonrpc.JsonRpcError.internalError "notification exceeds size limit")).compact⟩))

/-- What `handle_notification` sends for a block, with the ids of the subscriptions. -/
def notifications (subscriptions : Subscriptions Filter) (commitState : BlockCommitState)
    (header : HeaderNotification) (transactions : List (List LogNotification)) :
    List (SubscriptionId × RawValue) :=
  (subscriptions.get .monadNewHeads).map (fun x => (x.1, header.serialized)) ++
  (if commitState = commitStateFilter then
    (subscriptions.get .newHeads).map fun x => (x.1, header.value.data.serialized)
  else []) ++
  (subscriptions.get .monadLogs).flatMap (fun x =>
    match applyLogsFilter params x.2 header.value.data.value transactions.flatten with
    | none => []
    | some logs => logs.map fun log => (x.1, log.serialized)) ++
  (if commitState = commitStateFilter then
    (subscriptions.get .logs).flatMap fun x =>
      match applyLogsFilter params x.2 header.value.data.value transactions.flatten with
      | none => []
      | some logs => logs.map fun log => (x.1, log.value.data.serialized)
  else [])

/-! ### The connection -/

/-- What is sent to the client. -/
inductive Message where
  | ping
  | pong
  | text (body : String)
  | notification (id : SubscriptionId) (body : String)

inductive CloseCode where
  | error
  | protocol
  deriving DecidableEq

/-- How a connection ends. -/
inductive Ending where
  /-- No reason is given. -/
  | quiet
  | closed (code : CloseCode) (description : Option String)
  | panicked (message : String)
  deriving DecidableEq

/-- The server could not send a notification. -/
def Ending.notificationFailed : Ending :=
  .closed .error (some "ws server failed to send notification")

/-- What happens to a connection. -/
inductive Input (Filter : Type) where
  | tick
  | ping
  | pong
  /-- A text that is no single request. -/
  | unreadable (sent : Bool)
  /-- `eth_subscribe` or `eth_unsubscribe`. -/
  | request (i : Incoming Filter)
  /-- Another method, and its result. -/
  | method (id : RequestId) (result : Except Jsonrpc.JsonRpcError RawValue) (sent : Bool)
  | close
  | protocolError (err : String)
  | ended
  /-- An event; the first notification that cannot be sent, if there is one. -/
  | event (e : EventServerEvent) (failing : Option ℕ)
  | lagged
  | shutdown

/-- What a connection is set up with. -/
structure Setup where
  overflowChecks : Bool
  subscriptionLimit : UInt16
  maxResponseSize : UInt32

/-- **A connection**, the time of the last sign of the client in milliseconds, and what has been
sent to it. -/
structure State (Filter : Type) where
  connection : Connection Filter
  lastHeartbeat : ℕ
  messages : List Message
  ending : Option Ending

/-- A connection that has been opened. -/
def State.new (Filter : Type) (metrics : Bool) (now : ℕ) : State Filter :=
  ⟨.new Filter metrics, now, [], none⟩

def State.push (st : State Filter) (messages : List Message) : State Filter :=
  { st with messages := st.messages ++ messages }

def State.heard (st : State Filter) (now : ℕ) : State Filter := { st with lastHeartbeat := now }

def State.stop (st : State Filter) (ending : Ending) : State Filter :=
  { st with ending := some ending }

variable (setup : Setup)

/-- A notification as it is sent. -/
def notify (x : SubscriptionId × RawValue) : Message :=
  .notification x.1 (notificationText setup.maxResponseSize.toNat x.1 x.2)

/-- The notifications up to the first one that cannot be sent. -/
def State.sendAll (st : State Filter) (xs : List (SubscriptionId × RawValue))
    (failing : Option ℕ) : State Filter :=
  if ∃ n ∈ failing, n < xs.length then
    (st.push ((xs.take (failing.getD 0)).map (notify setup))).stop .notificationFailed
  else st.push (xs.map (notify setup))

/-- The text of a response to another method. -/
def methodText (id : RequestId) (result : Except Jsonrpc.JsonRpcError RawValue) : String :=
  match serializeWithSizeLimit (Response.fromResult id result) setup.maxResponseSize.toNat with
  | .ok raw => raw.text
  | .error err => toResponse (Response.new none (some err) id)

/-- `handle_request`, and what becomes of the connection. -/
def State.handleRequest (st : State Filter) (i : Incoming Filter) : State Filter :=
  match Websocket.handleRequest setup.overflowChecks setup.subscriptionLimit st.connection i with
  | (.ok response, connection) => { st with connection }.push [.text (toResponse response)]
  | (.error (.error reason), connection) =>
    { st with connection }.stop (.closed .error reason.description)
  | (.error (.panic message), connection) => { st with connection }.stop (.panicked message)

/-- **One turn of the loop of `handler`.** -/
def step (st : State Filter) (now : ℕ) (input : Input Filter) : State Filter :=
  if st.ending.isSome then st
  else match input with
    | .tick =>
      if 60 * 1000 < now - st.lastHeartbeat then
        st.stop (.closed .protocol (some "ws server did not receive ping in 60s"))
      else st.push [.ping]
    | .ping => (st.heard now).push [.pong]
    | .pong => st.heard now
    | .unreadable sent =>
      if sent then (st.heard now).push [.text (toResponse (Response.fromError .invalidParams))]
      else (st.heard now).stop .quiet
    | .request i => (st.heard now).handleRequest setup i
    | .method id result sent =>
      if sent then (st.heard now).push [.text (methodText setup id result)]
      else (st.heard now).stop (.closed .error (some "ws server failed to send rpc response"))
    | .close => st.stop .quiet
    | .protocolError err => st.stop (.closed .protocol (some s!"ws protocol error: {err}"))
    | .ended => st.stop .quiet
    | .event .gap _ => st.stop (.closed .error (some "websocket server gapped"))
    | .event (.block commitState header transactions) failing =>
      st.sendAll setup (notifications params st.connection.subscriptions commitState header
        transactions) failing
    | .lagged =>
      st.stop (.closed .error (some "ws server lagging, please try again later"))
    | .shutdown => st.stop (.closed .error (some "ws server shutdown"))

/-- A connection after some inputs, each with its time. -/
def run (st : State Filter) (inputs : List (ℕ × Input Filter)) : State Filter :=
  inputs.foldl (fun st input => step params setup st input.1 input.2) st

/-! ### A subscription by itself -/

/-- What a client and the event server know of a connection. -/
inductive Entry (Filter : Type) where
  /-- A request has been handled; the response to it had a result or not. -/
  | answered (i : Incoming Filter) (accepted : Bool)
  | notified (e : EventServerEvent)

/-- The response has a result. -/
def accepted : Except (Halt CloseReason) Response → Bool
  | .ok response => response.result.isSome
  | .error _ => false

/-- What one input adds to that. -/
def entriesOf (st : State Filter) (input : Input Filter) : List (Entry Filter) :=
  if st.ending.isSome then []
  else match input with
    | .request i => [.answered i (accepted (Websocket.handleRequest setup.overflowChecks
        setup.subscriptionLimit st.connection i).1)]
    | .event e _ => [.notified e]
    | _ => []

/-- The requests and the events of a run. -/
def history (st : State Filter) : List (ℕ × Input Filter) → List (Entry Filter)
  | [] => []
  | input :: inputs => entriesOf setup st input.2 ++
      history (step params setup st input.1 input.2) inputs

/-- Whether a filter lets a log of a block pass. -/
def passes (filter : Option Filter) (header : Header) (log : LogNotification) : Bool :=
  match filter with
  | none => true
  | some filter =>
    params.filterBlockRange filter header.number && params.filterBlockHash filter header.hash &&
      (params.filterAddress filter log.value.data.value.address &&
        params.filterTopics filter log.value.data.value.topics)

/-- **What a subscription is to be told** for an event, by its kind and filter. -/
def wanted (s : SubscriptionKind × Option Filter) : EventServerEvent → List RawValue
  | .gap => []
  | .block commitState header transactions =>
    match s.1 with
    | .monadNewHeads => [header.serialized]
    | .newHeads => if commitState = .proposed then [header.value.data.serialized] else []
    | .monadLogs => (transactions.flatten.filter
        (passes params s.2 header.value.data.value)).map JsonSerialized.serialized
    | .logs =>
      if commitState = .proposed then
        (transactions.flatten.filter (passes params s.2 header.value.data.value)).map
          fun log => log.value.data.serialized
      else []

/-- The subscription with an id, after a request. -/
def subscribed (id : SubscriptionId) (s : Option (SubscriptionKind × Option Filter)) :
    Entry Filter → Option (SubscriptionKind × Option Filter)
  | .answered i accepted =>
    match i.request with
    | .ethSubscribe _ => if accepted = true ∧ i.randomBytes = id then i.request.subscription else s
    | .ethUnsubscribe (some req) => if req.id = id then none else s
    | .ethUnsubscribe none => s
  | .notified _ => s

/-- What a client is to be sent under an id at once. -/
def due (id : SubscriptionId) : Option (SubscriptionKind × Option Filter) → Entry Filter →
    List String
  | some s, .notified e =>
    (wanted params s e).map (notificationText setup.maxResponseSize.toNat id)
  | _, _ => []

/-- What a client is to receive under an id. -/
def expected (id : SubscriptionId) : Option (SubscriptionKind × Option Filter) →
    List (Entry Filter) → List String
  | _, [] => []
  | s, e :: rest => due params setup id s e ++ expected id (subscribed id s e) rest

/-- What a client has received under an id. -/
def textsOf (id : SubscriptionId) (messages : List Message) : List String :=
  messages.filterMap fun
    | .notification id' body => if id' = id then some body else none
    | _ => none

/-- **The bloom of a block covers its logs**: it is not taken to exclude a log that passes. -/
def BloomCovers : EventServerEvent → Prop
  | .gap => True
  | .block _ header transactions => ∀ filter, ∀ log ∈ transactions.flatten,
      params.filterAddress filter log.value.data.value.address = true →
      params.filterTopics filter log.value.data.value.topics = true →
      params.matchesAddress filter header.value.data.value.logsBloom = true ∧
        params.matchesTopics filter header.value.data.value.logsBloom = true

variable {params setup}

/-! ### What is sent for an event -/

section Sent

variable {header : Header} {logs : List LogNotification}

/-- A block that is skipped by its number, its hash or its bloom has no log that passes. -/
theorem passes_eq_false {filter : Filter} {log : LogNotification}
    (h : params.filterBlockRange filter header.number = false ∨
      params.filterBlockHash filter header.hash = false ∨
      ¬(params.filterAddress filter log.value.data.value.address = true ∧
        params.filterTopics filter log.value.data.value.topics = true)) :
    passes params (some filter) header log = false := by
  rw [Bool.eq_false_iff]
  intro hpasses
  simp only [passes, Bool.and_eq_true] at hpasses
  obtain ⟨⟨hrange, hhash⟩, hlog⟩ := hpasses
  obtain h | h | h := h
  · exact Bool.false_ne_true (h.symm.trans hrange)
  · exact Bool.false_ne_true (h.symm.trans hhash)
  · exact h hlog

/-- **The bloom leaves nothing out**: the logs that are sent are those that pass. -/
theorem applyLogsFilter_eq {β : Type} (f : LogNotification → β) (filter : Option Filter)
    (hcovers : ∀ filter, ∀ log ∈ logs,
      params.filterAddress filter log.value.data.value.address = true →
      params.filterTopics filter log.value.data.value.topics = true →
      params.matchesAddress filter header.logsBloom = true ∧
        params.matchesTopics filter header.logsBloom = true) :
    (match applyLogsFilter params filter header logs with
      | none => []
      | some logs => logs.map f) = (logs.filter (passes params filter header)).map f := by
  cases filter with
  | none =>
    have hall : logs.filter (passes params none header) = logs :=
      List.filter_eq_self.mpr fun _ _ => rfl
    rw [hall]
    rfl
  | some filter =>
    have hskipped : (∀ log ∈ logs, passes params (some filter) header log = false) →
        [] = (logs.filter (passes params (some filter) header)).map f := by
      intro h
      rw [List.filter_eq_nil_iff.mpr fun log hlog => Bool.eq_false_iff.mp (h log hlog)]
      rfl
    cases hrange : params.filterBlockRange filter header.number with
    | false =>
      simp only [applyLogsFilter, hrange]
      exact hskipped fun log _ => passes_eq_false (.inl hrange)
    | true =>
    cases hhash : params.filterBlockHash filter header.hash with
    | false =>
      simp only [applyLogsFilter, hrange, hhash]
      exact hskipped fun log _ => passes_eq_false (.inr (.inl hhash))
    | true =>
    by_cases hbloom : params.matchesAddress filter header.logsBloom = true ∧
        params.matchesTopics filter header.logsBloom = true
    · have hpasses : passes params (some filter) header = fun log =>
          params.filterAddress filter log.value.data.value.address &&
            params.filterTopics filter log.value.data.value.topics := by
        funext log
        simp only [passes, hrange, hhash, Bool.true_and]
      simp [applyLogsFilter, hrange, hhash, hbloom, hpasses]
    · have hnone : applyLogsFilter params (some filter) header logs = none := by
        simp only [applyLogsFilter, hrange, hhash, Bool.not_true, Bool.or_self,
          Bool.false_eq_true, if_false]
        rw [if_pos]
        rw [not_and_or, Bool.not_eq_true, Bool.not_eq_true] at hbloom
        simpa using hbloom
      rw [hnone]
      exact hskipped fun log hlog => passes_eq_false
        (.inr (.inr fun h => hbloom (hcovers filter log hlog h.1 h.2)))

/-- The kinds, in the order in which they are served. -/
def kinds : List SubscriptionKind := [.monadNewHeads, .newHeads, .monadLogs, .logs]

/-- What is sent for a block is what every subscription is to be told. -/
theorem notifications_eq {subscriptions : Subscriptions Filter} {commitState : BlockCommitState}
    {header : HeaderNotification} {transactions : List (List LogNotification)}
    (hcovers : BloomCovers params (.block commitState header transactions)) :
    notifications params subscriptions commitState header transactions =
      kinds.flatMap fun kind => (subscriptions.get kind).flatMap fun x =>
        (wanted params (kind, x.2) (.block commitState header transactions)).map fun raw =>
          (x.1, raw) := by
  have hlogs := fun (f : LogNotification → SubscriptionId × RawValue) filter =>
    applyLogsFilter_eq f filter hcovers
  have hheads : ∀ (l : List (SubscriptionId × Option Filter)) (raw : RawValue),
      l.map (fun x => (x.1, raw)) = l.flatMap fun x => [(x.1, raw)] := fun _ _ =>
    List.map_eq_flatMap
  have hnothing : ∀ l : List (SubscriptionId × Option Filter),
      (l.flatMap fun _ => ([] : List (SubscriptionId × RawValue))) = [] := fun _ =>
    List.flatMap_eq_nil_iff.mpr fun _ _ => rfl
  simp only [notifications, hlogs, kinds, List.flatMap_cons, List.flatMap_nil, List.append_nil,
    List.append_assoc, wanted, commitStateFilter, hheads]
  rcases eq_or_ne commitState .proposed with hproposed | hother
  · simp only [if_pos hproposed, List.map_cons, List.map_nil, List.map_map]
    rfl
  · simp only [if_neg hother, List.map_cons, List.map_nil, List.map_map, hnothing,
      List.nil_append, List.append_nil]
    rfl

end Sent

/-! ### One subscription -/

/-- **What there is under an id.** -/
def Views (c : Connection Filter) (id : SubscriptionId)
    (s : Option (SubscriptionKind × Option Filter)) : Prop :=
  ∀ kind filter, (id, filter) ∈ c.subscriptions.get kind ↔ s = some (kind, filter)

/-- What is sent under an id is sent for the subscriptions with the id. -/
theorem filter_flatMap {β : Type} (l : List (SubscriptionId × Option Filter))
    (g : Option Filter → List β) (id : SubscriptionId) :
    (l.flatMap fun x => (g x.2).map fun b => (x.1, b)).filter (fun y => y.1 = id) =
      (l.filter fun x => x.1 = id).flatMap fun x => (g x.2).map fun b => (x.1, b) := by
  induction l with
  | nil => rfl
  | cons x l ih =>
    rw [List.flatMap_cons, List.filter_append, ih, List.filter_cons]
    by_cases hx : x.1 = id
    · rw [if_pos (decide_eq_true hx), List.flatMap_cons, List.filter_eq_self.mpr]
      intro y hy
      obtain ⟨b, -, rfl⟩ := List.mem_map.mp hy
      exact decide_eq_true hx
    · rw [if_neg (by simpa using hx), List.filter_eq_nil_iff.mpr, List.nil_append]
      intro y hy
      obtain ⟨b, -, rfl⟩ := List.mem_map.mp hy
      simpa using hx

variable {c : Connection Filter} {id : SubscriptionId}
  {s : Option (SubscriptionKind × Option Filter)}

/-- The ids of a kind are all different. -/
theorem nodup_get (hnodup : c.ids.Nodup) (kind : SubscriptionKind) :
    ((c.subscriptions.get kind).map Prod.fst).Nodup := by
  have hperm := (Multimap.perm_elements c.subscriptions kind).map Prod.fst
  rw [List.map_append] at hperm
  exact (hperm.nodup_iff.mp hnodup).of_append_left

/-- What a kind has under an id. -/
theorem Views.filter_get (h : Views c id s) (hnodup : c.ids.Nodup) (kind : SubscriptionKind) :
    (c.subscriptions.get kind).filter (fun x => x.1 = id) =
      match s with
      | some (kind', filter) => if kind' = kind then [(id, filter)] else []
      | none => [] := by
  have hnone : (∀ filter, s ≠ some (kind, filter)) →
      (c.subscriptions.get kind).filter (fun x => x.1 = id) = [] := by
    intro hs
    refine List.filter_eq_nil_iff.mpr fun x hx hid => ?_
    obtain rfl : x.1 = id := of_decide_eq_true hid
    exact hs x.2 ((h kind x.2).mp hx)
  match s, h, hnone with
  | none, h, hnone => exact hnone fun filter hs => (by cases hs)
  | some (kind', filter), h, hnone =>
    dsimp only
    split
    · rename_i hkind
      subst hkind
      have hmem : (id, filter) ∈ c.subscriptions.get kind' := (h kind' filter).mpr rfl
      have hkeys := nodup_get hnodup kind'
      obtain ⟨pre, post, hsplit⟩ := List.append_of_mem hmem
      rw [hsplit, List.map_append, List.map_cons, List.nodup_middle, List.nodup_cons,
        List.mem_append, not_or] at hkeys
      have hother : ∀ l : List (SubscriptionId × Option Filter), id ∉ l.map Prod.fst →
          l.filter (fun x => x.1 = id) = [] := fun l hl =>
        List.filter_eq_nil_iff.mpr fun x hx hid =>
          hl (of_decide_eq_true hid ▸ List.mem_map_of_mem hx)
      rw [hsplit, List.filter_append, List.filter_cons, hother pre hkeys.1.1,
        hother post hkeys.1.2]
      simp
    · rename_i hkind
      refine hnone fun filter' hs => hkind ?_
      exact (Prod.mk.inj (Option.some.inj hs)).1

/-- **What is sent under an id for a block.** -/
theorem Views.filter_notifications {commitState : BlockCommitState} {header : HeaderNotification}
    {transactions : List (List LogNotification)} (h : Views c id s) (hnodup : c.ids.Nodup)
    (hcovers : BloomCovers params (.block commitState header transactions)) :
    (notifications params c.subscriptions commitState header transactions).filter
        (fun y => y.1 = id) =
      match s with
      | some s => (wanted params s (.block commitState header transactions)).map fun raw =>
          (id, raw)
      | none => [] := by
  rw [notifications_eq hcovers, List.filter_flatMap]
  have hkind : ∀ kind, ((c.subscriptions.get kind).flatMap fun x =>
      (wanted params (kind, x.2) (.block commitState header transactions)).map fun raw =>
        (x.1, raw)).filter (fun y => y.1 = id) =
      match s with
      | some (kind', filter) => if kind' = kind then
          (wanted params (kind, filter) (.block commitState header transactions)).map fun raw =>
            (id, raw) else []
      | none => [] := by
    intro kind
    rw [filter_flatMap (g := fun filter => wanted params (kind, filter) _), h.filter_get hnodup]
    cases s with
    | none => rfl
    | some s =>
      obtain ⟨kind', filter⟩ := s
      dsimp only
      split
      · simp
      · rfl
  simp only [hkind]
  cases s with
  | none => rfl
  | some s =>
    obtain ⟨kind, filter⟩ := s
    cases kind <;> simp [kinds]

/-! ### What a request changes -/

section Requests

variable {i : Incoming Filter}

theorem accepted_send (response : Response) :
    accepted (i.send response) = (i.sent && response.result.isSome) := by
  unfold Incoming.send
  cases i.sent <;> rfl

/-- A subscription is added. -/
theorem Views.add {kind : SubscriptionKind} {filter : Option Filter} {id' : SubscriptionId}
    (h : Views c id s) (hfresh : id' ∉ c.ids) :
    Views (c.add kind (id', filter)) id (if id' = id then some (kind, filter) else s) := by
  intro kind' filter'
  have hget : (c.add kind (id', filter)).subscriptions.get kind' =
      if kind' = kind then c.subscriptions.get kind ++ [(id', filter)]
      else c.subscriptions.get kind' := by
    split
    · rename_i hkind
      rw [hkind]
      exact Multimap.get_insert_self _ _ _
    · rename_i hkind
      exact Multimap.get_insert_of_ne hkind
  rw [hget]
  by_cases hid : id' = id
  · -- There was nothing under the id before.
    subst hid
    have hnone : ∀ kind filter, (id', filter) ∉ c.subscriptions.get kind := fun kind filter hmem =>
      hfresh (List.mem_map_of_mem (f := Prod.fst) (Multimap.mem_elements.mpr ⟨kind, hmem⟩))
    rw [if_pos rfl]
    split
    · rename_i hkind
      subst hkind
      simp [hnone, eq_comm]
    · rename_i hkind
      simp [hnone, Ne.symm hkind]
  · rw [if_neg hid, ← h kind' filter']
    split
    · rename_i hkind
      subst hkind
      simp [Ne.symm hid]
    · exact Iff.rfl

theorem subscribed_of_subscription {x : SubscriptionKind × Option Filter}
    (h : i.request.subscription = some x) (accepted : Bool) :
    subscribed id s (.answered i accepted) =
      if accepted = true ∧ i.randomBytes = id then some x else s := by
  obtain ⟨request, rid, order, randomBytes, sent⟩ := i
  cases request with
  | ethSubscribe params =>
    simp only [subscribed]
    rw [h]
  | ethUnsubscribe params => cases h

/-- **What there is under an id after a request.** -/
theorem Views.handleRequest (overflowChecks : Bool) (subscriptionLimit : UInt16)
    (h : Views c id s) (hnodup : c.ids.Nodup)
    (hfresh : i.request.subscription.isSome = true → i.randomBytes ∉ c.ids) :
    Views (Websocket.handleRequest overflowChecks subscriptionLimit c i).2 id
        (subscribed id s (.answered i
          (accepted (Websocket.handleRequest overflowChecks subscriptionLimit c i).1))) ∧
      (Websocket.handleRequest overflowChecks subscriptionLimit c i).2.ids.Nodup := by
  obtain ⟨kind, filter, hrequest⟩ | ⟨-, req, hrequest⟩ | ⟨-, hrequest⟩ := i.request.cases
  · have hfresh := hfresh (Option.isSome_of_eq_some hrequest)
    rw [subscribed_of_subscription hrequest, handleRequest_subscription hrequest]
    split
    · exact ⟨h, hnodup⟩
    · rw [accepted_send, if_neg (by simp [Incoming.limitReached, Response.new])]
      exact ⟨h, hnodup⟩
    · cases hsent : i.sent with
      | true =>
        have haccepted : accepted (i.send i.subscribed) = true := by
          rw [accepted_send, hsent]
          rfl
        simp only [haccepted, true_and, if_true]
        exact ⟨h.add hfresh, (perm_ids_add c kind _).nodup_iff.mpr
          (List.nodup_cons.mpr ⟨hfresh, hnodup⟩)⟩
      | false =>
        rw [accepted_send, hsent, if_neg (by simp)]
        exact ⟨h, hnodup⟩
  · have hone : ∀ k k' a a', a ∈ c.subscriptions.get k → otherThan req.id a = false →
        a' ∈ c.subscriptions.get k' → otherThan req.id a' = false → k = k' :=
      fun _ _ _ _ ha hid ha' hid' => Multimap.eq_of_nodup hnodup ha ha'
        ((eq_of_otherThan hid).trans (eq_of_otherThan hid').symm)
    have horder := i.order.perm c.subscriptions.entries
    have hget := Multimap.get_retainFirst horder hone
    have hperm := (Multimap.perm_elements_retainFirst horder hone).map Prod.fst
    have hsubscribed : ∀ a, subscribed id s (.answered i a) = if req.id = id then none else s := by
      intro a
      simp only [subscribed, hrequest]
    -- Whatever is answered, the lists keep the other subscriptions.
    have hkept : ∀ c' : Connection Filter, c'.subscriptions =
        (c.subscriptions.retainFirst (i.order.order c.subscriptions.entries)
          (otherThan req.id)).2 →
        Views c' id (if req.id = id then none else s) ∧ c'.ids.Nodup := by
      intro c' hc'
      refine ⟨fun kind filter => ?_, ?_⟩
      · rw [hc', hget, List.mem_filter, h kind filter]
        by_cases hid : req.id = id
        · simp [otherThan, hid]
        · simp [otherThan, hid, Ne.symm hid]
      · rw [Connection.ids, hc', hperm.nodup_iff]
        exact hnodup.sublist (List.filter_sublist.map _)
    rw [hsubscribed, handleRequest_unsubscribe hrequest]
    split <;> rename_i hremoved <;> exact hkept _ (congrArg Prod.snd hremoved).symm
  · rw [handleRequest_invalid hrequest, accepted_send]
    refine ⟨?_, hnodup⟩
    obtain ⟨request, rid, order, randomBytes, sent⟩ := i
    obtain params | (_ | req) := request
    · simpa [subscribed, Incoming.invalidParams, Response.new] using h
    · exact h
    · cases hrequest

end Requests

/-! ### One turn -/

section Turns

variable {st st' : State Filter} {es : List (Entry Filter)}

theorem textsOf_append (id : SubscriptionId) (messages messages' : List Message) :
    textsOf id (messages ++ messages') = textsOf id messages ++ textsOf id messages' :=
  List.filterMap_append

theorem textsOf_map_notify (id : SubscriptionId) (xs : List (SubscriptionId × RawValue)) :
    textsOf id (xs.map (notify setup)) = (xs.filter fun x => x.1 = id).map fun x =>
      notificationText setup.maxResponseSize.toNat id x.2 := by
  induction xs with
  | nil => rfl
  | cons x xs ih =>
    rw [List.map_cons, ← List.singleton_append, textsOf_append, ih, List.filter_cons]
    by_cases hx : x.1 = id
    · rw [if_pos (decide_eq_true hx), List.map_cons, ← hx]
      simp [textsOf, notify]
    · rw [if_neg (by simpa using hx)]
      simp [textsOf, notify, hx]

theorem expected_append (id : SubscriptionId) (s : Option (SubscriptionKind × Option Filter))
    (es es' : List (Entry Filter)) :
    expected params setup id s (es ++ es') =
      expected params setup id s es ++
        expected params setup id (es.foldl (subscribed id) s) es' := by
  induction es generalizing s with
  | nil => rfl
  | cons e es ih =>
    rw [List.cons_append, expected, ih, expected, List.foldl_cons, List.append_assoc]

/-- **What is sent under an id is what is expected**, or a part of it if it cannot all be sent. -/
def Told (params : FilteredParams Filter) (setup : Setup) (id : SubscriptionId)
    (s : Option (SubscriptionKind × Option Filter)) (st st' : State Filter)
    (es : List (Entry Filter)) : Prop :=
  ∃ texts, textsOf id st'.messages = textsOf id st.messages ++ texts ∧
    texts <+: expected params setup id s es ∧
    (st'.ending ≠ some .notificationFailed → texts = expected params setup id s es)

/-- What one turn does to a subscription. -/
structure Turn (params : FilteredParams Filter) (setup : Setup) (id : SubscriptionId)
    (s : Option (SubscriptionKind × Option Filter)) (st st' : State Filter)
    (es : List (Entry Filter)) : Prop where
  told : Told params setup id s st st' es
  views : Views st'.connection id (es.foldl (subscribed id) s)
  nodup : st'.connection.ids.Nodup

/-- Nothing is to be told, and nothing is. -/
theorem told_of_eq (htexts : textsOf id st'.messages = textsOf id st.messages)
    (hexpected : expected params setup id s es = []) : Told params setup id s st st' es :=
  ⟨[], by rw [htexts, List.append_nil], List.nil_prefix, fun _ => hexpected.symm⟩

/-- A turn that leaves the subscriptions alone. -/
theorem turn_of_eq (hviews : Views st.connection id s) (hnodup : st.connection.ids.Nodup)
    (hconnection : st'.connection = st.connection)
    (htexts : textsOf id st'.messages = textsOf id st.messages) :
    Turn params setup id s st st' [] :=
  ⟨told_of_eq htexts rfl, hconnection ▸ hviews, hconnection ▸ hnodup⟩

theorem textsOf_push_text (id : SubscriptionId) (st : State Filter) (body : String) :
    textsOf id (st.push [.text body]).messages = textsOf id st.messages := by
  rw [State.push, textsOf_append]
  exact List.append_nil _

/-- A request is answered. -/
theorem turn_handleRequest {i : Incoming Filter} (hviews : Views st.connection id s)
    (hnodup : st.connection.ids.Nodup)
    (hfresh : i.request.subscription.isSome = true → i.randomBytes ∉ st.connection.ids) :
    Turn params setup id s st (st.handleRequest setup i)
      [.answered i (accepted (Websocket.handleRequest setup.overflowChecks
        setup.subscriptionLimit st.connection i).1)] := by
  obtain ⟨hviews', hnodup'⟩ :=
    hviews.handleRequest setup.overflowChecks setup.subscriptionLimit hnodup hfresh
  have hturn : ∀ st' : State Filter, st'.connection = (Websocket.handleRequest
      setup.overflowChecks setup.subscriptionLimit st.connection i).2 →
      textsOf id st'.messages = textsOf id st.messages →
      Turn params setup id s st st' [.answered i (accepted (Websocket.handleRequest
        setup.overflowChecks setup.subscriptionLimit st.connection i).1)] := by
    intro st' hconnection htexts
    refine ⟨told_of_eq htexts ?_, hconnection ▸ hviews', hconnection ▸ hnodup'⟩
    cases s <;> rfl
  unfold State.handleRequest
  split <;> rename_i hout
  · exact hturn _ (congrArg Prod.snd hout).symm (textsOf_push_text id _ _)
  · exact hturn _ (congrArg Prod.snd hout).symm rfl
  · exact hturn _ (congrArg Prod.snd hout).symm rfl

/-- The notifications for a block are sent. -/
theorem turn_sendAll {commitState : BlockCommitState} {header : HeaderNotification}
    {transactions : List (List LogNotification)} (failing : Option ℕ)
    (hviews : Views st.connection id s) (hnodup : st.connection.ids.Nodup)
    (hcovers : BloomCovers params (.block commitState header transactions)) :
    Turn params setup id s st (st.sendAll setup (notifications params st.connection.subscriptions
      commitState header transactions) failing)
      [.notified (.block commitState header transactions)] := by
  have hexpected : expected params setup id s [.notified (.block commitState header transactions)] =
      ((notifications params st.connection.subscriptions commitState header transactions).filter
        fun x => x.1 = id).map fun x =>
          notificationText setup.maxResponseSize.toNat id x.2 := by
    rw [hviews.filter_notifications hnodup hcovers]
    cases s with
    | none => rfl
    | some s => simp [expected, due, Function.comp_def]
  unfold State.sendAll
  split
  · refine ⟨⟨_, textsOf_append id _ _, ?_, fun h => absurd rfl h⟩, hviews, hnodup⟩
    rw [hexpected, textsOf_map_notify]
    exact ((List.take_prefix _ _).filter _).map _
  · refine ⟨⟨_, textsOf_append id _ _, ?_, fun _ => ?_⟩, hviews, hnodup⟩
    · rw [hexpected, textsOf_map_notify]
    · rw [hexpected, textsOf_map_notify]

/-- What a request may get is not in use. -/
def FreshInput (st : State Filter) : Input Filter → Prop
  | .request i => i.request.subscription.isSome = true → i.randomBytes ∉ st.connection.ids
  | _ => True

def CoversInput (params : FilteredParams Filter) : Input Filter → Prop
  | .event e _ => BloomCovers params e
  | _ => True

/-- **One turn.** -/
theorem turn_step (setup : Setup) (now : ℕ) {input : Input Filter}
    (hviews : Views st.connection id s) (hnodup : st.connection.ids.Nodup)
    (hfresh : FreshInput st input) (hcovers : CoversInput params input) :
    Turn params setup id s st (step params setup st now input) (entriesOf setup st input) := by
  unfold step entriesOf
  split
  · exact turn_of_eq hviews hnodup rfl rfl
  cases input with
  | tick =>
    dsimp only
    split
    · exact turn_of_eq hviews hnodup rfl rfl
    · exact turn_of_eq hviews hnodup rfl
        ((textsOf_append id _ _).trans (List.append_nil _))
  | ping =>
    exact turn_of_eq hviews hnodup rfl ((textsOf_append id _ _).trans (List.append_nil _))
  | unreadable sent =>
    dsimp only
    split
    · exact turn_of_eq hviews hnodup rfl (textsOf_push_text id _ _)
    · exact turn_of_eq hviews hnodup rfl rfl
  | request i =>
    have hturn : Turn params setup id s (st.heard now) ((st.heard now).handleRequest setup i) _ :=
      turn_handleRequest hviews hnodup hfresh
    exact ⟨hturn.told, hturn.views, hturn.nodup⟩
  | method rid result sent =>
    dsimp only
    split
    · exact turn_of_eq hviews hnodup rfl (textsOf_push_text id _ _)
    · exact turn_of_eq hviews hnodup rfl rfl
  | event e failing =>
    cases e with
    | gap =>
      refine ⟨told_of_eq rfl ?_, hviews, hnodup⟩
      cases s <;> rfl
    | block commitState header transactions =>
      exact turn_sendAll failing hviews hnodup hcovers
  | pong | close | protocolError err | ended | lagged | shutdown =>
    exact turn_of_eq hviews hnodup rfl rfl

end Turns

/-! ### Runs -/

section Runs

variable {st : State Filter} {inputs : List (ℕ × Input Filter)}

/-- The requests of a run. -/
def requestsOf (inputs : List (ℕ × Input Filter)) : List (Incoming Filter) :=
  inputs.filterMap fun
    | (_, .request i) => some i
    | _ => none

theorem run_of_ending (h : st.ending.isSome = true) : run params setup st inputs = st := by
  induction inputs with
  | nil => rfl
  | cons input inputs ih =>
    have hstep : step params setup st input.1 input.2 = st := if_pos h
    rw [run, List.foldl_cons, hstep]
    exact ih

theorem history_of_ending (h : st.ending.isSome = true) : history params setup st inputs = [] := by
  induction inputs with
  | nil => rfl
  | cons input inputs ih =>
    have hstep : step params setup st input.1 input.2 = st := if_pos h
    have hentries : entriesOf setup st input.2 = [] := if_pos h
    rw [history, hstep, hentries, ih, List.append_nil]

/-- The ids after a turn are those from before, and the one that was given. -/
theorem mem_ids_step (input : ℕ × Input Filter) {id : SubscriptionId}
    (h : id ∈ (step params setup st input.1 input.2).connection.ids) :
    id ∈ generated (requestsOf [input]) ∨ id ∈ st.connection.ids := by
  obtain ⟨now, input⟩ := input
  unfold step at h
  split at h
  · exact .inr h
  cases input with
  | request i =>
    have hconnection : ((st.heard now).handleRequest setup i).connection =
        (handleRequest setup.overflowChecks setup.subscriptionLimit st.connection i).2 := by
      unfold State.handleRequest
      split <;> rename_i hout <;> exact (congrArg Prod.snd hout).symm
    dsimp only at h
    rw [hconnection] at h
    exact mem_ids_handleRequest h
  | tick | unreadable sent | method rid result sent =>
    dsimp only at h
    split at h <;> exact .inr h
  | event e failing =>
    cases e with
    | gap => exact .inr h
    | block commitState header transactions =>
      dsimp only [State.sendAll] at h
      split at h <;> exact .inr h
  | ping | pong | close | protocolError err | ended | lagged | shutdown => exact .inr h

/-- From any state of a connection. -/
theorem told_run (setup : Setup) {id : SubscriptionId}
    {s : Option (SubscriptionKind × Option Filter)} (hviews : Views st.connection id s)
    (hnodup : st.connection.ids.Nodup) (hids : (generated (requestsOf inputs)).Nodup)
    (hdisjoint : ∀ id' ∈ generated (requestsOf inputs), id' ∉ st.connection.ids)
    (hcovers : ∀ input ∈ inputs, CoversInput params input.2) :
    Told params setup id s st (run params setup st inputs) (history params setup st inputs) := by
  induction inputs generalizing st s with
  | nil => exact told_of_eq rfl rfl
  | cons input inputs ih =>
    obtain ⟨now, input⟩ := input
    have hsplit : generated (requestsOf ((now, input) :: inputs)) =
        generated (requestsOf [(now, input)]) ++ generated (requestsOf inputs) := by
      rw [generated, ← List.singleton_append, requestsOf, List.filterMap_append,
        List.filter_append, List.map_append]
      rfl
    rw [hsplit] at hids hdisjoint
    have hfresh : FreshInput st input := by
      cases input with
      | request i =>
        intro hsome
        exact hdisjoint _ (List.mem_append_left _ (by simp [requestsOf, generated, hsome]))
      | _ => trivial
    obtain ⟨⟨texts, htexts, hbegins, heq⟩, hviews', hnodup'⟩ :=
      turn_step setup now hviews hnodup hfresh (hcovers _ List.mem_cons_self)
    rw [run, List.foldl_cons, history]
    cases hending : (step params setup st now input).ending with
    | some ending =>
      -- The connection has ended, and the rest of the inputs is not looked at.
      have hsome : (step params setup st now input).ending.isSome = true :=
        Option.isSome_of_eq_some hending
      rw [← run, run_of_ending hsome, history_of_ending hsome, List.append_nil]
      exact ⟨texts, htexts, hbegins, heq⟩
    | none =>
      obtain ⟨texts', htexts', hbegins', heq'⟩ := ih hviews' hnodup' hids.of_append_right
        (fun id' hid' hmem => by
          obtain hnew | hold := mem_ids_step (now, input) hmem
          · exact List.disjoint_of_nodup_append hids hnew hid'
          · exact hdisjoint id' (List.mem_append_right _ hid') hold)
        (fun input hinput => hcovers input (List.mem_cons_of_mem _ hinput))
      have hall : texts = expected params setup id s (entriesOf setup st input) :=
        heq (by rw [hending]; exact fun h => (by cases h))
      refine ⟨texts ++ texts', ?_, ?_, fun hfailed => ?_⟩
      · rw [← List.append_assoc, ← htexts]
        exact htexts'
      · rw [expected_append, hall]
        exact (List.prefix_append_right_inj _).mpr hbegins'
      · rw [expected_append, hall, heq' hfailed]

/-- **Every subscription is served as if it were alone.** What a client has received under an id is
what is expected of the history of the connection, or the beginning of it if the connection has
been closed because a notification could not be sent; where the ids are all different, and the
blooms of the blocks cover their logs. -/
theorem delivered (params : FilteredParams Filter) (setup : Setup) (metrics : Bool) (now : ℕ)
    (inputs : List (ℕ × Input Filter)) (id : SubscriptionId)
    (hids : (generated (requestsOf inputs)).Nodup)
    (hcovers : ∀ input ∈ inputs, CoversInput params input.2) :
    textsOf id (run params setup (.new Filter metrics now) inputs).messages <+:
        expected params setup id none (history params setup (.new Filter metrics now) inputs) ∧
      ((run params setup (.new Filter metrics now) inputs).ending ≠ some .notificationFailed →
        textsOf id (run params setup (.new Filter metrics now) inputs).messages =
          expected params setup id none
            (history params setup (.new Filter metrics now) inputs)) := by
  have hviews : Views (State.new Filter metrics now).connection id none := fun _ _ =>
    ⟨fun h => (by cases h), fun h => (by cases h)⟩
  obtain ⟨texts, htexts, hbegins, heq⟩ := told_run setup hviews List.nodup_nil hids
    (fun _ _ h => (by cases h)) hcovers
  have hnone : textsOf id (State.new Filter metrics now).messages = [] := rfl
  rw [hnone, List.nil_append] at htexts
  rw [htexts]
  exact ⟨hbegins, heq⟩

/-- Filters that let everything pass. -/
def sampleParams : FilteredParams Unit where
  filterBlockRange := fun _ _ => true
  filterBlockHash := fun _ _ => true
  matchesAddress := fun _ _ => true
  matchesTopics := fun _ _ => true
  filterAddress := fun _ _ => true
  filterTopics := fun _ _ => true

def sampleSetup : Setup := ⟨false, 10, 25000000⟩

theorem length_sampleBloom : (toBe 256 0).length = 256 := length_toBe 256 0

/-- The header of a block. -/
def sampleHeader : HeaderNotification where
  value :=
    { blockId := word 1
      commitState := .proposed
      data := ⟨⟨7, word 2, toBe 256 0, length_sampleBloom⟩, ⟨"\x7b\"number\":\"0x7\"\x7d"⟩⟩ }
  serialized := ⟨"\x7b\"commitState\":\"Proposed\",\"number\":\"0x7\"\x7d"⟩

/-- There is a block before and one after the client gives up its subscription. -/
def sampleInputs : List (ℕ × Input Unit) :=
  [(0, .request (subscribeTo 1)), (1, .event (.block .proposed sampleHeader []) none),
    (2, .event (.block .voted sampleHeader []) none), (3, .request (unsubscribeFrom 1)),
    (4, .event (.block .proposed sampleHeader []) none)]

/-- The block before is notified of once, by its proposal. -/
example : (expected sampleParams sampleSetup (subscribeTo 1).randomBytes none
    (history sampleParams sampleSetup (.new Unit true 0) sampleInputs)).length = 1 := by decide

theorem delivered_sample :
    textsOf (subscribeTo 1).randomBytes
        (run sampleParams sampleSetup (.new Unit true 0) sampleInputs).messages =
      expected sampleParams sampleSetup (subscribeTo 1).randomBytes none
        (history sampleParams sampleSetup (.new Unit true 0) sampleInputs) :=
  (delivered sampleParams sampleSetup true 0 sampleInputs (subscribeTo 1).randomBytes (by decide)
    (by simp [sampleInputs, CoversInput, BloomCovers])).2 (by decide)

end Runs

end Websocket

end Rpc

end MonadServices
