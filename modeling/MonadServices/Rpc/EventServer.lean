import MonadServices.Lib.Followers
import MonadServices.Rpc.WebsocketHandler

/-!
# From the execution events to the clients

The event server reads the ring of execution events, and gives each of them to a block builder. An
update of the builder is sent as an event to a broadcast channel, with the texts that the
connections send on. When the reader has fallen behind the ring, or the payload of an event has
expired, the server sends a gap and starts anew. An error that should not occur stops its task, and
from then on nobody can subscribe; but the connections that are there do not notice, for the channel
is kept open by the clients of the server.

A connection that has been opened gets what is sent from then on. It is closed at a gap, and when it
has been too slow for the channel. What it is given is determined by the turns of the server, its
own receives and its requests (`MonadServices.Rpc.EventServer.System.watch`): with each receive the
next of **everything that the server has sent since it was opened, and there is no gap in it** while
it is open; and what its client has received under an id is what these events are to be told for the
subscription with the id (`MonadServices.Rpc.EventServer.connection_served`). There are never more
of them open than the limit allows (`MonadServices.Rpc.EventServer.countP_open_le`).
-/

namespace MonadServices

namespace Rpc

namespace EventServer

open Buffer (BlockCommitState)

open Websocket

/-! ### Events -/

/-- What is read of the blocks, and the fields of headers and logs as they are written. -/
structure Kinds extends Buffer.Kinds where
  Log : Type
  logs : Receipt → List Log
  logsBloom : Header → FixedBytes 256
  address : Log → Address
  topics : Log → List B256
  headerFields : Header → List (String × Json)
  logFields : Log → List (String × Json)
  blockIdJson : B256 → Json
  commitStateJson : BlockCommitState → Json

/-- `ExecutedBlock`: a block with the id of its proposal. -/
structure ExecutedBlock (K : Kinds) extends Buffer.ExecutedBlock K.toKinds where
  id : B256

/-- `EventServerEvent`, as it is made of a block. -/
inductive ServerEvent (K : Kinds) where
  | gap
  | block (commitState : BlockCommitState) (block : ExecutedBlock K)

variable {K : Kinds}

/-- `JsonSerialized::new`, for an object with some fields. -/
def jsonSerialized {α : Type} (value : α) (fields : List (String × Json)) : JsonSerialized α :=
  ⟨value, ⟨(Json.obj fields).compact⟩⟩

/-- `JsonSerialized::new_with_map` for a `MonadNotification`, whose data are flattened. -/
def monadNotification {α : Type} (block : ExecutedBlock K) (commitState : BlockCommitState)
    (data : α) (fields : List (String × Json)) :
    JsonSerialized (MonadNotification (JsonSerialized α)) :=
  jsonSerialized ⟨block.id, commitState, jsonSerialized data fields⟩
    ([("blockId", K.blockIdJson block.id), ("commitState", K.commitStateJson commitState)] ++
      fields)

/-- The header of a block, as the connections look at it. -/
def ExecutedBlock.viewHeader (block : ExecutedBlock K) : Websocket.Header :=
  ⟨K.number block.header, K.hash block.header, K.logsBloom block.header⟩

/-- `broadcast_block_updates`: the event that the connections are given. -/
def broadcastBlockUpdates (block : ExecutedBlock K) (commitState : BlockCommitState) :
    EventServerEvent :=
  .block commitState
    (monadNotification block commitState block.viewHeader (K.headerFields block.header))
    (block.transactions.map fun e => (K.logs e.receipt).map fun log =>
      monadNotification block commitState ⟨K.address log, K.topics log⟩ (K.logFields log))

/-- An event as the connections are given it. -/
def ServerEvent.forConnections : ServerEvent K → EventServerEvent
  | .gap => .gap
  | .block commitState b => broadcastBlockUpdates b commitState

/-! ### The server -/

/-- `EventNextResult`. -/
inductive EventNextResult (Descriptor : Type) where
  | gap
  | notReady
  | ready (descriptor : Descriptor)

inductive BlockBuilderError where
  | rejected
  | payloadExpired
  | implicitDrop

/-- `CommitStateBlockUpdate`. -/
structure CommitStateBlockUpdate (K : Kinds) where
  block : ExecutedBlock K
  state : BlockCommitState

/-- `CommitStateBlockBuilder`: **what makes blocks of the events**. -/
structure CommitStateBlockBuilder (K : Kinds) (Descriptor : Type) where
  State : Type
  new : State
  reset : State → State
  processEventDescriptor : State → Descriptor →
    Option (Except BlockBuilderError (CommitStateBlockUpdate K)) × State

variable {Descriptor : Type} (builder : CommitStateBlockBuilder K Descriptor)

/-- **One turn of the loop of the server**: what it sends, and its builder after it; `none` when the
task has panicked. -/
def turn (state : builder.State) :
    EventNextResult Descriptor → List (ServerEvent K) × Option builder.State
  | .gap => ([.gap], some (builder.reset state))
  | .notReady => ([], some state)
  | .ready descriptor =>
    match builder.processEventDescriptor state descriptor with
    | (none, state) => ([], some state)
    | (some (.error .rejected), _) => ([], none)
    | (some (.error .payloadExpired), state) => ([.gap], some (builder.reset state))
    | (some (.error .implicitDrop), _) => ([], none)
    | (some (.ok update), state) => ([.block update.state update.block], some state)

/-- The server, by what it sends in its turns. -/
def turnServer : TurnServer (EventNextResult Descriptor) (ServerEvent K) :=
  ⟨builder.State, turn builder⟩

/-! ### The system -/

/-- `BROADCAST_CHANNEL_SIZE`. -/
def broadcastChannelSize : ℕ := 32

variable {Filter : Type} (params : FilteredParams Filter) (setup : Setup)
  (channel : BroadcastChannel (ServerEvent K) broadcastChannelSize)

/-- A connection and its `EventServerSubscription`. -/
structure Connected (Filter : Type) where
  receiver : channel.Receiver
  state : Websocket.State Filter
  /-- Whether it still has its permit. -/
  permit : Bool

/-- **The server, its channel and the connections.** -/
structure System (Filter : Type) where
  /-- The builder of the server, unless its task has panicked. -/
  server : Option builder.State
  events : channel.Channel
  /-- `ConnectionLimit`. -/
  permits : ℕ
  connections : List (Connected channel Filter)

/-- What happens. -/
inductive Act (Filter Descriptor : Type) where
  | serve (result : EventNextResult Descriptor)
  /-- `ws_handler`. -/
  | connect (metrics : Bool) (now : ℕ)
  /-- Something other than an event of the server happens to a connection. -/
  | input (i now : ℕ) (input : Input Filter)
  /-- A connection gets what comes next in the channel. -/
  | receive (i now : ℕ) (failing : Option ℕ)
  /-- A connection that has ended gives its permit back. -/
  | finish (i : ℕ)

/-- An input that does not come from the channel. -/
def isOther : Input Filter → Bool
  | .event .. | .lagged | .shutdown => false
  | _ => true

/-- What is received is an input. -/
def receivedInput (failing : Option ℕ) : Received (ServerEvent K) → Input Filter
  | .value e => .event e.forConnections failing
  | .lagged _ => .lagged

/-- `EventServer::start`. -/
def System.start (connLimit : ℕ) : System builder channel Filter :=
  ⟨some builder.new, channel.new, connLimit, []⟩

variable {builder channel}

/-- One turn of a connection. -/
def System.turnOf (s : System builder channel Filter) (i : ℕ) (c : Connected channel Filter)
    (receiver : channel.Receiver) (now : ℕ) (input : Input Filter) :
    System builder channel Filter :=
  { s with
    connections :=
      s.connections.set i ⟨receiver, Websocket.step params setup c.state now input, c.permit⟩ }

/-- The connection with an index, if it is open. -/
def System.open? (s : System builder channel Filter) (i : ℕ) : Option (Connected channel Filter) :=
  s.connections[i]?.filter fun c => c.state.ending.isNone

/-- **One step**; `none` when it is not possible. -/
def System.step (s : System builder channel Filter) :
    Act Filter Descriptor → Option (System builder channel Filter)
  | .serve result => s.server.map fun state =>
    ⟨(turn builder state result).2, (turn builder state result).1.foldl channel.send s.events,
      s.permits, s.connections⟩
  | .connect metrics now =>
    -- Without a permit, or a server, the request is refused.
    if s.permits = 0 ∨ s.server.isNone then some s
    else some ⟨s.server, s.events, s.permits - 1,
      s.connections ++ [⟨channel.subscribe s.events, .new Filter metrics now, true⟩]⟩
  | .input i now input =>
    if isOther input then (s.open? i).map fun c => s.turnOf params setup i c c.receiver now input
    else none
  | .receive i now failing => do
    let c ← s.open? i
    let (received, receiver) ← channel.recv s.events c.receiver
    return s.turnOf params setup i c receiver now (receivedInput failing received)
  | .finish i => do
    let c ← s.connections[i]?
    if c.state.ending.isSome && c.permit then
      return ⟨s.server, s.events, s.permits + 1, s.connections.set i ⟨c.receiver, c.state, false⟩⟩
    else none

/-- What some acts lead to. -/
def System.run (s : System builder channel Filter) (acts : List (Act Filter Descriptor)) :
    Option (System builder channel Filter) :=
  acts.foldlM (System.step params setup) s

/-! ### What a connection is given -/

/-- How an act looks to a connection. -/
def see (i : ℕ) : Act Filter Descriptor →
    Seen (EventNextResult Descriptor) (ℕ × Option ℕ) (ℕ × Input Filter)
  | .serve result => .serve result
  | .receive j now failing => if j = i then .ask (now, failing) else .nothing
  | .input j now input => if j = i then .other (now, input) else .nothing
  | .connect .. | .finish _ => .nothing

/-- **The connection that is opened next**, after some acts: what the server has sent since then,
and what has happened to the connection. -/
def System.watch (s : System builder channel Filter) (acts : List (Act Filter Descriptor)) :
    Watch (turnServer builder) (ℕ × Option ℕ) (ℕ × Input Filter) :=
  (Watch.start (turnServer builder) _ _ s.server).run broadcastChannelSize
    (acts.map (see s.connections.length))

/-- What happens to a connection, as its inputs: its receives give it events or a lag. -/
def inputsOf (w : Watch (turnServer builder) (ℕ × Option ℕ) (ℕ × Input Filter)) :
    List (ℕ × Input Filter) :=
  w.heard.map (Sum.elim (fun x => (x.1.1, receivedInput x.1.2 x.2)) id)

/-- The events of a history. -/
def eventsOf (history : List (Entry Filter)) : List EventServerEvent :=
  history.filterMap fun
    | .notified e => some e
    | .answered .. => none

/-- The requests of a history. -/
def answeredOf (history : List (Entry Filter)) : List (Incoming Filter) :=
  history.filterMap fun
    | .answered request _ => some request
    | .notified _ => none

/-- The connection has been closed for it has been too slow. -/
def endedLagging : Ending := .closed .error (some "ws server lagging, please try again later")

/-- **What a connection is given**, which was opened in the state `st₀` and is in the state `state`
now, of what the server has sent since it was opened. -/
structure Service (params : FilteredParams Filter) (setup : Setup)
    (st₀ state : Websocket.State Filter)
    (w : Watch (turnServer builder) (ℕ × Option ℕ) (ℕ × Input Filter)) : Prop where
  /-- It has gone through all that has happened to it. -/
  ran : state = Websocket.run params setup st₀ (inputsOf w)
  answered : answeredOf (history params setup st₀ (inputsOf w)) =
    Websocket.requestsOf (inputsOf w)
  /-- It has been told of each event that it has received. -/
  events : eventsOf (history params setup st₀ (inputsOf w)) =
    w.values.map ServerEvent.forConnections
  /-- These are the first ones that the server has sent since it was opened. -/
  begins : w.values <+: w.sent
  /-- There is no gap unless the connection has been closed. -/
  no_gap : state.ending = none → ServerEvent.gap ∉ w.values
  /-- Who is closed as too slow has not received more than the channel keeps. -/
  lagging : state.ending = some endedLagging →
    w.values.length + broadcastChannelSize < w.sent.length
  /-- What the client has received under an id is what these are to be told. -/
  told : ∀ id, textsOf id state.messages <+:
    expected params setup id none (history params setup st₀ (inputsOf w))
  told_eq : state.ending ≠ some .notificationFailed → ∀ id, textsOf id state.messages =
    expected params setup id none (history params setup st₀ (inputsOf w))

/-! ### How a connection ends -/

section Ends

variable {overflowChecks : Bool} {limit : UInt16} {α β : Type}

/-- If a connection is to be closed, no reason is described. -/
def Undescribed (r : Except (Halt CloseReason) α) : Prop :=
  ∀ reason, r = .error (.error reason) → reason.description = none

theorem undescribed_ok (a : α) : Undescribed (.ok a) := fun _ h => (by cases h)

theorem Undescribed.bind {r : Except (Halt CloseReason) α} {f : α → Except (Halt CloseReason) β}
    (hr : Undescribed r) (hf : ∀ a, Undescribed (f a)) : Undescribed (r >>= f) := by
  intro reason h
  cases r with
  | ok a => exact hf a reason h
  | error halt =>
    cases h
    exact hr reason rfl

theorem undescribed_addU16 (a b : UInt16) :
    Undescribed (addU16 overflowChecks a b) := by
  intro reason h
  unfold addU16 checked at h
  split at h <;> cases h

theorem undescribed_exceedsLimit (lengths : List ℕ) :
    Undescribed (exceedsLimit overflowChecks limit lengths) := by
  have hcount : ∀ (ns : List UInt16) (n : UInt16),
      Undescribed (ns.foldlM (addU16 overflowChecks) n) := by
    intro ns
    induction ns with
    | nil => exact fun n => undescribed_ok n
    | cons m ns ih =>
      intro n
      rw [List.foldlM_cons]
      exact (undescribed_addU16 n m).bind ih
  exact (hcount _ _).bind fun n => (undescribed_addU16 n 1).bind fun _ => undescribed_ok _

theorem undescribed_send (i : Incoming Filter) (response : Jsonrpc.Response) :
    Undescribed (i.send response) := by
  unfold Incoming.send
  split
  · exact undescribed_ok _
  · intro reason h
    cases h
    rfl

theorem undescribed_handleRequest (overflowChecks : Bool) (limit : UInt16) (c : Connection Filter)
    (i : Incoming Filter) :
    Undescribed (handleRequest overflowChecks limit c i).1 := by
  unfold handleRequest
  dsimp only
  split
  · exact undescribed_send i _
  · split
    · exact undescribed_send i _
    · split <;> rename_i hlimit
      · intro reason h
        cases h
        exact undescribed_exceedsLimit _ reason hlimit
      · exact undescribed_send i _
      · exact undescribed_send i _
  · exact undescribed_send i _
  · split <;> exact undescribed_send i _

theorem ending_stop_ne (st : Websocket.State Filter) {ending : Ending} (h : ending ≠ endedLagging) :
    (st.stop ending).ending ≠ some endedLagging := fun heq => h (Option.some.inj heq)

/-- **Nothing but a lag closes a connection as too slow.** -/
theorem ending_step_ne {st : Websocket.State Filter} (now : ℕ) {input : Input Filter}
    (hopen : st.ending = none) (hlag : input ≠ .lagged) :
    (Websocket.step params setup st now input).ending ≠ some endedLagging := by
  have hst : st.ending ≠ some endedLagging := by
    rw [hopen]
    exact fun h => (by cases h)
  unfold Websocket.step
  rw [if_neg (by rw [hopen]; exact fun h => (by cases h))]
  cases input with
  | lagged => exact absurd rfl hlag
  | tick | unreadable sent | method id result sent =>
    dsimp only
    split
    all_goals first | exact hst | exact ending_stop_ne _ (by decide)
  | request i =>
    dsimp only [State.handleRequest]
    split <;> rename_i hout
    · exact hst
    · rename_i reason _
      have hnone : reason.description = none :=
        undescribed_handleRequest setup.overflowChecks setup.subscriptionLimit st.connection i
          reason (congrArg Prod.fst hout)
      rw [hnone]
      exact ending_stop_ne _ (by decide)
    · exact ending_stop_ne _ (fun h => by cases h)
  | event e failing =>
    cases e with
    | gap => exact ending_stop_ne st (by decide)
    | block commitState header transactions =>
      dsimp only [State.sendAll]
      split
      · exact ending_stop_ne _ (by decide)
      · exact hst
  | ping | pong => exact hst
  | close | ended | shutdown => exact ending_stop_ne st (by decide)
  | protocolError err => exact ending_stop_ne st (fun h => by cases h)

end Ends

/-! ### Histories -/

section Histories

variable {st : Websocket.State Filter} {inputs : List (ℕ × Input Filter)}

theorem run_append (st : Websocket.State Filter) (inputs : List (ℕ × Input Filter))
    (x : ℕ × Input Filter) : Websocket.run params setup st (inputs ++ [x]) =
      Websocket.step params setup (Websocket.run params setup st inputs) x.1 x.2 := by
  rw [Websocket.run, List.foldl_append]
  rfl

theorem history_append (st : Websocket.State Filter) (inputs : List (ℕ × Input Filter))
    (x : ℕ × Input Filter) : history params setup st (inputs ++ [x]) =
      history params setup st inputs ++
        entriesOf setup (Websocket.run params setup st inputs) x.2 := by
  induction inputs generalizing st with
  | nil => exact List.append_nil _
  | cons y inputs ih =>
    rw [List.cons_append, history, ih, history, List.append_assoc]
    rfl

theorem requestsOf_append (x : ℕ × Input Filter) :
    Websocket.requestsOf (inputs ++ [x]) =
      Websocket.requestsOf inputs ++ Websocket.requestsOf [x] := List.filterMap_append

/-- What an input other than an event adds to a history. -/
theorem entriesOf_other (setup : Setup) (x : ℕ × Input Filter)
    (hopen : st.ending = none) (hother : isOther x.2 = true) :
    eventsOf (entriesOf setup st x.2) = [] ∧
      answeredOf (entriesOf setup st x.2) = Websocket.requestsOf [x] := by
  obtain ⟨now, input⟩ := x
  unfold entriesOf
  rw [if_neg (by rw [hopen]; exact fun h => (by cases h))]
  cases input with
  | event e failing | lagged | shutdown => cases hother
  | _ => exact ⟨rfl, rfl⟩

/-- What an event adds to a history. -/
theorem entriesOf_event (setup : Setup) (hopen : st.ending = none)
    (e : EventServerEvent) (failing : Option ℕ) :
    entriesOf setup st (.event e failing) = [.notified e] := by
  unfold entriesOf
  rw [if_neg (by rw [hopen]; exact fun h => (by cases h))]

end Histories

/-! ### The steps of the system -/

section Steps

variable {params setup} {before : List (ServerEvent K)} {st₀ state : Websocket.State Filter}
  {s s' : System builder channel Filter} {i : ℕ}
  {w : Watch (turnServer builder) (ℕ × Option ℕ) (ℕ × Input Filter)} {c : Connected channel Filter}

/-- **A connection goes along with what happens to it.** -/
structure Goes (params : FilteredParams Filter) (setup : Setup) (st₀ state : Websocket.State Filter)
    (w : Watch (turnServer builder) (ℕ × Option ℕ) (ℕ × Input Filter)) : Prop where
  ran : state = Websocket.run params setup st₀ (inputsOf w)
  answered : answeredOf (history params setup st₀ (inputsOf w)) =
    Websocket.requestsOf (inputsOf w)
  events : eventsOf (history params setup st₀ (inputsOf w)) =
    w.values.map ServerEvent.forConnections
  inputs : ∀ x ∈ inputsOf w, ∀ e failing, x.2 = .event e failing →
    ∃ e' ∈ w.values, e = e'.forConnections
  no_gap : state.ending = none → ServerEvent.gap ∉ w.values
  lagging : state.ending = some endedLagging → w.position = none

theorem inputsOf_hear (position : Option ℕ)
    (x : ((ℕ × Option ℕ) × Received (ServerEvent K)) ⊕ (ℕ × Input Filter)) :
    inputsOf (w.hear position x) =
      inputsOf w ++ [Sum.elim (fun x => (x.1.1, receivedInput x.1.2 x.2)) id x] :=
  List.map_append

/-- Something other than an event happens to the connection. -/
theorem Goes.other (h : Goes params setup st₀ state w) (hopen : state.ending = none) (now : ℕ)
    {input : Input Filter} (hother : isOther input = true) :
    Goes params setup st₀ (Websocket.step params setup state now input)
      (w.hear w.position (.inr (now, input))) := by
  have hopen' : (Websocket.run params setup st₀ (inputsOf w)).ending = none := h.ran ▸ hopen
  have hinputs := inputsOf_hear (w := w) w.position (.inr (now, input))
  have hvalues : (w.hear w.position (.inr (now, input))).values = w.values :=
    (Watch.values_hear _ _).trans (List.append_nil _)
  obtain ⟨hnone, hrequest⟩ := entriesOf_other setup (now, input) hopen' hother
  refine ⟨?_, ?_, ?_, ?_, fun _ => hvalues ▸ h.no_gap hopen, fun hlag => ?_⟩
  · rw [hinputs, run_append, ← h.ran]
    rfl
  · rw [hinputs, history_append, answeredOf, List.filterMap_append, requestsOf_append]
    exact congr (congrArg _ h.answered) hrequest
  · rw [hinputs, hvalues, history_append, eventsOf, List.filterMap_append, ← h.events]
    exact (congrArg _ hnone).trans (List.append_nil _)
  · intro x hx e failing he
    rw [hinputs, List.mem_append, List.mem_singleton] at hx
    rw [hvalues]
    obtain hx | rfl := hx
    · exact h.inputs x hx e failing he
    · cases he
      cases hother
  · refine absurd hlag (ending_step_ne params setup now hopen ?_)
    rintro rfl
    cases hother

/-- The connection has been too slow: it is closed, and nothing more is received. -/
theorem Goes.lagged (h : Goes params setup st₀ state w) (hopen : state.ending = none) (now : ℕ)
    (failing : Option ℕ) (skipped : ℕ) :
    Goes params setup st₀ (Websocket.step params setup state now .lagged)
      (w.hear none (.inl ((now, failing), .lagged skipped))) := by
  have hstep : Websocket.step params setup state now .lagged = state.stop endedLagging := by
    unfold Websocket.step
    rw [if_neg (by rw [hopen]; exact fun h => (by cases h))]
    rfl
  -- A lag adds nothing to the history.
  have hentries : entriesOf setup (Websocket.run params setup st₀ (inputsOf w)) .lagged = [] := by
    unfold entriesOf
    split <;> rfl
  have hinputs := inputsOf_hear (w := w) none (.inl ((now, failing), .lagged skipped))
  have hvalues : (w.hear none (.inl ((now, failing), .lagged skipped))).values = w.values :=
    (Watch.values_hear _ _).trans (List.append_nil _)
  have hhistory : history params setup st₀
      (inputsOf (w.hear none (.inl ((now, failing), .lagged skipped)))) =
        history params setup st₀ (inputsOf w) := by
    rw [hinputs, history_append]
    exact (congrArg _ hentries).trans (List.append_nil _)
  refine ⟨?_, ?_, ?_, ?_, fun hnone => ?_, fun _ => rfl⟩
  · rw [hinputs, run_append, ← h.ran]
    rfl
  · rw [hhistory, h.answered, hinputs, requestsOf_append]
    exact (List.append_nil _).symm
  · rw [hhistory, h.events, hvalues]
  · intro y hy e failing' he
    rw [hinputs, List.mem_append, List.mem_singleton] at hy
    rw [hvalues]
    obtain hy | rfl := hy
    · exact h.inputs y hy e failing' he
    · cases he
  · rw [hstep] at hnone
    cases hnone

/-- The connection is given an event. -/
theorem Goes.value (h : Goes params setup st₀ state w) (hopen : state.ending = none) (now : ℕ)
    (failing : Option ℕ) (e : ServerEvent K) (next : ℕ) :
    Goes params setup st₀ (Websocket.step params setup state now (.event e.forConnections failing))
      (w.hear (some next) (.inl ((now, failing), .value e))) := by
  have hopen' : (Websocket.run params setup st₀ (inputsOf w)).ending = none := h.ran ▸ hopen
  have hinputs := inputsOf_hear (w := w) (some next) (.inl ((now, failing), .value e))
  have hvalues : (w.hear (some next) (.inl ((now, failing), .value e))).values = w.values ++ [e] :=
    Watch.values_hear _ _
  have hhistory : history params setup st₀
      (inputsOf (w.hear (some next) (.inl ((now, failing), .value e)))) =
        history params setup st₀ (inputsOf w) ++ [.notified e.forConnections] := by
    rw [hinputs, history_append]
    exact congrArg _ (entriesOf_event setup hopen' e.forConnections failing)
  refine ⟨?_, ?_, ?_, ?_, fun hnone => ?_, fun hlag => ?_⟩
  · rw [hinputs, run_append, ← h.ran]
    rfl
  · rw [hhistory, hinputs, requestsOf_append, ← h.answered]
    exact List.filterMap_append
  · rw [hhistory, hvalues, List.map_append, ← h.events]
    exact List.filterMap_append
  · intro y hy e' failing' he
    rw [hinputs, List.mem_append, List.mem_singleton] at hy
    rw [hvalues]
    obtain hy | rfl := hy
    · obtain ⟨e'', hmem, heq⟩ := h.inputs y hy e' failing' he
      exact ⟨e'', List.mem_append_left _ hmem, heq⟩
    · cases he
      exact ⟨e, List.mem_append_right _ List.mem_cons_self, rfl⟩
  · rw [hvalues, List.mem_append, List.mem_singleton]
    rintro (hgap | rfl)
    · exact h.no_gap hopen hgap
    · -- A gap closes the connection.
      simp only [ServerEvent.forConnections] at hnone
      unfold Websocket.step at hnone
      rw [if_neg (by rw [hopen]; exact fun h => (by cases h))] at hnone
      cases hnone
  · exact absurd hlag (ending_step_ne params setup now hopen (fun h => by cases h))

/-- **A connection that was opened when some events had been sent**, and what is known of it. -/
structure Watched (params : FilteredParams Filter) (setup : Setup) (st₀ : Websocket.State Filter)
    (before : List (ServerEvent K)) (s : System builder channel Filter) (i : ℕ)
    (w : Watch (turnServer builder) (ℕ × Option ℕ) (ℕ × Input Filter))
    (c : Connected channel Filter) : Prop where
  get : s.connections[i]? = some c
  server : w.state = s.server
  sent : channel.Sent s.events (before ++ w.sent)
  sound : w.Sound broadcastChannelSize
  position : c.state.ending = none →
    ∃ p, w.position = some p ∧ channel.position c.receiver = before.length + p
  goes : Goes params setup st₀ c.state w

/-- The server makes a turn. -/
theorem Watched.serve (h : Watched params setup st₀ before s i w c) {state : builder.State}
    (hstate : s.server = some state) (result : EventNextResult Descriptor) :
    Watched params setup st₀ before ⟨(turn builder state result).2,
      (turn builder state result).1.foldl channel.send s.events, s.permits, s.connections⟩ i
      (w.serve result) c := by
  have hsound := h.sound.serve result
  rw [Watch.serve_eq (h.server.trans hstate)] at hsound ⊢
  obtain ⟨hran, hanswered, hevents, hinputs, hgap, hlagging⟩ := h.goes
  refine ⟨h.get, rfl, ?_, hsound, h.position, hran, hanswered, hevents, hinputs, hgap, hlagging⟩
  rw [← List.append_assoc]
  exact BroadcastChannel.sent_foldl h.sent _

/-- Something happens that has nothing to do with the connection. -/
theorem Watched.frame (h : Watched params setup st₀ before s i w c)
    {c' : Connected channel Filter} (hserver : s'.server = s.server)
    (hevents : s'.events = s.events) (hget : s'.connections[i]? = some c')
    (hstate : c'.state = c.state) (hreceiver : c'.receiver = c.receiver) :
    Watched params setup st₀ before s' i w c' where
  get := hget
  server := h.server.trans hserver.symm
  sent := hevents ▸ h.sent
  sound := h.sound
  position := by
    rw [hstate, hreceiver]
    exact h.position
  goes := by
    rw [hstate]
    exact h.goes

/-- Something other than an event happens to the connection. -/
theorem Watched.input (h : Watched params setup st₀ before s i w c)
    (hopen : c.state.ending = none) (now : ℕ) {input : Input Filter} (hother : isOther input = true)
    (hget : s'.connections[i]? =
      some ⟨c.receiver, Websocket.step params setup c.state now input, c.permit⟩)
    (hserver : s'.server = s.server) (hevents : s'.events = s.events) :
    Watched params setup st₀ before s' i (w.step broadcastChannelSize (.other (now, input)))
      ⟨c.receiver, Websocket.step params setup c.state now input, c.permit⟩ :=
  ⟨hget, h.server.trans hserver.symm, hevents ▸ h.sent, h.sound.step _,
    fun _ => h.position hopen, h.goes.other hopen now hother⟩

/-- **The connection is given what comes next in the channel.** -/
theorem Watched.receive (h : Watched params setup st₀ before s i w c)
    (hopen : c.state.ending = none) (now : ℕ) (failing : Option ℕ) {x : Received (ServerEvent K)}
    {receiver : channel.Receiver} (hrecv : channel.recv s.events c.receiver = some (x, receiver))
    (hget : s'.connections[i]? = some ⟨receiver,
      Websocket.step params setup c.state now (receivedInput failing x), c.permit⟩)
    (hserver : s'.server = s.server) (hevents : s'.events = s.events) :
    Watched params setup st₀ before s' i (w.ask broadcastChannelSize (now, failing)) ⟨receiver,
      Websocket.step params setup c.state now (receivedInput failing x), c.permit⟩ := by
  obtain ⟨p, hp, hreceiver⟩ := h.position hopen
  obtain ⟨next, hnext, hposition⟩ :=
    BroadcastChannel.recv_follows h.sent h.sound hp hreceiver hrecv
  have hsound := h.sound.ask (now, failing)
  rw [Watch.ask_eq hnext] at hsound ⊢
  cases x with
  | lagged skipped =>
    have hgoes := h.goes.lagged hopen now failing skipped
    refine ⟨hget, h.server.trans hserver.symm, hevents ▸ h.sent, hsound, fun hnone => ?_, hgoes⟩
    -- Who has been too slow is closed.
    unfold Websocket.step receivedInput at hnone
    rw [if_neg (by rw [hopen]; exact fun h => (by cases h))] at hnone
    cases hnone
  | value e =>
    exact ⟨hget, h.server.trans hserver.symm, hevents ▸ h.sent, hsound,
      fun _ => ⟨next, rfl, hposition⟩, h.goes.value hopen now failing e next⟩

theorem open?_eq_some (h : s.open? i = some c) :
    s.connections[i]? = some c ∧ c.state.ending = none := by
  obtain ⟨hget, hnone⟩ := Option.filter_eq_some_iff.mp h
  exact ⟨hget, Option.isNone_iff_eq_none.mp hnone⟩

/-- A turn of another connection. -/
theorem Watched.turnOf (h : Watched params setup st₀ before s i w c) {j : ℕ}
    (hne : j ≠ i) (c' : Connected channel Filter) (receiver : channel.Receiver) (now : ℕ)
    (input : Input Filter) :
    Watched params setup st₀ before (s.turnOf params setup j c' receiver now input) i w c :=
  h.frame rfl rfl ((List.getElem?_set_ne hne).trans h.get) rfl rfl

/-- **One step of the system**: the connection goes on, and so does the server. -/
theorem Watched.step (h : Watched params setup st₀ before s i w c)
    {act : Act Filter Descriptor} (hstep : s.step params setup act = some s') :
    ∃ c', Watched params setup st₀ before s' i (w.step broadcastChannelSize (see i act)) c' := by
  have hlt : i < s.connections.length := (List.getElem?_eq_some_iff.mp h.get).choose
  cases act with
  | serve result =>
    obtain ⟨state, hstate, rfl⟩ := Option.map_eq_some_iff.mp hstep
    exact ⟨c, h.serve hstate result⟩
  | connect metrics now =>
    simp only [System.step] at hstep
    split at hstep <;> cases hstep
    · exact ⟨c, h⟩
    -- A connection that is opened comes after the others.
    · exact ⟨c, h.frame rfl rfl ((List.getElem?_append_left hlt).trans h.get) rfl rfl⟩
  | input j now input =>
    simp only [System.step] at hstep
    split at hstep
    · rename_i hother
      obtain ⟨cj, hopen, rfl⟩ := Option.map_eq_some_iff.mp hstep
      obtain ⟨hget, hnone⟩ := open?_eq_some hopen
      rcases eq_or_ne j i with rfl | hne
      · obtain rfl : c = cj := Option.some.inj (h.get.symm.trans hget)
        rw [see, if_pos rfl]
        exact ⟨_, h.input hnone now hother (List.getElem?_set_self hlt) rfl rfl⟩
      · rw [see, if_neg hne]
        exact ⟨c, h.turnOf hne cj cj.receiver now input⟩
    · cases hstep
  | receive j now failing =>
    obtain ⟨cj, hopen, hstep⟩ := Option.bind_eq_some_iff.mp hstep
    obtain ⟨⟨x, receiver⟩, hrecv, hstep⟩ := Option.bind_eq_some_iff.mp hstep
    cases hstep
    obtain ⟨hget, hnone⟩ := open?_eq_some hopen
    rcases eq_or_ne j i with rfl | hne
    · obtain rfl : c = cj := Option.some.inj (h.get.symm.trans hget)
      rw [see, if_pos rfl]
      exact ⟨_, h.receive hnone now failing hrecv (List.getElem?_set_self hlt) rfl rfl⟩
    · rw [see, if_neg hne]
      exact ⟨c, h.turnOf hne cj receiver now _⟩
  | finish j =>
    obtain ⟨cj, hget, hstep⟩ := Option.bind_eq_some_iff.mp hstep
    split at hstep <;> cases hstep
    rcases eq_or_ne j i with rfl | hne
    · obtain rfl : c = cj := Option.some.inj (h.get.symm.trans hget)
      exact ⟨_, h.frame rfl rfl (List.getElem?_set_self hlt) rfl rfl⟩
    · exact ⟨c, h.frame rfl rfl ((List.getElem?_set_ne hne).trans h.get) rfl rfl⟩

/-- **The connection goes on along a run.** -/
theorem Watched.run (h : Watched params setup st₀ before s i w c)
    {acts : List (Act Filter Descriptor)} (hrun : s.run params setup acts = some s') :
    ∃ c', Watched params setup st₀ before s' i
      (w.run broadcastChannelSize (acts.map (see i))) c' := by
  rw [Watch.run, List.foldl_map]
  exact foldlM_keeps (R := fun s w => ∃ c, Watched params setup st₀ before s i w c)
    (fun ⟨c, h⟩ hstep => h.step hstep) ⟨c, h⟩ hrun

/-- A connection that is open and has not received everything can go on to receive. -/
theorem Watched.reads_on (h : Watched params setup st₀ before s i w c)
    (hopen : c.state.ending = none) (hlt : w.values.length < w.sent.length) (now : ℕ)
    (failing : Option ℕ) :
    (s.step params setup (.receive i now failing : Act Filter Descriptor)).isSome = true := by
  obtain ⟨p, hp, hreceiver⟩ := h.position hopen
  rw [← h.sound.position_eq hp] at hlt
  obtain ⟨x, hrecv⟩ := Option.isSome_iff_exists.mp
    (BroadcastChannel.isSome_recv h.sent hreceiver hlt)
  have hget : s.open? i = some c := by
    rw [System.open?, h.get]
    exact Option.filter_eq_some_iff.mpr ⟨rfl, Option.isNone_iff_eq_none.mpr hopen⟩
  show ((s.open? i).bind _).isSome = true
  rw [hget, Option.bind_some]
  show ((channel.recv s.events c.receiver).bind _).isSome = true
  rw [hrecv]
  rfl

end Steps

/-! ### Runs -/

section Runs

variable {params setup} {s s' : System builder channel Filter}

/-- All that a server has sent is known of. -/
theorem sent_step {act : Act Filter Descriptor} (h : ∃ sent, channel.Sent s.events sent)
    (hstep : s.step params setup act = some s') : ∃ sent, channel.Sent s'.events sent := by
  obtain ⟨sent, hsent⟩ := h
  cases act with
  | serve result =>
    obtain ⟨state, -, rfl⟩ := Option.map_eq_some_iff.mp hstep
    exact ⟨_, BroadcastChannel.sent_foldl hsent _⟩
  | connect metrics now =>
    simp only [System.step] at hstep
    split at hstep <;> cases hstep <;> exact ⟨sent, hsent⟩
  | input i now input =>
    simp only [System.step] at hstep
    split at hstep
    · obtain ⟨c, -, rfl⟩ := Option.map_eq_some_iff.mp hstep
      exact ⟨sent, hsent⟩
    · cases hstep
  | receive i now failing =>
    obtain ⟨c, -, hstep⟩ := Option.bind_eq_some_iff.mp hstep
    obtain ⟨x, -, hstep⟩ := Option.bind_eq_some_iff.mp hstep
    cases hstep
    exact ⟨sent, hsent⟩
  | finish i =>
    obtain ⟨c, -, hstep⟩ := Option.bind_eq_some_iff.mp hstep
    split at hstep <;> cases hstep
    exact ⟨sent, hsent⟩

/-- A connection that has just been opened. -/
theorem watched_connect {sent : List (ServerEvent K)} (hsent : channel.Sent s.events sent)
    (metrics : Bool) (now : ℕ) :
    Watched params setup (.new Filter metrics now) sent
      (⟨s.server, s.events, s.permits - 1,
        s.connections ++ [⟨channel.subscribe s.events, .new Filter metrics now, true⟩]⟩ :
          System builder channel Filter) s.connections.length
      (Watch.start (turnServer builder) _ _ s.server)
      ⟨channel.subscribe s.events, .new Filter metrics now, true⟩ where
  get := List.getElem?_concat_length
  server := rfl
  sent := by
    show channel.Sent s.events (sent ++ [])
    rwa [List.append_nil]
  sound := Watch.sound_start _
  position := fun _ => ⟨0, rfl, channel.position_subscribe hsent⟩
  goes := ⟨rfl, rfl, rfl, fun _ hx => (by cases hx), fun _ hgap => (by cases hgap),
    fun h => (by cases h)⟩

/-- **A connection that is open is given everything that the server has sent since it was opened,
one event with each receive and without a gap**, and its client has received what these are to be
told. -/
theorem connection_served (params : FilteredParams Filter) (setup : Setup)
    (builder : CommitStateBlockBuilder K Descriptor)
    (channel : BroadcastChannel (ServerEvent K) broadcastChannelSize) (connLimit : ℕ)
    (metrics : Bool) (now : ℕ) (before after : List (Act Filter Descriptor))
    (s₀ s : System builder channel Filter)
    (hbefore : (System.start builder channel connLimit).run params setup before = some s₀)
    (hpermits : s₀.permits ≠ 0) (hserver : s₀.server.isSome = true)
    (hafter : s₀.run params setup (.connect metrics now :: after) = some s)
    (hids : (generated (Websocket.requestsOf (inputsOf (s₀.watch after)))).Nodup)
    (hcovers : ∀ e ∈ (s₀.watch after).sent, Websocket.BloomCovers params e.forConnections) :
    ∃ c, s.connections[s₀.connections.length]? = some c ∧
      Service params setup (.new Filter metrics now) c.state (s₀.watch after) ∧
      (c.state.ending = none → (s₀.watch after).values.length < (s₀.watch after).sent.length →
        ∀ now failing, (s.step params setup
          (.receive s₀.connections.length now failing : Act Filter Descriptor)).isSome = true) := by
  -- Some events may have been sent before.
  obtain ⟨sent, hsent⟩ : ∃ sent, channel.Sent s₀.events sent :=
    foldlM_keeps (R := fun s (_ : Unit) => ∃ sent, channel.Sent s.events sent)
      (f := fun _ _ => ()) (t := ()) (fun h hstep => sent_step h hstep) ⟨[], channel.sent_new⟩
      hbefore
  rw [System.run, List.foldlM_cons] at hafter
  obtain ⟨s₁, hconnect, hafter⟩ := Option.bind_eq_some_iff.mp hafter
  -- There is a permit and a server, so that the connection is accepted.
  simp only [System.step] at hconnect
  rw [if_neg (by
    rintro (h | h)
    · exact hpermits h
    · rw [Option.isNone_iff_eq_none.mp h] at hserver
      cases hserver)] at hconnect
  cases hconnect
  obtain ⟨c, hw⟩ := (watched_connect (s := s₀) hsent metrics now).run hafter
  -- The ids are new to the connection, so that what is told under one is told by the history.
  have htold (id : SubscriptionId) : ∃ texts,
      textsOf id c.state.messages = texts ∧
      texts <+: expected params setup id none
        (history params setup (.new Filter metrics now) (inputsOf (s₀.watch after))) ∧
      (c.state.ending ≠ some .notificationFailed → texts = expected params setup id none
        (history params setup (.new Filter metrics now) (inputsOf (s₀.watch after)))) := by
    have hviews : Views (State.new Filter metrics now).connection id none := fun _ _ =>
      ⟨fun h => (by cases h), fun h => (by cases h)⟩
    obtain ⟨texts, htexts, hbegins, heq⟩ := told_run setup hviews List.nodup_nil hids
      (fun _ _ h => (by cases h)) (fun x hx => by
        obtain ⟨now, input⟩ := x
        cases input with
        | event e failing =>
          obtain ⟨e', hmem, rfl⟩ := hw.goes.inputs _ hx e failing rfl
          exact hcovers e' (hw.sound.begins.subset hmem)
        | _ => trivial)
    have hstate : c.state = Websocket.run params setup (.new Filter metrics now)
        (inputsOf (s₀.watch after)) := hw.goes.ran
    rw [← hstate] at htexts heq
    have hnone : textsOf id (State.new Filter metrics now).messages = [] := rfl
    rw [hnone, List.nil_append] at htexts
    exact ⟨texts, htexts, hbegins, heq⟩
  refine ⟨c, hw.get, ⟨hw.goes.ran, hw.goes.answered, hw.goes.events, hw.sound.begins,
    hw.goes.no_gap,
    fun hlag => (hw.sound.left (hw.goes.lagging hlag)).2, fun id => ?_, fun hfailed id => ?_⟩,
    fun hopen hlt now failing => hw.reads_on hopen hlt now failing⟩
  · obtain ⟨texts, htexts, hbegins, -⟩ := htold id
    rw [htexts]
    exact hbegins
  · obtain ⟨texts, htexts, -, heq⟩ := htold id
    rw [htexts]
    exact heq hfailed

theorem length_sampleAddress : (toBe 20 0).length = 20 := length_toBe 20 0

/-- Blocks without transactions. -/
def sampleKinds : Kinds where
  Header := UInt64
  Tx := Unit
  Receipt := Unit
  number := id
  hash := fun n => word n.toUInt8
  txHash := fun _ => word 0
  transactionHash := fun _ => word 0
  Log := Unit
  logs := fun _ => []
  logsBloom := fun _ => ⟨toBe 256 0, length_sampleBloom⟩
  address := fun _ => ⟨toBe 20 0, length_sampleAddress⟩
  topics := fun _ => []
  headerFields := fun n => [("number", .int n.toNat)]
  logFields := fun _ => []
  blockIdJson := fun _ => .null
  commitStateJson := fun _ => .str "Proposed"

/-- A builder that makes a block of every event. -/
def sampleBuilder : CommitStateBlockBuilder sampleKinds UInt64 where
  State := Unit
  new := ()
  reset := id
  processEventDescriptor := fun _ n => (some (.ok ⟨⟨⟨n, []⟩, word n.toUInt8⟩, .proposed⟩), ())

/-- A client subscribes to the heads, is told of one block, and is closed at the gap after it. -/
theorem connection_served_sample :
    let channel := BroadcastChannel.ofList (ServerEvent sampleKinds) broadcastChannelSize
    let after : List (Act Unit UInt64) :=
      [.input 0 1 (.request (subscribeTo 1)), .serve (.ready 8), .serve .gap, .receive 0 2 none,
        .receive 0 3 none, .finish 0]
    ∃ s₀ s : System sampleBuilder channel Unit,
      (System.start sampleBuilder channel 2).run sampleParams sampleSetup [.serve (.ready 7)] =
        some s₀ ∧
      s₀.run sampleParams sampleSetup (.connect true 0 :: after) = some s ∧
      (s₀.watch after).values = (s₀.watch after).sent ∧ (s₀.watch after).sent.length = 2 ∧
      ∃ c, s.connections[s₀.connections.length]? = some c ∧
        Service sampleParams sampleSetup (.new Unit true 0) c.state (s₀.watch after) := by
  obtain ⟨c, hget, hservice, -⟩ := connection_served sampleParams sampleSetup sampleBuilder
    (BroadcastChannel.ofList (ServerEvent sampleKinds) broadcastChannelSize) 2 true 0
    [.serve (.ready 7)] [.input 0 1 (.request (subscribeTo 1)), .serve (.ready 8), .serve .gap,
      .receive 0 2 none, .receive 0 3 none, .finish 0] _ _ rfl (by decide) rfl rfl (by decide) (by
      intro e he
      cases e with
      | gap => trivial
      | block commitState b =>
        intro filter log hlog
        cases b
        simp [sampleParams])
  exact ⟨_, _, rfl, rfl, rfl, rfl, c, hget, hservice⟩

/-! ### Permits -/

/-- **As many connections as the limit allows**: those that are open have a permit, and all permits
are accounted for. -/
structure Permitted (connLimit : ℕ) (s : System builder channel Filter) : Prop where
  total : s.permits + s.connections.countP Connected.permit = connLimit
  kept : ∀ c ∈ s.connections, c.state.ending = none → c.permit = true

/-- A connection that keeps its permit. -/
theorem Permitted.set {connLimit : ℕ} (h : Permitted connLimit s) {i : ℕ}
    {c c' : Connected channel Filter} (hget : s.connections[i]? = some c)
    (hopen : c.state.ending = none) (hpermit : c'.permit = c.permit) :
    Permitted connLimit { s with connections := s.connections.set i c' } := by
  obtain ⟨hlt, hc⟩ := List.getElem?_eq_some_iff.mp hget
  have htrue : c.permit = true := h.kept c (List.mem_of_getElem? hget) hopen
  refine ⟨?_, fun x hx hnone => ?_⟩
  · rw [← h.total, List.countP_set hlt, hc, htrue, hpermit, htrue]
    have hpos : 0 < s.connections.countP Connected.permit :=
      List.countP_pos_iff.mpr ⟨c, List.mem_of_getElem? hget, htrue⟩
    simp only [if_true]
    omega
  · obtain hx | rfl := List.mem_or_eq_of_mem_set hx
    · exact h.kept x hx hnone
    · rw [hpermit, htrue]

theorem Permitted.step {connLimit : ℕ} (h : Permitted connLimit s)
    {act : Act Filter Descriptor} (hstep : s.step params setup act = some s') :
    Permitted connLimit s' := by
  cases act with
  | serve result =>
    obtain ⟨state, -, rfl⟩ := Option.map_eq_some_iff.mp hstep
    exact ⟨h.total, h.kept⟩
  | connect metrics now =>
    simp only [System.step] at hstep
    split at hstep <;> cases hstep
    · exact h
    · rename_i hrefused
      refine ⟨?_, fun c hc hnone => ?_⟩
      · rw [← h.total, List.countP_append, List.countP_singleton, if_pos rfl]
        have hpermits : s.permits ≠ 0 := fun h => hrefused (.inl h)
        dsimp only
        omega
      · rw [List.mem_append, List.mem_singleton] at hc
        obtain hc | rfl := hc
        · exact h.kept c hc hnone
        · rfl
  | input i now input =>
    simp only [System.step] at hstep
    split at hstep
    · obtain ⟨c, hopen, rfl⟩ := Option.map_eq_some_iff.mp hstep
      obtain ⟨hget, hnone⟩ := open?_eq_some hopen
      exact h.set hget hnone rfl
    · cases hstep
  | receive i now failing =>
    obtain ⟨c, hopen, hstep⟩ := Option.bind_eq_some_iff.mp hstep
    obtain ⟨x, -, hstep⟩ := Option.bind_eq_some_iff.mp hstep
    cases hstep
    obtain ⟨hget, hnone⟩ := open?_eq_some hopen
    exact h.set hget hnone rfl
  | finish i =>
    obtain ⟨c, hget, hstep⟩ := Option.bind_eq_some_iff.mp hstep
    split at hstep <;> cases hstep
    rename_i hended
    rw [Bool.and_eq_true] at hended
    obtain ⟨hlt, hc⟩ := List.getElem?_eq_some_iff.mp hget
    refine ⟨?_, fun x hx hnone => ?_⟩
    · rw [← h.total, List.countP_set hlt, hc, hended.2]
      have hpos : 0 < s.connections.countP Connected.permit :=
        List.countP_pos_iff.mpr ⟨c, List.mem_of_getElem? hget, hended.2⟩
      simp only [if_true, Bool.false_eq_true, if_false]
      omega
    · obtain hx | rfl := List.mem_or_eq_of_mem_set hx
      · exact h.kept x hx hnone
      · dsimp only at hnone
        rw [hnone] at hended
        cases hended.1

/-- **Never are more connections open than the limit allows.** -/
theorem countP_open_le {connLimit : ℕ} {acts : List (Act Filter Descriptor)}
    (hrun : (System.start builder channel connLimit).run params setup acts = some s) :
    s.connections.countP (fun c => c.state.ending.isNone) ≤ connLimit := by
  have hs : Permitted connLimit s :=
    foldlM_keeps (R := fun s (_ : Unit) => Permitted connLimit s) (f := fun _ _ => ())
      (t := ()) (fun h hstep => h.step hstep) ⟨rfl, fun _ hc => (by cases hc)⟩ hrun
  refine (List.countP_mono_left fun c hc hnone => ?_).trans (hs.total ▸ Nat.le_add_left _ _)
  exact hs.kept c hc (Option.isNone_iff_eq_none.mp hnone)

end Runs

end EventServer

end Rpc

end MonadServices
