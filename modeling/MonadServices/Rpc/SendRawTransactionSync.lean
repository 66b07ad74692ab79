import MonadServices.Rpc.EventServer
import MonadServices.Rpc.TxPoolBridge

/-!
# Sending a transaction and waiting for its receipt

A call of `eth_sendRawTransactionSync` decodes its transaction, subscribes to the events of the
server, hands the transaction to the pool, and then reads the events until a proposed block has the
transaction. It gives up when its time is over, at a gap, and when it has been too slow for the
channel.

The call subscribes before it submits, so that no block that is proposed after the pool has the
transaction goes by unseen. **What a call returns is decided by the first event since it began that
is a gap or a proposed block with the transaction**, unless its time is over before it has read so
far or it has been too slow (`MonadServices.Rpc.SendRawTransactionSync.answered`).
-/

namespace MonadServices

namespace Rpc

namespace Jsonrpc

namespace JsonRpcError

def overloaded : JsonRpcError := withMessage .serverError "overloaded, try again later"

def invalidChainId (expected got : UInt64) : JsonRpcError :=
  withMessage .transactionRejected s!"Invalid chain ID: expected {expected}, got {got}"

/-- The hash of the transaction comes with the error. -/
def txSyncTimeout (txHash : String) (timeoutMs : UInt64) : JsonRpcError :=
  ⟨ErrorCode.transactionTimeout.code,
    s!"Transaction receipt not available within {timeoutMs}ms timeout",
    some ⟨(Json.obj [("hash", .str txHash)]).compact⟩⟩

end JsonRpcError

end Jsonrpc

namespace SendRawTransactionSync

open EventServer Jsonrpc TxPoolBridge

/-! ### Transactions -/

/-- What is read of the transactions that are sent. -/
structure Envelopes where
  TxEnvelope : Type
  decode2718Exact : Bytes → Option TxEnvelope
  chainId : TxEnvelope → Option UInt64
  txHash : TxEnvelope → B256

structure Config where
  chainId : UInt64
  allowUnprotectedTxs : Bool
  defaultTimeoutMs : UInt64
  maxTimeoutMs : UInt64

structure Params where
  hexTx : Bytes
  timeoutMs : Option UInt64

variable {envelopes : Envelopes} (cfg : Config)

/-- `validate_and_decode_tx`. -/
def validateAndDecodeTx (hexTx : Bytes) (decodeError : Jsonrpc.JsonRpcError) :
    Except Jsonrpc.JsonRpcError envelopes.TxEnvelope :=
  match envelopes.decode2718Exact hexTx with
  | none => .error decodeError
  | some tx =>
    match envelopes.chainId tx with
    | none =>
      if cfg.allowUnprotectedTxs then .ok tx
      else .error (.withMessage .serverError
        "Unprotected transactions (pre-EIP155) are not allowed over RPC")
    | some txChainId =>
      if txChainId ≠ cfg.chainId then .error (.invalidChainId cfg.chainId txChainId) else .ok tx

/-- The time that a call has. What is asked for has to be positive and not too long. -/
def timeoutMs (params : Params) : UInt64 :=
  (params.timeoutMs.filter fun t => 0 < t && t ≤ cfg.maxTimeoutMs).getD cfg.defaultTimeoutMs

/-- An error of the pool as it is returned. -/
def ofSubmitError : SubmitError → Jsonrpc.JsonRpcError
  | .overloaded => .overloaded
  | .serverError message => .withMessage .serverError message

/-! ### The calls -/

variable {K : Kinds}

/-- What an event means for a call that waits for the receipt of a transaction. -/
def answerOfEvent (txHash : B256) :
    ServerEvent K → Option (Except Jsonrpc.JsonRpcError K.Receipt)
  | .gap => some (.error .overloaded)
  | .block commitState b =>
    if commitState ≠ .proposed then none
    else (b.transactions.find? fun e => K.txHash e.tx = txHash).map fun e => .ok e.receipt

variable {Descriptor : Type} (builder : CommitStateBlockBuilder K Descriptor)
  (channel : BroadcastChannel (ServerEvent K) broadcastChannelSize)

/-- **How far a call is.** -/
inductive Call where
  | submitting (txHash : B256) (timeoutMs : UInt64) (subscription : channel.Receiver)
  | waiting (txHash : B256) (timeoutMs : UInt64) (subscription : channel.Receiver)
  | returned (result : Except Jsonrpc.JsonRpcError K.Receipt)

/-- **The server, its channel and the calls.** -/
structure System where
  server : Option builder.State
  events : channel.Channel
  calls : List (Call channel)

/-- What happens. -/
inductive Act (Descriptor : Type) where
  | serve (result : EventNextResult Descriptor)
  | call (params : Params)
  /-- `submit_to_txpool` of a call returns. -/
  | submitted (i : ℕ) (result : Except SubmitError Unit)
  /-- A call gets what comes next in the channel. -/
  | receive (i : ℕ)
  /-- The time of a call is over. -/
  | timeOut (i : ℕ)

variable {builder channel}

/-- How a call begins: it is refused, or it has subscribed. -/
def Call.start (envelopes : Envelopes) (s : System builder channel) (params : Params) :
    Call channel :=
  match validateAndDecodeTx cfg params.hexTx (.new .transactionUnready) with
  | .error e => .returned (.error e)
  | .ok (tx : envelopes.TxEnvelope) =>
    -- The task of the server has panicked.
    if s.server.isNone then .returned (.error .overloaded)
    else .submitting (envelopes.txHash tx) (timeoutMs cfg params) (channel.subscribe s.events)

def Call.submitted (result : Except SubmitError Unit) : Call channel → Option (Call channel)
  | .submitting txHash timeoutMs subscription =>
    match result with
    | .error e => some (.returned (.error (ofSubmitError e)))
    | .ok () => some (.waiting txHash timeoutMs subscription)
  | _ => none

/-- The call goes on with what it has received. -/
def Call.received (txHash : B256) (timeoutMs : UInt64) (subscription : channel.Receiver) :
    Received (ServerEvent K) → Call channel
  | .lagged _ => .returned (.error .overloaded)
  | .value e =>
    match answerOfEvent txHash e with
    | some result => .returned result
    | none => .waiting txHash timeoutMs subscription

def Call.receive (events : channel.Channel) : Call channel → Option (Call channel)
  | .waiting txHash timeoutMs subscription =>
    (channel.recv events subscription).map fun (x, subscription) =>
      Call.received txHash timeoutMs subscription x
  | _ => none

def Call.timeOut : Call channel → Option (Call channel)
  | .waiting txHash timeoutMs _ =>
    some (.returned (.error (.txSyncTimeout (encodeBytes txHash.1) timeoutMs)))
  | _ => none

/-- One call moves. -/
def System.move (s : System builder channel) (i : ℕ) (f : Call channel → Option (Call channel)) :
    Option (System builder channel) := do
  let call ← s.calls[i]?
  let call ← f call
  return ⟨s.server, s.events, s.calls.set i call⟩

/-- **One step**; `none` when it is not possible. -/
def System.step (envelopes : Envelopes) (s : System builder channel) :
    Act Descriptor → Option (System builder channel)
  | .serve result => s.server.map fun state =>
    ⟨(EventServer.turn builder state result).2,
      (EventServer.turn builder state result).1.foldl channel.send s.events, s.calls⟩
  | .call params => some ⟨s.server, s.events, s.calls ++ [Call.start cfg envelopes s params]⟩
  | .submitted i result => s.move i (Call.submitted result)
  | .receive i => s.move i (Call.receive s.events)
  | .timeOut i => s.move i Call.timeOut

def System.start (builder : CommitStateBlockBuilder K Descriptor)
    (channel : BroadcastChannel (ServerEvent K) broadcastChannelSize) : System builder channel :=
  ⟨some builder.new, channel.new, []⟩

/-- What some acts lead to. -/
def System.run (envelopes : Envelopes) (s : System builder channel)
    (acts : List (Act Descriptor)) : Option (System builder channel) :=
  acts.foldlM (System.step cfg envelopes) s

/-! ### What a call is given -/

/-- How an act looks to a call. -/
def see (i : ℕ) : Act Descriptor →
    Seen (EventNextResult Descriptor) Unit (Except SubmitError Unit)
  | .serve result => .serve result
  | .submitted j result => if j = i then .other result else .nothing
  | .receive j => if j = i then .ask () else .nothing
  | .call _ | .timeOut _ => .nothing

/-- **The call that begins next**, after some acts: what the server has sent since then, what of
this the call has received, and what the pool has told it. -/
def System.watch (s : System builder channel) (acts : List (Act Descriptor)) :
    Watch (turnServer builder) Unit (Except SubmitError Unit) :=
  (Watch.start (turnServer builder) _ _ s.server).run broadcastChannelSize
    (acts.map (see s.calls.length))

/-! ### What a call returns -/

/-- **The first event that decides** about a transaction. -/
def answerOf (txHash : B256) (events : List (ServerEvent K)) :
    Option (Except Jsonrpc.JsonRpcError K.Receipt) :=
  events.findSome? (answerOfEvent txHash)

/-- Where a call that could begin stands, by what the pool has told it, by what the server has sent
since it began and by what of this it has received. -/
inductive Outcome (txHash : B256) (timeoutMs : UInt64) (sent received : List (ServerEvent K)) :
    List (Except SubmitError Unit) → Call channel → Prop
  | submitting (subscription : channel.Receiver) (h : received = []) :
    Outcome txHash timeoutMs sent received [] (.submitting txHash timeoutMs subscription)
  | notSubmitted (e : SubmitError) (h : received = []) :
    Outcome txHash timeoutMs sent received [.error e] (.returned (.error (ofSubmitError e)))
  | waiting (subscription : channel.Receiver) (h : answerOf txHash received = none) :
    Outcome txHash timeoutMs sent received [.ok ()] (.waiting txHash timeoutMs subscription)
  | decided (result : Except Jsonrpc.JsonRpcError K.Receipt)
    (h : answerOf txHash received = some result) :
    Outcome txHash timeoutMs sent received [.ok ()] (.returned result)
  | lagged (h : answerOf txHash received = none)
    (hlag : received.length + broadcastChannelSize < sent.length) :
    Outcome txHash timeoutMs sent received [.ok ()] (.returned (.error .overloaded))
  | timedOut (h : answerOf txHash received = none) :
    Outcome txHash timeoutMs sent received [.ok ()]
      (.returned (.error (.txSyncTimeout (encodeBytes txHash.1) timeoutMs)))

/-- **What a call that could begin is given.** -/
structure Answered (cfg : Config) (envelopes : Envelopes) (txHash : B256) (timeoutMs : UInt64)
    (s : System builder channel) (i : ℕ)
    (w : Watch (turnServer builder) Unit (Except SubmitError Unit)) (call : Call channel) :
    Prop where
  /-- It has received the first events that the server has sent since it began. -/
  begins : w.values <+: w.sent
  outcome : Outcome txHash timeoutMs w.sent w.values w.others call
  /-- While it waits, and has not received all of them, it can receive the next one. -/
  reads_on : ∀ subscription, call = .waiting txHash timeoutMs subscription →
    w.values.length < w.sent.length →
      (s.step cfg envelopes (.receive i : Act Descriptor)).isSome = true

/-! ### The steps of the system -/

section Steps

variable {cfg} {txHash : B256} {timeoutMs : UInt64} {before sent received : List (ServerEvent K)}
  {s s' : System builder channel} {i : ℕ} {submits : List (Except SubmitError Unit)}
  {w : Watch (turnServer builder) Unit (Except SubmitError Unit)} {call call' : Call channel}

/-- The subscription of a call that is under way. -/
def Call.subscription? : Call channel → Option channel.Receiver
  | .submitting _ _ subscription | .waiting _ _ subscription => some subscription
  | .returned _ => none

/-- Where a call stands when the server has sent more. -/
theorem Outcome.mono (h : Outcome txHash timeoutMs sent received submits call)
    (es : List (ServerEvent K)) :
    Outcome txHash timeoutMs (sent ++ es) received submits call := by
  cases h with
  | submitting subscription h => exact .submitting subscription h
  | notSubmitted e h => exact .notSubmitted e h
  | waiting subscription h => exact .waiting subscription h
  | decided result h => exact .decided result h
  | lagged h hlag =>
    refine .lagged h (hlag.trans_le ?_)
    rw [List.length_append]
    exact Nat.le_add_right _ _
  | timedOut h => exact .timedOut h

/-- The pool answers. -/
theorem Outcome.submitted (h : Outcome txHash timeoutMs sent received submits call)
    {result : Except SubmitError Unit} (hcall : call.submitted result = some call') :
    Outcome txHash timeoutMs sent received (submits ++ [result]) call' ∧
      ∀ subscription ∈ call'.subscription?, subscription ∈ call.subscription? := by
  cases h with
  | submitting subscription hnone =>
    cases result with
    | error e =>
      cases hcall
      exact ⟨.notSubmitted e hnone, nofun⟩
    | ok u =>
      cases hcall
      refine ⟨.waiting subscription ?_, fun _ hmem => hmem⟩
      rw [hnone]
      rfl
  | notSubmitted | waiting | decided | lagged | timedOut => cases hcall

/-- The time is over. -/
theorem Outcome.timeOut (h : Outcome txHash timeoutMs sent received submits call)
    (hcall : call.timeOut = some call') :
    Outcome txHash timeoutMs sent received submits call' ∧ call'.subscription? = none := by
  cases h with
  | waiting subscription hnone =>
    cases hcall
    exact ⟨.timedOut hnone, rfl⟩
  | submitting | notSubmitted | decided | lagged | timedOut => cases hcall

/-- The call is given an event. -/
theorem Outcome.value (subscription : channel.Receiver) (h : answerOf txHash received = none)
    (e : ServerEvent K) :
    Outcome txHash timeoutMs sent (received ++ [e]) [.ok ()]
        (Call.received txHash timeoutMs subscription (.value e)) ∧
      ∀ r ∈ (Call.received txHash timeoutMs subscription (.value e)).subscription?,
        r = subscription := by
  have hanswer : answerOf txHash (received ++ [e]) = answerOfEvent txHash e := by
    rw [answerOf, List.findSome?_append, show received.findSome? _ = none from h]
    exact List.findSome?_singleton
  simp only [Call.received]
  cases he : answerOfEvent txHash e with
  | none =>
    rw [he] at hanswer
    exact ⟨.waiting subscription hanswer, fun r hr => (Option.some.inj hr).symm⟩
  | some result =>
    rw [he] at hanswer
    exact ⟨.decided result hanswer, nofun⟩

/-- **What is known of a call** that began when some events had been sent. -/
structure Watched (txHash : B256) (timeoutMs : UInt64) (before : List (ServerEvent K))
    (s : System builder channel) (i : ℕ)
    (w : Watch (turnServer builder) Unit (Except SubmitError Unit)) (call : Call channel) :
    Prop where
  get : s.calls[i]? = some call
  server : w.state = s.server
  sent : channel.Sent s.events (before ++ w.sent)
  sound : w.Sound broadcastChannelSize
  position : ∀ subscription ∈ call.subscription?,
    ∃ p, w.position = some p ∧ channel.position subscription = before.length + p
  outcome : Outcome txHash timeoutMs w.sent w.values w.others call

/-- The server makes a turn. -/
theorem Watched.serve (h : Watched txHash timeoutMs before s i w call) {state : builder.State}
    (hstate : s.server = some state) (result : EventNextResult Descriptor) :
    Watched txHash timeoutMs before ⟨(EventServer.turn builder state result).2,
      (EventServer.turn builder state result).1.foldl channel.send s.events, s.calls⟩ i
      (w.serve result) call := by
  have hsound := h.sound.serve result
  rw [Watch.serve_eq (h.server.trans hstate)] at hsound ⊢
  refine ⟨h.get, rfl, ?_, hsound, h.position, h.outcome.mono _⟩
  rw [← List.append_assoc]
  exact BroadcastChannel.sent_foldl h.sent _

/-- Another call begins or moves. -/
theorem Watched.frame (h : Watched txHash timeoutMs before s i w call)
    (hserver : s'.server = s.server) (hevents : s'.events = s.events)
    (hget : s'.calls[i]? = some call) : Watched txHash timeoutMs before s' i w call :=
  ⟨hget, h.server.trans hserver.symm, hevents ▸ h.sent, h.sound, h.position, h.outcome⟩

/-- The pool answers. -/
theorem Watched.submitted (h : Watched txHash timeoutMs before s i w call)
    {result : Except SubmitError Unit} (hcall : call.submitted result = some call')
    (hserver : s'.server = s.server) (hevents : s'.events = s.events)
    (hget : s'.calls[i]? = some call') :
    Watched txHash timeoutMs before s' i (w.step broadcastChannelSize (.other result)) call' := by
  have hvalues : (w.hear w.position (.inr result)).values = w.values :=
    (Watch.values_hear _ _).trans (List.append_nil _)
  have hothers : (w.hear w.position (.inr result)).others = w.others ++ [result] :=
    Watch.others_hear _ _
  obtain ⟨houtcome, hsubscription⟩ := h.outcome.submitted hcall
  refine ⟨hget, h.server.trans hserver.symm, hevents ▸ h.sent, h.sound.step _,
    fun r hr => h.position r (hsubscription r hr), ?_⟩
  show Outcome txHash timeoutMs w.sent (w.hear w.position (.inr result)).values
    (w.hear w.position (.inr result)).others call'
  rw [hvalues, hothers]
  exact houtcome

/-- The time is over. -/
theorem Watched.timeOut (h : Watched txHash timeoutMs before s i w call)
    (hcall : call.timeOut = some call') (hserver : s'.server = s.server)
    (hevents : s'.events = s.events) (hget : s'.calls[i]? = some call') :
    Watched txHash timeoutMs before s' i w call' := by
  obtain ⟨houtcome, hnone⟩ := h.outcome.timeOut hcall
  refine ⟨hget, h.server.trans hserver.symm, hevents ▸ h.sent, h.sound, fun r hr => ?_, houtcome⟩
  rw [hnone] at hr
  cases hr

/-- **The call is given what comes next in the channel.** -/
theorem Watched.receive (h : Watched txHash timeoutMs before s i w call)
    (hcall : call.receive s.events = some call') (hserver : s'.server = s.server)
    (hevents : s'.events = s.events) (hget : s'.calls[i]? = some call') :
    Watched txHash timeoutMs before s' i (w.ask broadcastChannelSize ()) call' := by
  obtain ⟨-, hstate, hsent, hsound, hposition, houtcome⟩ := h
  generalize hothers : w.others = others at houtcome
  cases houtcome with
  | waiting subscription hnone =>
    obtain ⟨⟨x, subscription'⟩, hrecv, rfl⟩ := Option.map_eq_some_iff.mp hcall
    obtain ⟨p, hp, hreceiver⟩ := hposition subscription rfl
    obtain ⟨next, hnext, hnext'⟩ :=
      BroadcastChannel.recv_follows hsent hsound hp hreceiver hrecv
    have hsound' := hsound.ask ()
    rw [Watch.ask_eq hnext] at hsound' ⊢
    have hothers' : (w.hear (x.place next) (.inl ((), x))).others = [.ok ()] :=
      (Watch.others_hear _ _).trans ((List.append_nil _).trans hothers)
    -- The call has been too slow, or it is given the next event, which may decide.
    cases x with
    | lagged skipped =>
      have hvalues : (w.hear none (.inl ((), .lagged skipped))).values = w.values :=
        (Watch.values_hear _ _).trans (List.append_nil _)
      refine ⟨hget, hstate.trans hserver.symm, hevents ▸ hsent, hsound', nofun, ?_⟩
      rw [hothers']
      exact .lagged (hvalues ▸ hnone) (hsound'.left rfl).2
    | value e =>
      have hvalues : (w.hear (some next) (.inl ((), .value e))).values = w.values ++ [e] :=
        Watch.values_hear _ _
      obtain ⟨houtcome, hsubscription⟩ :=
        @Outcome.value _ _ _ timeoutMs w.sent w.values subscription' hnone e
      refine ⟨hget, hstate.trans hserver.symm, hevents ▸ hsent, hsound', fun r hr => ?_, ?_⟩
      · obtain rfl := hsubscription r hr
        exact ⟨next, rfl, hnext'⟩
      · rw [hothers']
        exact hvalues.symm ▸ houtcome
  | submitting | notSubmitted | decided | lagged | timedOut => cases hcall

theorem move_eq_some {f : Call channel → Option (Call channel)} {j : ℕ}
    (h : s.move j f = some s') : ∃ call call', s.calls[j]? = some call ∧ f call = some call' ∧
      s' = ⟨s.server, s.events, s.calls.set j call'⟩ := by
  obtain ⟨call, hget, h⟩ := Option.bind_eq_some_iff.mp h
  obtain ⟨call', hcall, h⟩ := Option.bind_eq_some_iff.mp h
  exact ⟨call, call', hget, hcall, (Option.some.inj h).symm⟩

/-- **One step of the system**: the call goes on, and so does the server. -/
theorem Watched.step {envelopes : Envelopes} (h : Watched txHash timeoutMs before s i w call)
    {act : Act Descriptor} (hstep : s.step cfg envelopes act = some s') :
    ∃ call', Watched txHash timeoutMs before s' i (w.step broadcastChannelSize (see i act))
      call' := by
  have hlt : i < s.calls.length := (List.getElem?_eq_some_iff.mp h.get).choose
  -- Where another call moves.
  have hother : ∀ {j : ℕ} {c : Call channel}, j ≠ i →
      Watched txHash timeoutMs before ⟨s.server, s.events, s.calls.set j c⟩ i w call :=
    fun hne => h.frame rfl rfl ((List.getElem?_set_ne hne).trans h.get)
  cases act with
  | serve result =>
    obtain ⟨state, hstate, rfl⟩ := Option.map_eq_some_iff.mp hstep
    exact ⟨call, h.serve hstate result⟩
  | call params =>
    cases hstep
    exact ⟨call, h.frame rfl rfl ((List.getElem?_append_left hlt).trans h.get)⟩
  | submitted j result =>
    obtain ⟨c, c', hget, hcall, rfl⟩ := move_eq_some hstep
    rcases eq_or_ne j i with rfl | hne
    · obtain rfl : call = c := Option.some.inj (h.get.symm.trans hget)
      rw [see, if_pos rfl]
      exact ⟨c', h.submitted hcall rfl rfl (List.getElem?_set_self hlt)⟩
    · rw [see, if_neg hne]
      exact ⟨call, hother hne⟩
  | receive j =>
    obtain ⟨c, c', hget, hcall, rfl⟩ := move_eq_some hstep
    rcases eq_or_ne j i with rfl | hne
    · obtain rfl : call = c := Option.some.inj (h.get.symm.trans hget)
      rw [see, if_pos rfl]
      exact ⟨c', h.receive hcall rfl rfl (List.getElem?_set_self hlt)⟩
    · rw [see, if_neg hne]
      exact ⟨call, hother hne⟩
  | timeOut j =>
    obtain ⟨c, c', hget, hcall, rfl⟩ := move_eq_some hstep
    rcases eq_or_ne j i with rfl | hne
    · obtain rfl : call = c := Option.some.inj (h.get.symm.trans hget)
      exact ⟨c', h.timeOut hcall rfl rfl (List.getElem?_set_self hlt)⟩
    · exact ⟨call, hother hne⟩

/-- **The call goes on along a run.** -/
theorem Watched.run {envelopes : Envelopes} (h : Watched txHash timeoutMs before s i w call)
    {acts : List (Act Descriptor)} (hrun : s.run cfg envelopes acts = some s') :
    ∃ call', Watched txHash timeoutMs before s' i
      (w.run broadcastChannelSize (acts.map (see i))) call' := by
  rw [Watch.run, List.foldl_map]
  refine foldlM_keeps (R := fun s w => ∃ call, Watched txHash timeoutMs before s i w call)
    (fun hw hstep => ?_) ⟨call, h⟩ hrun
  obtain ⟨call, hw⟩ := hw
  exact hw.step hstep

/-- A call that waits and has not received everything can go on to receive. -/
theorem Watched.reads_on (h : Watched txHash timeoutMs before s i w call)
    {subscription : channel.Receiver} (hcall : call = .waiting txHash timeoutMs subscription)
    (hlt : w.values.length < w.sent.length) (cfg : Config) (envelopes : Envelopes) :
    (s.step cfg envelopes (.receive i : Act Descriptor)).isSome = true := by
  obtain rfl := hcall
  obtain ⟨p, hp, hreceiver⟩ := h.position subscription rfl
  rw [← h.sound.position_eq hp] at hlt
  obtain ⟨x, hrecv⟩ := Option.isSome_iff_exists.mp
    (BroadcastChannel.isSome_recv h.sent hreceiver hlt)
  simp only [System.step, System.move, h.get, Option.bind_eq_bind, Option.bind_some, Call.receive,
    hrecv, Option.map_some]
  rfl

/-- A call that has returned stays so. -/
theorem returned_step {envelopes : Envelopes} {result : Except Jsonrpc.JsonRpcError K.Receipt}
    (h : s.calls[i]? = some (.returned result)) {act : Act Descriptor}
    (hstep : s.step cfg envelopes act = some s') : s'.calls[i]? = some (.returned result) := by
  have hlt : i < s.calls.length := (List.getElem?_eq_some_iff.mp h).choose
  have hmove : ∀ {j : ℕ} {f : Call channel → Option (Call channel)},
      f (.returned result) = none → s.move j f = some s' →
        s'.calls[i]? = some (.returned result) := by
    intro j f hnone hmove
    obtain ⟨c, c', hget, hcall, rfl⟩ := move_eq_some hmove
    have hne : j ≠ i := by
      rintro rfl
      obtain rfl : .returned result = c := Option.some.inj (h.symm.trans hget)
      cases hnone.symm.trans hcall
    exact (List.getElem?_set_ne hne).trans h
  cases act with
  | serve r =>
    obtain ⟨state, -, rfl⟩ := Option.map_eq_some_iff.mp hstep
    exact h
  | call params =>
    cases hstep
    exact (List.getElem?_append_left hlt).trans h
  | submitted j r => exact hmove rfl hstep
  | receive j => exact hmove rfl hstep
  | timeOut j => exact hmove rfl hstep

end Steps

/-! ### Runs -/

section Runs

variable {cfg} {envelopes : Envelopes} {s s' : System builder channel}

/-- All that a server has sent is known of. -/
theorem sent_step {act : Act Descriptor} (h : ∃ sent, channel.Sent s.events sent)
    (hstep : s.step cfg envelopes act = some s') : ∃ sent, channel.Sent s'.events sent := by
  obtain ⟨sent, hsent⟩ := h
  cases act with
  | serve result =>
    obtain ⟨state, -, rfl⟩ := Option.map_eq_some_iff.mp hstep
    exact ⟨_, BroadcastChannel.sent_foldl hsent _⟩
  | call params =>
    cases hstep
    exact ⟨sent, hsent⟩
  | submitted j result | receive j | timeOut j =>
    obtain ⟨c, c', -, -, rfl⟩ := move_eq_some hstep
    exact ⟨sent, hsent⟩

/-- **What a call returns.** A call whose transaction is refused, or that finds the task of the
server panicked, has returned at once. Any other one stands where it should: it has returned the
error of the pool, or it has gone through the events that were sent since it began, one with each
receive, up to the first one that decides, unless its time is over or it has been too slow for the
channel. -/
theorem answered (cfg : Config) (envelopes : Envelopes)
    (builder : CommitStateBlockBuilder K Descriptor)
    (channel : BroadcastChannel (ServerEvent K) broadcastChannelSize) (params : Params)
    (before after : List (Act Descriptor)) (s₀ s : System builder channel)
    (hbefore : (System.start builder channel).run cfg envelopes before = some s₀)
    (hafter : s₀.run cfg envelopes (.call params :: after) = some s) :
    ∃ call, s.calls[s₀.calls.length]? = some call ∧
      match validateAndDecodeTx cfg params.hexTx (.new .transactionUnready) with
      | .error e => call = .returned (.error e)
      | .ok (tx : envelopes.TxEnvelope) =>
        (s₀.server.isNone = true → call = .returned (.error .overloaded)) ∧
        (s₀.server.isSome = true → Answered cfg envelopes (envelopes.txHash tx)
          (timeoutMs cfg params) s s₀.calls.length (s₀.watch after) call) := by
  -- A call that has returned at once stays as it is.
  have hreturned (result : Except Jsonrpc.JsonRpcError K.Receipt) {s₁ : System builder channel}
      (h : s₁.calls[s₀.calls.length]? = some (.returned result))
      (hrun : s₁.run cfg envelopes after = some s) :
      s.calls[s₀.calls.length]? = some (.returned result) :=
    foldlM_keeps
      (R := fun s (_ : Unit) => s.calls[s₀.calls.length]? = some (.returned result))
      (f := fun _ _ => ()) (t := ()) (fun h hstep => returned_step h hstep) h hrun
  obtain ⟨sent, hsent⟩ : ∃ sent, channel.Sent s₀.events sent :=
    foldlM_keeps (R := fun s (_ : Unit) => ∃ sent, channel.Sent s.events sent)
      (f := fun _ _ => ()) (t := ()) (fun h hstep => sent_step h hstep) ⟨[], channel.sent_new⟩
      hbefore
  rw [System.run, List.foldlM_cons] at hafter
  obtain ⟨s₁, hcall, hafter⟩ := Option.bind_eq_some_iff.mp hafter
  cases hcall
  have hget : (s₀.calls ++ [Call.start cfg envelopes s₀ params])[s₀.calls.length]? =
      some (Call.start cfg envelopes s₀ params) := List.getElem?_concat_length
  cases hvalid : (validateAndDecodeTx cfg params.hexTx (.new .transactionUnready) :
      Except Jsonrpc.JsonRpcError envelopes.TxEnvelope) with
  -- The transaction is refused before it is sent.
  | error e =>
    have hstart : Call.start cfg envelopes s₀ params = .returned (.error e) := by
      rw [Call.start, hvalid]
    exact ⟨_, hreturned _ (hget.trans (congrArg some hstart)) hafter, rfl⟩
  | ok tx =>
    cases hserver : s₀.server with
    | none =>
      have hstart : Call.start cfg envelopes s₀ params = .returned (.error .overloaded) := by
        rw [Call.start, hvalid]
        exact if_pos (by rw [hserver]; rfl)
      exact ⟨_, hreturned _ (hget.trans (congrArg some hstart)) hafter, fun _ => rfl, nofun⟩
    | some state =>
      have hstart : Call.start cfg envelopes s₀ params = .submitting (envelopes.txHash tx)
          (timeoutMs cfg params) (channel.subscribe s₀.events) := by
        rw [Call.start, hvalid]
        exact if_neg (by rw [hserver]; exact Bool.false_ne_true)
      rw [hstart] at hget hafter
      -- The call subscribes before it submits the transaction.
      have hw : Watched (envelopes.txHash tx) (timeoutMs cfg params) sent
          (⟨s₀.server, s₀.events, s₀.calls ++ [.submitting (envelopes.txHash tx)
            (timeoutMs cfg params) (channel.subscribe s₀.events)]⟩ : System builder channel)
          s₀.calls.length (Watch.start (turnServer builder) _ _ s₀.server)
          (.submitting (envelopes.txHash tx) (timeoutMs cfg params)
            (channel.subscribe s₀.events)) := by
        refine ⟨hget, rfl, ?_, Watch.sound_start _, fun r hr => ?_, .submitting _ rfl⟩
        · show channel.Sent s₀.events (sent ++ [])
          rwa [List.append_nil]
        · obtain rfl := Option.some.inj hr
          exact ⟨0, rfl, channel.position_subscribe hsent⟩
      obtain ⟨call, hw⟩ := hw.run hafter
      exact ⟨call, hw.get, nofun, fun _ => ⟨hw.sound.begins, hw.outcome,
        fun _ hcall hlt => hw.reads_on hcall hlt cfg envelopes⟩⟩

/-- A builder that makes a block of every number, with a transaction in every other one. -/
def sampleBuilder : CommitStateBlockBuilder sampleKinds UInt64 where
  State := Unit
  new := ()
  reset := id
  processEventDescriptor := fun _ n => (some (.ok ⟨⟨⟨n, if n % 2 = 0 then [⟨(), (), rfl⟩] else []⟩,
    word n.toUInt8⟩, .proposed⟩), ())

/-- Transactions that are all the same. -/
def sampleEnvelopes : Envelopes where
  TxEnvelope := Unit
  decode2718Exact := fun bytes => if bytes = [] then none else some ()
  chainId := fun _ => some 143
  txHash := fun _ => word 0

def sampleConfig : Config := ⟨143, false, 2000, 10000⟩

/-- The block before the call is not looked at, the next one does not have the transaction, and the
third one has it. -/
theorem answered_sample :
    let channel := BroadcastChannel.ofList (ServerEvent sampleKinds) broadcastChannelSize
    let after : List (Act UInt64) :=
      [.serve (.ready 7), .serve (.ready 8), .submitted 0 (.ok ()), .receive 0, .receive 0]
    ∃ s₀ s : System sampleBuilder channel,
      (System.start sampleBuilder channel).run sampleConfig sampleEnvelopes [.serve (.ready 6)] =
        some s₀ ∧
      s₀.run sampleConfig sampleEnvelopes (.call ⟨[2], none⟩ :: after) = some s ∧
      s.calls = [.returned (.ok ())] ∧ (s₀.watch after).values.length = 2 ∧
      ∃ call, s.calls[0]? = some call ∧ Answered sampleConfig sampleEnvelopes (word 0) 2000 s 0
        (s₀.watch after) call := by
  obtain ⟨call, hget, -, hanswered⟩ := answered sampleConfig sampleEnvelopes sampleBuilder
    (BroadcastChannel.ofList (ServerEvent sampleKinds) broadcastChannelSize) ⟨[2], none⟩
    [.serve (.ready 6)] [.serve (.ready 7), .serve (.ready 8), .submitted 0 (.ok ()), .receive 0,
      .receive 0] _ _ rfl rfl
  exact ⟨_, _, rfl, rfl, rfl, rfl, call, hget, hanswered rfl⟩

end Runs

end SendRawTransactionSync

end Rpc

end MonadServices
