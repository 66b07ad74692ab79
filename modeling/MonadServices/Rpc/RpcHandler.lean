import Mathlib.Data.List.DropRight
import MonadServices.Lib.Buffered
import MonadServices.Lib.Inevitable
import MonadServices.Rpc.Jsonrpc

/-!
# Requests and batches of requests

The body of a request is a single request or a list of them. The requests of a batch are served at
the same time, up to a limit, and their responses are collected in the order of the requests. What
they take in JSON is added up as they come: when the sum exceeds the limit for responses the rest
is given up, and what is collected by then is shorter than the batch. What is left is written, and
its text is compared with the limit again.

The sum leaves out the brackets and the commas of the text, so it never exceeds the limit where the
text does not. **The answer to a body is put together of responses each of which its method may
return**, whatever the order in which the requests go on and whatever happens to the state they
share (`MonadServices.Rpc.RpcHandler.mayAnswer_of_answered`). It is bound to come, unless no request
of a batch may be served at a time, and then it never comes
(`MonadServices.Rpc.RpcHandler.inevitably_answered_iff`).
-/

namespace MonadServices

namespace Rpc

deriving instance DecidableEq for RawValue

namespace Jsonrpc

def JsonRpcError.maxResponseSizeExceeded : JsonRpcError :=
  .withMessage .serverError "response exceeds size limit"

def Response.fromError (error : JsonRpcError) : Response := .new none (some error) .null

/-- `serialize_with_size_limit`. -/
def serializeWithSizeLimit {α : Type} [Serialize α] (value : α) (maxSize : ℕ) :
    Except JsonRpcError RawValue :=
  if maxSize < (toJson value).compact.utf8ByteSize then .error .maxResponseSizeExceeded
  else .ok ⟨(toJson value).compact⟩

/-- `ResponseWrapper`. -/
inductive ResponseWrapper (α : Type) where
  | single (response : α)
  | batch (responses : List α)

instance {α : Type} [Serialize α] : Serialize (ResponseWrapper α) where
  toJson := fun
    | .single response => toJson response
    | .batch responses => toJson responses

end Jsonrpc

namespace RpcHandler

open Jsonrpc

/-! ### Reading requests -/

/-- The fields of a request, where all of them could be read. -/
structure RequestRaw where
  jsonrpc : String
  method : String
  params : Option RawValue
  id : RawValue

/-- `jsonrpc::Request`. -/
structure Request where
  jsonrpc : String
  method : String
  params : Option RawValue
  id : RequestId

/-- `jsonrpc::RequestWrapper`. -/
inductive RequestWrapper where
  | single (request : RawValue)
  | batch (requests : List RawValue)

/-- **The reader of JSON**, by what it makes of a text for each type it is asked for. -/
structure Reader where
  list : Bytes → Option (List RawValue)
  raw : Bytes → Option RawValue
  request : RawValue → Option RequestRaw
  number : RawValue → Option Int64
  string : RawValue → Option String

/-- `char::is_whitespace`: the property `White_Space` of Unicode. -/
def isWhitespace (c : Char) : Bool :=
  (9 ≤ c.toNat && c.toNat ≤ 13) || (0x2000 ≤ c.toNat && c.toNat ≤ 0x200a) ||
    [0x20, 0x85, 0xa0, 0x1680, 0x2028, 0x2029, 0x202f, 0x205f, 0x3000].any (· == c.toNat)

/-- `str::trim`. -/
def trim (text : String) : List Char :=
  (text.toList.dropWhile isWhitespace).rdropWhile isWhitespace

/-- `Request::from_raw_value`. -/
def Request.fromRawValue (reader : Reader) (raw : RawValue) : Option Request :=
  match reader.request raw with
  | none => none
  | some ⟨jsonrpc, method, params, id⟩ =>
    if jsonrpc ≠ "2.0" then none
    else match reader.number id with
      | some number => some ⟨jsonrpc, method, params, .number number⟩
      | none => match reader.string id with
        | some string => some ⟨jsonrpc, method, params, .string string⟩
        | none =>
          if trim id.text = "null".toList then some ⟨jsonrpc, method, params, .null⟩ else none

/-- `RequestWrapper::from_body_bytes`. -/
def RequestWrapper.fromBodyBytes (reader : Reader) (body : Bytes) : Option RequestWrapper :=
  match reader.list body with
  | some requests => some (.batch requests)
  | none => (reader.raw body).map .single

/-! ### The handler -/

/-- **The methods of the service**, `rpc_select`: a call goes on step by step, and the calls share
a state. -/
structure Methods (σ τ ν : Type) where
  call : String → Option RawValue → τ
  step : String → Option RawValue → ν → σ → τ → Option (σ × τ)
  result : τ → Option (Except Jsonrpc.JsonRpcError RawValue)

structure Resources where
  batchRequestLimit : UInt16
  batchConcurrentLimit : UInt16
  maxResponseSize : UInt32

variable {σ τ ν : Type} (reader : Reader) (methods : Methods σ τ ν) (resources : Resources)

/-- How far a request of a batch is. -/
inductive Task (τ : Type) where
  | waiting
  | running (request : Request) (state : τ)
  | done (response : Response)

/-- **The job of a request in a batch**, which is told from the others by its place. -/
def job : Job σ (RawValue × ℕ) (Task τ) Response ν where
  fresh := .waiting
  step := fun i input s task =>
    match task with
    | .waiting =>
      match Request.fromRawValue reader i.1 with
      | none => some (s, .done (.fromResult .null (.error (.new .invalidRequest))))
      | some request => some (s, .running request (methods.call request.method request.params))
    | .running request state =>
      match methods.result state with
      | some result => some (s, .done (.fromResult request.id result))
      | none => (methods.step request.method request.params input s state).map fun
          (s', state') => (s', .running request state')
    | .done _ => none
  result := fun
    | .done response => some response
    | _ => none

/-- What is sent as the body of an error. -/
def errorBody (error : Jsonrpc.JsonRpcError) : String := (toJson (Response.fromError error)).compact

/-- The response as a whole, unless it is too long. -/
def respond (response : ResponseWrapper Response) : String :=
  match serializeWithSizeLimit response resources.maxResponseSize.toNat with
  | .ok raw => raw.text
  | .error error => errorBody error

/-- The responses that have been collected, unless some are missing. -/
def respondBatch (requestLen : ℕ) (batchResponse : List Response) : String :=
  if batchResponse.length < requestLen then errorBody .maxResponseSizeExceeded
  else respond resources (.batch batchResponse)

/-- **How far a body is.** -/
inductive Handler (τ : Type) where
  | single (request : Request) (state : τ)
  | batch (requestLen : ℕ) (stream : Stream (RawValue × ℕ) (Task τ)) (jsonSerializedLen : ℕ)
      (batchResponse : List Response)
  | answered (body : String)

/-- `rpc_handler`, up to where the requests are served. -/
def start (body : Bytes) : Handler τ :=
  match RequestWrapper.fromBodyBytes reader body with
  | none => .answered (errorBody (.new .parseError))
  | some (.single raw) =>
    match Request.fromRawValue reader raw with
    | none => .answered (errorBody (.new .invalidRequest))
    | some request => .single request (methods.call request.method request.params)
  | some (.batch requests) =>
    if requests.length = 0 then .answered (errorBody (.new .invalidRequest))
    else if resources.batchRequestLimit.toNat < requests.length then
      .answered (errorBody (.withMessage .serverError
        s!"number of requests in batch request exceeds limit of {resources.batchRequestLimit}"))
    else .batch requests.length (.start (job reader methods) requests.zipIdx) 0 []

/-- What happens next. -/
inductive Event (ν : Type) where
  /-- The single request goes on. -/
  | serve (input : ν)
  /-- A request of the batch goes on. -/
  | work (i : RawValue × ℕ) (input : ν)
  /-- The next response of the batch is looked at. -/
  | next

/-- `take_while` and `collect`: one response, or the end of the stream. -/
def collect (requestLen : ℕ) (stream : Stream (RawValue × ℕ) (Task τ)) (len : ℕ)
    (batchResponse : List Response) : Option (Handler τ) :=
  if stream.queue = [] then some (.answered (respondBatch resources requestLen batchResponse))
  else (stream.next (job reader methods)).map fun (_, response, rest) =>
    if len + jsonSerializedLen response ≤ resources.maxResponseSize.toNat then
      .batch requestLen rest (len + jsonSerializedLen response) (batchResponse ++ [response])
    else .answered (respondBatch resources requestLen batchResponse)

/-- **One step of the handler**; `none` when the event cannot happen now. -/
def step (event : Event ν) (s : σ) (handler : Handler τ) : Option (σ × Handler τ) :=
  match handler, event with
  | .single request state, .serve input =>
    match methods.result state with
    | some result =>
      some (s, .answered (respond resources (.single (.fromResult request.id result))))
    | none => (methods.step request.method request.params input s state).map fun
        (s', state') => (s', .single request state')
  | .batch requestLen stream len batchResponse, .work i input =>
    (stream.work (job reader methods) resources.batchConcurrentLimit.toNat i input s).map fun
      (s', stream') => (s', .batch requestLen stream' len batchResponse)
  | .batch requestLen stream len batchResponse, .next =>
    (collect reader methods resources requestLen stream len batchResponse).map fun handler =>
      (s, handler)
  | _, _ => none

/-- What some events lead to. -/
def run (x : σ × Handler τ) (events : List (Event ν)) : Option (σ × Handler τ) :=
  events.foldlM (fun x event => step reader methods resources event x.1 x.2) x

/-- A step by some event. -/
def Step (before after : σ × Handler τ) : Prop :=
  ∃ event, step reader methods resources event before.1 before.2 = some after

/-! ### What may be answered -/

/-- How far a call may come, whatever the others do to the state it shares with them: each of its
steps is one from some state. -/
inductive Methods.Reaches (method : String) (params : Option RawValue) : τ → Prop where
  | call : Methods.Reaches method params (methods.call method params)
  | step {input : ν} {s s' : σ} {t t' : τ} (h : Methods.Reaches method params t)
      (hstep : methods.step method params input s t = some (s', t')) :
      Methods.Reaches method params t'

/-- **What a method may return.** -/
def Methods.MayReturn (method : String) (params : Option RawValue)
    (result : Except Jsonrpc.JsonRpcError RawValue) : Prop :=
  ∃ t, methods.Reaches method params t ∧ methods.result t = some result

/-- The responses to a request of a batch. -/
def MayRespond (raw : RawValue) (response : Response) : Prop :=
  match Request.fromRawValue reader raw with
  | none => response = .fromResult .null (.error (.new .invalidRequest))
  | some request => ∃ result, methods.MayReturn request.method request.params result ∧
      response = .fromResult request.id result

/-- **The answers that a body may get**: a response to every request, in their order, each of which
its method may return, and the text of all of them compared with the limit as a whole. -/
def MayAnswer (body : Bytes) (answer : String) : Prop :=
  match RequestWrapper.fromBodyBytes reader body with
  | none => answer = errorBody (.new .parseError)
  | some (.single raw) =>
    match Request.fromRawValue reader raw with
    | none => answer = errorBody (.new .invalidRequest)
    | some request => ∃ result, methods.MayReturn request.method request.params result ∧
        answer = respond resources (.single (.fromResult request.id result))
  | some (.batch requests) =>
    if requests.length = 0 then answer = errorBody (.new .invalidRequest)
    else if resources.batchRequestLimit.toNat < requests.length then
      answer = errorBody (.withMessage .serverError
        s!"number of requests in batch request exceeds limit of {resources.batchRequestLimit}")
    else ∃ responses, List.Forall₂ (MayRespond reader methods) requests responses ∧
      answer = respond resources (.batch responses)

variable {reader methods resources}

/-! ### Jobs and responses -/

/-- What is known of a request of a batch. -/
def Task.Sound (reader : Reader) (methods : Methods σ τ ν) (raw : RawValue) : Task τ → Prop
  | .waiting => True
  | .running request state => Request.fromRawValue reader raw = some request ∧
      methods.Reaches request.method request.params state
  | .done response => MayRespond reader methods raw response

theorem sound_of_reaches {i : RawValue × ℕ} {t : Task τ} (h : (job reader methods).Reaches i t) :
    t.Sound reader methods i.1 := by
  induction h with
  | fresh => trivial
  | @step input s s' t t' _ hstep ih =>
    cases t with
    | waiting =>
      simp only [job] at hstep
      split at hstep <;> rename_i hread <;> cases hstep
      · simp only [Task.Sound, MayRespond, hread]
      · exact ⟨hread, .call⟩
    | running request state =>
      obtain ⟨hread, hreaches⟩ := ih
      simp only [job] at hstep
      split at hstep
      · rename_i result hresult
        cases hstep
        simp only [Task.Sound, MayRespond, hread]
        exact ⟨result, ⟨state, hreaches, hresult⟩, rfl⟩
      · obtain ⟨⟨s₁, state'⟩, hnext, heq⟩ := Option.map_eq_some_iff.mp hstep
        cases heq
        exact ⟨hread, hreaches.step hnext⟩
    | done response => cases hstep

/-- A job returns what its request may get alone. -/
theorem mayRespond_of_result {i : RawValue × ℕ} {t : Task τ} {response : Response}
    (h : (job reader methods).Reaches i t)
    (hresult : (job reader methods).result t = some response) :
    MayRespond reader methods i.1 response := by
  have hsound := sound_of_reaches h
  cases t with
  | waiting | running request state => cases hresult
  | done response' =>
    cases hresult
    exact hsound

/-- Where every method may return, every request may get a response. -/
theorem exists_mayRespond (reader : Reader) (hreturns : ∀ method params, ∃ result,
    methods.MayReturn method params result) (raw : RawValue) :
    ∃ response, MayRespond reader methods raw response := by
  cases hread : Request.fromRawValue reader raw with
  | none =>
    refine ⟨.fromResult .null (.error (.new .invalidRequest)), ?_⟩
    simp only [MayRespond, hread]
  | some request =>
    obtain ⟨result, hresult⟩ := hreturns request.method request.params
    refine ⟨.fromResult request.id result, ?_⟩
    simp only [MayRespond, hread]
    exact ⟨result, hresult, rfl⟩

theorem exists_responses (reader : Reader) (hreturns : ∀ method params, ∃ result,
    methods.MayReturn method params result) (requests : List RawValue) :
    ∃ responses, List.Forall₂ (MayRespond reader methods) requests responses := by
  induction requests with
  | nil => exact ⟨[], .nil⟩
  | cons raw requests ih =>
    obtain ⟨response, hresponse⟩ := exists_mayRespond reader hreturns raw
    obtain ⟨responses, hresponses⟩ := ih
    exact ⟨response :: responses, .cons hresponse hresponses⟩

/-! ### The length of a batch -/

/-- The text of a batch is at least as long as the texts of its responses. -/
theorem sum_le_utf8ByteSize (responses : List Response) :
    (responses.map jsonSerializedLen).sum ≤
      (toJson (ResponseWrapper.batch responses)).compact.utf8ByteSize := by
  have hexact : jsonSerializedLen responses = (toJson responses).compact.utf8ByteSize :=
    lenExact_list lenExact_response responses
  have hlen : jsonSerializedLen responses =
      2 + (responses.map jsonSerializedLen).sum + (responses.length - 1) := rfl
  change _ ≤ (toJson responses).compact.utf8ByteSize
  omega

/-- **A batch whose responses are too long by themselves is refused.** -/
theorem respond_batch_of_lt {responses : List Response}
    (h : resources.maxResponseSize.toNat < (responses.map jsonSerializedLen).sum) :
    respond resources (.batch responses) = errorBody .maxResponseSizeExceeded := by
  have hsize := h.trans_le (sum_le_utf8ByteSize responses)
  rw [respond, serializeWithSizeLimit, if_pos hsize]

/-! ### Runs -/

/-- The responses that have been collected are those of the first requests. -/
structure Collected (reader : Reader) (methods : Methods σ τ ν) (requests : List RawValue)
    (stream : Stream (RawValue × ℕ) (Task τ)) (len : ℕ) (batchResponse : List Response) :
    Prop where
  kept : ∀ i ∈ stream.queue, (job reader methods).Reaches i (stream.task i)
  responses : ∃ taken, taken ++ stream.queue = requests.zipIdx ∧
    List.Forall₂ (fun i => MayRespond reader methods i.1) taken batchResponse
  len : len = (batchResponse.map jsonSerializedLen).sum

/-- What is known of a handler. -/
def Sound (reader : Reader) (methods : Methods σ τ ν) (resources : Resources) (body : Bytes) :
    Handler τ → Prop
  | .single request state => ∃ raw, RequestWrapper.fromBodyBytes reader body = some (.single raw) ∧
      Request.fromRawValue reader raw = some request ∧
      methods.Reaches request.method request.params state
  | .batch requestLen stream len batchResponse => ∃ requests,
      RequestWrapper.fromBodyBytes reader body = some (.batch requests) ∧
      requestLen = requests.length ∧ requests.length ≠ 0 ∧
      requests.length ≤ resources.batchRequestLimit.toNat ∧
      Collected reader methods requests stream len batchResponse
  | .answered answer => MayAnswer reader methods resources body answer

theorem sound_start (reader : Reader) (methods : Methods σ τ ν) (resources : Resources)
    (body : Bytes) :
    Sound reader methods resources body (start reader methods resources body) := by
  unfold start
  split
  · rename_i hbody
    simp only [Sound, MayAnswer, hbody]
  · rename_i raw hbody
    split
    · rename_i hread
      simp only [Sound, MayAnswer, hbody, hread]
    · rename_i request hread
      exact ⟨raw, hbody, hread, .call⟩
  · rename_i requests hbody
    split
    · rename_i hzero
      simp only [Sound, MayAnswer, hbody, if_pos hzero]
    · rename_i hzero
      split
      · rename_i hlimit
        simp only [Sound, MayAnswer, hbody, if_neg hzero, if_pos hlimit]
      · rename_i hlimit
        exact ⟨requests, hbody, rfl, hzero, not_lt.mp hlimit, fun _ _ => .fresh, ⟨[], rfl, .nil⟩,
          rfl⟩

/-- The answer to a batch, by responses to all its requests. -/
theorem mayAnswer_batch {body : Bytes} {requests : List RawValue} {responses : List Response}
    (hbody : RequestWrapper.fromBodyBytes reader body = some (.batch requests))
    (hne : requests.length ≠ 0) (hlimit : requests.length ≤ resources.batchRequestLimit.toNat)
    (hresponses : List.Forall₂ (MayRespond reader methods) requests responses) :
    MayAnswer reader methods resources body (respond resources (.batch responses)) := by
  simp only [MayAnswer, hbody, if_neg hne, if_neg (not_lt.mpr hlimit)]
  exact ⟨responses, hresponses, rfl⟩

theorem forall₂_of_zipIdx {requests : List RawValue} {is : List (RawValue × ℕ)}
    {responses : List Response} (his : is = requests.zipIdx)
    (h : List.Forall₂ (fun i => MayRespond reader methods i.1) is responses) :
    List.Forall₂ (MayRespond reader methods) requests responses := by
  have hmap : is.map Prod.fst = requests := by rw [his, List.zipIdx_map_fst]
  rw [← hmap, List.forall₂_map_left_iff]
  exact h

/-- **A response is collected, or an answer is given that the requests may get.** -/
theorem sound_collect {body : Bytes} {requests : List RawValue}
    {stream : Stream (RawValue × ℕ) (Task τ)} {len : ℕ} {batchResponse : List Response}
    {handler : Handler τ} (hreturns : ∀ method params, ∃ result,
      methods.MayReturn method params result)
    (hbody : RequestWrapper.fromBodyBytes reader body = some (.batch requests))
    (hne : requests.length ≠ 0) (hlimit : requests.length ≤ resources.batchRequestLimit.toNat)
    (hc : Collected reader methods requests stream len batchResponse)
    (h : collect reader methods resources requests.length stream len batchResponse =
      some handler) : Sound reader methods resources body handler := by
  obtain ⟨taken, htaken, hresponses⟩ := hc.responses
  have hlength := hresponses.length_eq
  have htotal : taken.length + stream.queue.length = requests.length := by
    rw [← List.length_append, htaken, List.length_zipIdx]
  unfold collect at h
  split at h
  · -- All the responses are there.
    rename_i hqueue
    cases h
    rw [hqueue, List.append_nil] at htaken
    rw [hqueue, List.length_nil, Nat.add_zero] at htotal
    rw [respondBatch, if_neg (by omega)]
    exact mayAnswer_batch hbody hne hlimit (forall₂_of_zipIdx htaken hresponses)
  · obtain ⟨⟨i, response, rest⟩, hnext, heq⟩ := Option.map_eq_some_iff.mp h
    obtain ⟨hqueue, hresult, htask⟩ := Stream.next_eq_some.mp hnext
    have hi : i ∈ stream.queue := hqueue ▸ List.mem_cons_self
    have hresponse := mayRespond_of_result (hc.kept i hi) hresult
    have happend : List.Forall₂ (fun i => MayRespond reader methods i.1) (taken ++ [i])
        (batchResponse ++ [response]) := List.rel_append hresponses (.cons hresponse .nil)
    have hsplit : (taken ++ [i]) ++ rest.queue = requests.zipIdx := by
      rw [List.append_assoc, List.singleton_append, ← hqueue, htaken]
    have hsum : ((batchResponse ++ [response]).map jsonSerializedLen).sum =
        len + jsonSerializedLen response := by
      rw [List.map_append, List.sum_append, ← hc.len]
      simp
    dsimp only at heq
    split at heq <;> subst heq
    · refine ⟨requests, hbody, rfl, hne, hlimit, fun j hj => ?_, ⟨_, hsplit, happend⟩, hsum.symm⟩
      rw [htask]
      exact hc.kept j (hqueue ▸ List.mem_cons_of_mem i hj)
    · -- The rest of the responses would make the text longer still.
      rename_i hexceeds
      obtain ⟨more, hmore⟩ := exists_responses reader hreturns
        (rest.queue.map Prod.fst)
      have hall : List.Forall₂ (MayRespond reader methods) requests
          ((batchResponse ++ [response]) ++ more) :=
        forall₂_of_zipIdx hsplit (List.rel_append happend (List.forall₂_map_left_iff.mp hmore))
      have hlt : resources.maxResponseSize.toNat <
          (((batchResponse ++ [response]) ++ more).map jsonSerializedLen).sum := by
        rw [List.map_append, List.sum_append, hsum]
        omega
      have hqueueLength : 0 < stream.queue.length := List.length_pos_of_mem hi
      rw [respondBatch, if_pos (by omega), ← respond_batch_of_lt hlt]
      exact mayAnswer_batch hbody hne hlimit hall

/-- **Every step keeps what is known.** -/
theorem sound_step {body : Bytes} {event : Event ν} {s s' : σ} {handler handler' : Handler τ}
    (hreturns : ∀ method params, ∃ result, methods.MayReturn method params result)
    (hsound : Sound reader methods resources body handler)
    (h : step reader methods resources event s handler = some (s', handler')) :
    Sound reader methods resources body handler' := by
  cases handler with
  | single request state =>
    obtain ⟨raw, hbody, hread, hreaches⟩ := hsound
    cases event with
    | serve input =>
      simp only [step] at h
      split at h
      · rename_i result hresult
        cases h
        simp only [Sound, MayAnswer, hbody, hread]
        exact ⟨result, ⟨state, hreaches, hresult⟩, rfl⟩
      · obtain ⟨⟨s₁, state'⟩, hnext, heq⟩ := Option.map_eq_some_iff.mp h
        cases heq
        exact ⟨raw, hbody, hread, hreaches.step hnext⟩
    | work i input => cases h
    | next => cases h
  | batch requestLen stream len batchResponse =>
    obtain ⟨requests, hbody, rfl, hne, hlimit, hc⟩ := hsound
    cases event with
    | serve input => cases h
    | work i input =>
      obtain ⟨⟨s₁, stream'⟩, hwork, heq⟩ := Option.map_eq_some_iff.mp h
      cases heq
      have hqueue : stream'.queue = stream.queue := by
        obtain ⟨-, -, t, -, rfl⟩ := Stream.work_eq_some.mp hwork
        rfl
      have hkept : stream.Kept (fun i t _ => (job reader methods).Reaches i t) s := hc.kept
      refine ⟨requests, hbody, rfl, hne, hlimit,
        hkept.work (Job.meets_reaches _) hwork, ?_, hc.len⟩
      rw [hqueue]
      exact hc.responses
    | next =>
      obtain ⟨handler₁, hcollect, heq⟩ := Option.map_eq_some_iff.mp h
      cases heq
      exact sound_collect hreturns hbody hne hlimit hc hcollect
  | answered answer => cases event <;> cases h

theorem sound_run {body : Bytes} {events : List (Event ν)} {x x' : σ × Handler τ}
    (hreturns : ∀ method params, ∃ result, methods.MayReturn method params result)
    (hsound : Sound reader methods resources body x.2)
    (h : run reader methods resources x events = some x') :
    Sound reader methods resources body x'.2 := by
  induction events generalizing x with
  | nil =>
    cases h
    exact hsound
  | cons event events ih =>
    rw [run, List.foldlM_cons] at h
    obtain ⟨y, hstep, hrest⟩ := Option.bind_eq_some_iff.mp h
    exact ih (sound_step hreturns hsound hstep) hrest

/-- **Whatever the order in which the requests of a body go on, its answer is put together of
responses each of which its method may return.** A response that is given up must exist for that:
every method may return something. -/
theorem mayAnswer_of_answered (reader : Reader) (methods : Methods σ τ ν) (resources : Resources)
    (hreturns : ∀ method params, ∃ result, methods.MayReturn method params result)
    (body : Bytes) (events : List (Event ν)) (s s' : σ) (answer : String)
    (hrun : run reader methods resources (s, start reader methods resources body) events =
      some (s', .answered answer)) :
    MayAnswer reader methods resources body answer :=
  sound_run hreturns (sound_start reader methods resources body) hrun

/-! ### A batch of two -/

/-- A request for the chain id. -/
def chainIdRequest : RawValue :=
  ⟨"\x7b\"jsonrpc\":\"2.0\",\"method\":\"eth_chainId\",\"id\":1\x7d"⟩

/-- What is read in a batch of that request and of a number. -/
def sampleReader : Reader where
  list := fun body => if body.head? = some 91 then some [chainIdRequest, ⟨"0"⟩] else none
  raw := fun _ => none
  request := fun raw =>
    if raw = chainIdRequest then some ⟨"2.0", "eth_chainId", none, ⟨"1"⟩⟩ else none
  number := fun raw => if raw.text = "1" then some 1 else none
  string := fun _ => none

/-- A service that returns after one step. -/
def sampleMethods : Methods Unit Bool Unit where
  call := fun _ _ => false
  step := fun _ _ _ s returned => if returned then none else some (s, true)
  result := fun returned => if returned then some (.ok ⟨"\"0x8f\""⟩) else none

def sampleResources : Resources := ⟨1000, 32, 25000000⟩

/-- The second request is done before the first one. -/
def sampleEvents : List (Event Unit) :=
  [.work (⟨"0"⟩, 1) (), .work (chainIdRequest, 0) (), .work (chainIdRequest, 0) (),
    .work (chainIdRequest, 0) (), .next, .next, .next]

set_option maxRecDepth 4000 in
theorem mayAnswer_of_answered_sample :
    MayAnswer sampleReader sampleMethods sampleResources [91] (respond sampleResources
      (.batch [.fromResult (.number 1) (.ok ⟨"\"0x8f\""⟩),
        .fromResult .null (.error (.new .invalidRequest))])) :=
  mayAnswer_of_answered sampleReader sampleMethods sampleResources
    (fun method params => ⟨_, true, .step .call
      (show sampleMethods.step method params () () false = some ((), true) from rfl), rfl⟩) [91]
    sampleEvents () () _ rfl

/-! ### Whether there is an answer -/

/-- **Methods that return**: a call without a result can go on, and each of its steps makes a
number smaller. -/
structure Methods.Ends (methods : Methods σ τ ν) (measure : String → Option RawValue → τ → ℕ) :
    Prop where
  progress : ∀ method params s t, methods.result t = none →
    ∃ input s' t', methods.step method params input s t = some (s', t')
  decreases : ∀ {method params input s s' t t'},
    methods.step method params input s t = some (s', t') →
      measure method params t' < measure method params t

/-- What a request of a batch still has to do. -/
def Task.measure (reader : Reader) (methods : Methods σ τ ν)
    (measure : String → Option RawValue → τ → ℕ) (i : RawValue × ℕ) : Task τ → ℕ
  | .waiting =>
    match Request.fromRawValue reader i.1 with
    | none => 1
    | some request =>
      measure request.method request.params (methods.call request.method request.params) + 2
  | .running request state => measure request.method request.params state + 1
  | .done _ => 0

variable {measure : String → Option RawValue → τ → ℕ}

theorem ends_job [Inhabited ν] (reader : Reader) (hends : methods.Ends measure) :
    (job reader methods).Ends (Task.measure reader methods measure) where
  progress := by
    intro i s t hresult
    cases t with
    | waiting =>
      cases hread : Request.fromRawValue reader i.1 with
      | none =>
        refine ⟨default, s, .done (.fromResult .null (.error (.new .invalidRequest))), ?_⟩
        simp only [job, hread]
      | some request =>
        refine ⟨default, s, .running request (methods.call request.method request.params), ?_⟩
        simp only [job, hread]
    | running request state =>
      cases hreturned : methods.result state with
      | some result =>
        refine ⟨default, s, .done (.fromResult request.id result), ?_⟩
        simp only [job, hreturned]
      | none =>
        obtain ⟨input, s', t', hstep⟩ :=
          hends.progress request.method request.params s state hreturned
        refine ⟨input, s', .running request t', ?_⟩
        simp only [job, hreturned, hstep]
        rfl
    | done response => cases hresult
  decreases := by
    intro i input s t s' t' hstep
    cases t with
    | waiting =>
      simp only [job] at hstep
      split at hstep <;> rename_i hread <;> cases hstep
      · simp only [Task.measure, hread]
        exact Nat.one_pos
      · simp only [Task.measure, hread]
        exact Nat.lt_succ_self _
    | running request state =>
      simp only [job] at hstep
      split at hstep
      · cases hstep
        exact Nat.succ_pos _
      · obtain ⟨⟨s₁, state'⟩, hnext, heq⟩ := Option.map_eq_some_iff.mp hstep
        cases heq
        exact Nat.succ_lt_succ (hends.decreases hnext)
    | done response => cases hstep

/-- What a handler still has to do. -/
def Handler.weight (reader : Reader) (methods : Methods σ τ ν)
    (measure : String → Option RawValue → τ → ℕ) : Handler τ → ℕ
  | .single request state => measure request.method request.params state + 1
  | .batch _ stream _ _ => stream.weight (Task.measure reader methods measure) + 1
  | .answered _ => 0

/-- **Every step comes nearer to the answer.** -/
theorem weight_step [Inhabited ν] {event : Event ν} {s s' : σ} {handler handler' : Handler τ}
    (hends : methods.Ends measure)
    (h : step reader methods resources event s handler = some (s', handler')) :
    handler'.weight reader methods measure < handler.weight reader methods measure := by
  cases handler with
  | single request state =>
    cases event with
    | serve input =>
      simp only [step] at h
      split at h
      · cases h
        exact Nat.succ_pos _
      · obtain ⟨⟨s₁, state'⟩, hnext, heq⟩ := Option.map_eq_some_iff.mp h
        cases heq
        exact Nat.succ_lt_succ (hends.decreases hnext)
    | work i input => cases h
    | next => cases h
  | batch requestLen stream len batchResponse =>
    cases event with
    | serve input => cases h
    | work i input =>
      obtain ⟨⟨s₁, stream'⟩, hwork, heq⟩ := Option.map_eq_some_iff.mp h
      cases heq
      exact Nat.succ_lt_succ (Stream.weight_work (ends_job reader hends) hwork)
    | next =>
      obtain ⟨handler₁, hcollect, heq⟩ := Option.map_eq_some_iff.mp h
      cases heq
      unfold collect at hcollect
      split at hcollect
      · cases hcollect
        exact Nat.succ_pos _
      · obtain ⟨⟨i, response, rest⟩, hnext, heq⟩ := Option.map_eq_some_iff.mp hcollect
        dsimp only at heq
        split at heq <;> subst heq
        · exact Nat.succ_lt_succ (Stream.weight_next hnext)
        · exact Nat.succ_pos _
  | answered answer => cases event <;> cases h

/-- A handler without an answer can go on. -/
theorem exists_step [Inhabited ν] (hends : methods.Ends measure) (s : σ) {handler : Handler τ}
    (hlimit : ∀ n stream len rs, handler = .batch n stream len rs →
      resources.batchConcurrentLimit.toNat ≠ 0) :
    (∃ answer, handler = .answered answer) ∨
      ∃ after, Step reader methods resources (s, handler) after := by
  cases handler with
  | single request state =>
    refine .inr ?_
    cases hreturned : methods.result state with
    | some result =>
      refine ⟨(s, .answered (respond resources (.single (.fromResult request.id result)))),
        .serve default, ?_⟩
      simp only [step, hreturned]
    | none =>
      obtain ⟨input, s', t', hstep⟩ :=
        hends.progress request.method request.params s state hreturned
      refine ⟨(s', .single request t'), .serve input, ?_⟩
      simp only [step, hreturned, hstep]
      rfl
  | batch requestLen stream len batchResponse =>
    refine .inr ?_
    by_cases hqueue : stream.queue = []
    · exact ⟨_, .next, Option.map_eq_some_iff.mpr ⟨_, if_pos hqueue, rfl⟩⟩
    · obtain ⟨i, input, next, hwork⟩ | ⟨next, hnext⟩ := Stream.progress
        (ends_job reader hends) (hlimit _ _ _ _ rfl) hqueue s
      · exact ⟨_, .work i input, Option.map_eq_some_iff.mpr ⟨next, hwork, rfl⟩⟩
      · exact ⟨_, .next, Option.map_eq_some_iff.mpr ⟨_, (if_neg hqueue).trans
          (Option.map_eq_some_iff.mpr ⟨next, hnext, rfl⟩), rfl⟩⟩
  | answered answer => exact .inl ⟨answer, rfl⟩

/-- A step of a handler that is no batch makes none of it. -/
theorem batch_of_step {event : Event ν} {s s' : σ} {handler handler' : Handler τ}
    (h : step reader methods resources event s handler = some (s', handler')) {n : ℕ}
    {stream : Stream (RawValue × ℕ) (Task τ)} {len : ℕ} {rs : List Response}
    (hbatch : handler' = .batch n stream len rs) :
    ∃ stream len rs, handler = .batch n stream len rs := by
  subst hbatch
  cases handler with
  | single request state =>
    cases event with
    | serve input =>
      simp only [step] at h
      split at h
      · cases h
      · obtain ⟨⟨s₁, state'⟩, -, heq⟩ := Option.map_eq_some_iff.mp h
        cases heq
    | work i input => cases h
    | next => cases h
  | batch requestLen stream₀ len₀ rs₀ =>
    cases event with
    | serve input => cases h
    | work i input =>
      obtain ⟨⟨s₁, stream'⟩, -, heq⟩ := Option.map_eq_some_iff.mp h
      cases heq
      exact ⟨_, _, _, rfl⟩
    | next =>
      obtain ⟨handler₁, hcollect, heq⟩ := Option.map_eq_some_iff.mp h
      cases heq
      unfold collect at hcollect
      split at hcollect
      · cases hcollect
      · obtain ⟨⟨i, response, rest⟩, -, heq⟩ := Option.map_eq_some_iff.mp hcollect
        dsimp only at heq
        split at heq <;> cases heq
        exact ⟨_, _, _, rfl⟩
  | answered answer => cases event <;> cases h

/-- The body is a batch of requests that are to be served. -/
def IsBatch (reader : Reader) (resources : Resources) (body : Bytes) : Prop :=
  ∃ requests, RequestWrapper.fromBodyBytes reader body = some (.batch requests) ∧
    requests.length ≠ 0 ∧ requests.length ≤ resources.batchRequestLimit.toNat

theorem start_of_isBatch (methods : Methods σ τ ν) {body : Bytes}
    (h : IsBatch reader resources body) :
    ∃ requests, requests ≠ [] ∧ start reader methods resources body =
      .batch requests.length (.start (job reader methods) requests.zipIdx) 0 [] := by
  obtain ⟨requests, hbody, hne, hlimit⟩ := h
  refine ⟨requests, fun hnil => hne (by rw [hnil]; rfl), ?_⟩
  simp only [start, hbody, if_neg hne, if_neg (not_lt.mpr hlimit)]

theorem isBatch_of_start {body : Bytes} {n : ℕ} {stream : Stream (RawValue × ℕ) (Task τ)}
    {len : ℕ} {rs : List Response}
    (h : start reader methods resources body = .batch n stream len rs) :
    IsBatch reader resources body := by
  have hsound := sound_start reader methods resources body
  rw [h] at hsound
  obtain ⟨requests, hbody, -, hne, hlimit, -⟩ := hsound
  exact ⟨requests, hbody, hne, hlimit⟩

/-- Where no job may be started, the first of them never has a result. -/
theorem step_eq_none_of_zero (reader : Reader) (methods : Methods σ τ ν) {resources : Resources}
    (hzero : resources.batchConcurrentLimit = 0) {requests : List RawValue} (hne : requests ≠ [])
    (event : Event ν) (s : σ) :
    step reader methods resources event s (.batch requests.length
      (.start (job reader methods) requests.zipIdx) 0 []) = none := by
  cases event with
  | serve input => rfl
  | work i input =>
    rw [step, Option.map_eq_none_iff, Option.eq_none_iff_forall_ne_some]
    intro next hwork
    have hmem := (Stream.work_eq_some.mp hwork).1
    rw [hzero] at hmem
    cases hmem
  | next =>
    obtain ⟨raw, rest, rfl⟩ := List.exists_cons_of_ne_nil hne
    rfl

/-- **An answer is bound to come, unless the body is a batch of which no request may be under
way**: then there never is one. -/
theorem inevitably_answered_iff [Inhabited ν] (reader : Reader) (methods : Methods σ τ ν)
    (resources : Resources) (measure : String → Option RawValue → τ → ℕ)
    (hends : methods.Ends measure) (body : Bytes) (s : σ) :
    (Inevitably (Step reader methods resources) (fun x => ∃ answer, x.2 = .answered answer)
        (s, start reader methods resources body) ↔
      (IsBatch reader resources body → resources.batchConcurrentLimit ≠ 0)) ∧
    (IsBatch reader resources body → resources.batchConcurrentLimit = 0 →
      ∀ events s' answer, run reader methods resources (s, start reader methods resources body)
        events ≠ some (s', .answered answer)) := by
  refine ⟨⟨fun h hbatch hzero => ?_, fun hlimit => ?_⟩,
    fun hbatch hzero events s' answer hrun => ?_⟩
  -- No step is possible from the start of the batch.
  · obtain ⟨requests, hne, hstart⟩ := start_of_isBatch methods hbatch
    rw [hstart] at h
    refine not_inevitably (Q := fun x => x.2 = .batch requests.length
      (.start (job reader methods) requests.zipIdx) 0 []) rfl (fun x x' hx hstep => ?_)
      (fun x hx hanswered => ?_) h
    · obtain ⟨event, hevent⟩ := hstep
      rw [hx, step_eq_none_of_zero reader methods hzero hne] at hevent
      cases hevent
    · obtain ⟨answer, hanswer⟩ := hanswered
      rw [hx] at hanswer
      cases hanswer
  · refine Inevitably.of_measure (Q := fun x => ∀ n stream len rs,
      x.2 = .batch n stream len rs → resources.batchConcurrentLimit.toNat ≠ 0)
      (fun x => x.2.weight reader methods measure) (fun x hx => ?_) ?_
    · obtain ⟨s, handler⟩ := x
      refine (exists_step hends s hx).imp_right fun hcan => ⟨hcan, ?_⟩
      rintro ⟨s', handler'⟩ ⟨event, hevent⟩
      refine ⟨fun n stream len rs hbatch => ?_, weight_step hends hevent⟩
      obtain ⟨stream₀, len₀, rs₀, hbefore⟩ := batch_of_step hevent hbatch
      exact hx n stream₀ len₀ rs₀ hbefore
    · intro n stream len rs hbatch hzero
      exact hlimit (isBatch_of_start hbatch) (UInt16.toNat_inj.mp hzero)
  · obtain ⟨requests, hne, hstart⟩ := start_of_isBatch methods hbatch
    rw [hstart] at hrun
    cases events with
    | nil => cases hrun
    | cons event events =>
      rw [run, List.foldlM_cons, step_eq_none_of_zero reader methods hzero hne] at hrun
      cases hrun

theorem inevitably_answered_iff_sample :
    (Inevitably (Step sampleReader sampleMethods sampleResources)
        (fun x => ∃ answer, x.2 = .answered answer)
        ((), start sampleReader sampleMethods sampleResources [91]) ↔
      (IsBatch sampleReader sampleResources [91] → sampleResources.batchConcurrentLimit ≠ 0)) ∧
    (IsBatch sampleReader sampleResources [91] → sampleResources.batchConcurrentLimit = 0 →
      ∀ events s' answer, run sampleReader sampleMethods sampleResources
        ((), start sampleReader sampleMethods sampleResources [91]) events ≠
          some (s', .answered answer)) :=
  inevitably_answered_iff sampleReader sampleMethods sampleResources
    (fun _ _ returned => if returned then 0 else 1)
    { progress := fun _ _ s t h => by
        cases t with
        | false => exact ⟨(), s, true, rfl⟩
        | true => cases h
      decreases := fun {_ _ _ _ _ t _} h => by
        cases t with
        | false =>
          cases h
          exact Nat.one_pos
        | true => cases h } [91] ()

end RpcHandler

end Rpc

end MonadServices
