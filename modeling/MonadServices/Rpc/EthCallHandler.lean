import Mathlib.Data.List.Induction
import Mathlib.Data.List.Perm.Subperm
import Mathlib.Tactic

/-!
# The permits and the statistics of the calls

A request that executes a call acquires a permit first; when there is none, it is refused at once.
The permit is given back when the call is through, or when the request is dropped before that: its
client has gone away, or it has panicked. If statistics are kept, every request is entered among
the active ones, with the time, and taken out again when its permit is dropped, and it is counted;
so are those that fail and those that are refused.

All of this happens in single atomic operations, and those of different requests interleave in any
order. **No permit is lost**: those that are left and those that are held are as many as there have
been at the beginning, so that a request is refused only while as many are in progress
(`MonadServices.Rpc.EthCallHandler.permits_kept`). What the statistics report at any time is
consistent, although they are read by one load after the other
(`MonadServices.Rpc.EthCallHandler.statistics_consistent`), and **once all requests are through,
nothing is left of them but what they have been counted as**
(`MonadServices.Rpc.EthCallHandler.accounts_settled`).
-/

namespace MonadServices

namespace Rpc

namespace EthCallHandler

/-! ### The statistics -/

/-- What of `EthCallHandlerConfig` matters here. -/
structure EthCallHandlerConfig where
  enableStats : Bool
  /-- `pool_low.num_fibers`. -/
  numFibers : ℕ
  maxConcurrentPermits : ℕ

structure CumulativeStats where
  totalRequests : UInt64
  totalErrors : UInt64
  queueRejections : UInt64
  deriving DecidableEq

structure EthCallStatsTracker (RequestId : Type) where
  /-- The active requests, with the time at which they have been entered. -/
  activeRequests : List (RequestId × ℕ)
  stats : CumulativeStats

variable {RequestId : Type}

namespace EthCallStatsTracker

/-- `EthCallStatsTracker::default`. -/
def default : EthCallStatsTracker RequestId := ⟨[], ⟨0, 0, 0⟩⟩

/-- Requests that share an identity share their entry. -/
def insert [DecidableEq RequestId] (tracker : EthCallStatsTracker RequestId) (id : RequestId)
    (now : ℕ) : EthCallStatsTracker RequestId :=
  { tracker with
    activeRequests := (id, now) :: tracker.activeRequests.filter fun entry => entry.1 ≠ id }

def remove [DecidableEq RequestId] (tracker : EthCallStatsTracker RequestId) (id : RequestId) :
    EthCallStatsTracker RequestId :=
  { tracker with activeRequests := tracker.activeRequests.filter fun entry => entry.1 ≠ id }

/-- One more request; `fetch_add` wraps around. -/
def countRequest (tracker : EthCallStatsTracker RequestId) : EthCallStatsTracker RequestId :=
  { tracker with stats := { tracker.stats with totalRequests := tracker.stats.totalRequests + 1 } }

def countError (tracker : EthCallStatsTracker RequestId) : EthCallStatsTracker RequestId :=
  { tracker with stats := { tracker.stats with totalErrors := tracker.stats.totalErrors + 1 } }

def countRejection (tracker : EthCallStatsTracker RequestId) : EthCallStatsTracker RequestId :=
  { tracker with
    stats := { tracker.stats with queueRejections := tracker.stats.queueRejections + 1 } }

end EthCallStatsTracker

/-! ### What is read of them -/

/-- A `Duration` is less than this number of nanoseconds. -/
def durationBound : ℕ := 2 ^ 64 * 10 ^ 9

/-- What `get_stats` has gathered of the entries: how many there are, the greatest age and the sum
of the ages. -/
structure Ages where
  requests : ℕ
  maxAge : ℕ
  totalAge : ℕ

def Ages.add (ages : Ages) (age : ℕ) : Ages :=
  ⟨ages.requests + 1, max ages.maxAge age, ages.totalAge + age⟩

/-- The loop of `get_stats` over some entries. An entry that is younger than the time counts as
new. -/
def Ages.visit (ages : Ages) (now : ℕ) (entries : List (RequestId × ℕ)) : Ages :=
  entries.foldl (fun ages entry => ages.add (now - entry.2)) ages

/-- The entries of one shard of the map. -/
def EthCallStatsTracker.shard {shards : ℕ} (tracker : EthCallStatsTracker RequestId)
    (shardOf : RequestId → Fin shards) (k : ℕ) : List (RequestId × ℕ) :=
  tracker.activeRequests.filter fun entry => (shardOf entry.1).val = k

structure EthCallCapacityStats where
  inactiveExecutors : ℕ
  queuedRequests : ℕ
  oldestRequestAgeMs : ℕ
  averageRequestAgeMs : ℕ
  totalRequests : UInt64
  totalErrors : UInt64
  queueRejections : UInt64
  deriving DecidableEq

/-- `as_millis() as u64`, of a number of nanoseconds. -/
def asMillis (nanos : ℕ) : ℕ := nanos / 10 ^ 6 % 2 ^ 64

/-- **How far `monad_admin_ethCallStatistics` is**: what it is about to read. -/
inductive Reading where
  | permits
  | clock (activeRequests : ℕ)
  /-- In the loop of `get_stats`, with its time, before a shard of the map. -/
  | entries (activeRequests now shard : ℕ) (ages : Ages)
  | totalRequests (activeRequests : ℕ) (oldest average : Option ℕ)
  | totalErrors (activeRequests : ℕ) (oldest average : Option ℕ) (requests : UInt64)
  | queueRejections (activeRequests : ℕ) (oldest average : Option ℕ) (requests errors : UInt64)
  | reported (stats : EthCallCapacityStats)
  | panicked

namespace Reading

/-- The loop is over: the greatest and the average age. It panics when the sum of the ages is no
`Duration`, or when the number of requests is zero as a `u32`. -/
def ofAges (activeRequests : ℕ) (ages : Ages) : Reading :=
  if durationBound ≤ ages.totalAge then .panicked
  else if ages.requests = 0 then .totalRequests activeRequests none none
  else if ages.requests % 2 ^ 32 = 0 then .panicked
  else .totalRequests activeRequests (some ages.maxAge)
    (some (ages.totalAge / (ages.requests % 2 ^ 32)))

/-- The loop goes on with the next shard, if there is one. -/
def visitFrom (shards activeRequests now k : ℕ) (ages : Ages) : Reading :=
  if k < shards then .entries activeRequests now k ages else .ofAges activeRequests ages

/-- **One load.** The entries are read shard by shard, for a shard is locked while they are read,
and every number of the statistics is read by itself. -/
def load {shards : ℕ} (config : EthCallHandlerConfig) (shardOf : RequestId → Fin shards)
    (availablePermits : ℕ) (tracker : EthCallStatsTracker RequestId) (now : ℕ) :
    Reading → Reading
  | .permits =>
    if config.maxConcurrentPermits < availablePermits then .panicked
    else .clock (config.maxConcurrentPermits - availablePermits)
  | .clock activeRequests => visitFrom shards activeRequests now 0 ⟨0, 0, 0⟩
  | .entries activeRequests now k ages =>
    visitFrom shards activeRequests now (k + 1) (ages.visit now (tracker.shard shardOf k))
  | .totalRequests activeRequests oldest average =>
    .totalErrors activeRequests oldest average tracker.stats.totalRequests
  | .totalErrors activeRequests oldest average requests =>
    .queueRejections activeRequests oldest average requests tracker.stats.totalErrors
  | .queueRejections activeRequests oldest average requests errors =>
    .reported
      { inactiveExecutors := config.numFibers - activeRequests
        queuedRequests := activeRequests - config.numFibers
        oldestRequestAgeMs := (oldest.map asMillis).getD 0
        averageRequestAgeMs := (average.map asMillis).getD 0
        totalRequests := requests
        totalErrors := errors
        queueRejections := tracker.stats.queueRejections }
  | .reported stats => .reported stats
  | .panicked => .panicked

end Reading

/-! ### The requests -/

/-- How the execution of a request has ended. -/
inductive Outcome where
  | succeeded
  | failed
  /-- It has been dropped before. -/
  | dropped
  deriving DecidableEq

/-- What a request is about to do, or how it has ended. -/
inductive Stage where
  | acquiring
  /-- In `record_request_start`. -/
  | inserting
  | countingRequest
  | executing
  /-- In the `drop` of the permit. -/
  | removing (outcome : Outcome)
  | countingError
  | releasing (outcome : Outcome)
  | ended (outcome : Outcome)
  /-- In `record_queue_rejection`. -/
  | countingRejection
  | countingRejected
  | countingRejectedError
  | refused
  deriving DecidableEq

structure Request (RequestId : Type) where
  id : RequestId
  stage : Stage

/-- `EthCallHandler`: the semaphore and the statistics, if they are kept. -/
structure Handler (RequestId : Type) where
  availablePermits : ℕ
  statsTracker : Option (EthCallStatsTracker RequestId)

/-- `EthCallHandler::new`. -/
def Handler.new (config : EthCallHandlerConfig) : Handler RequestId :=
  ⟨config.maxConcurrentPermits, if config.enableStats then some .default else none⟩

/-- Something is recorded, if statistics are kept. -/
def Handler.record (handler : Handler RequestId)
    (f : EthCallStatsTracker RequestId → EthCallStatsTracker RequestId) : Handler RequestId :=
  { handler with statsTracker := handler.statsTracker.map f }

/-- **The next operation of a request**: of `acquire`, then of `execute` and of the `drop` of the
permit. The `outcome` is how the execution ends, if that is what happens. -/
def Handler.step [DecidableEq RequestId] (handler : Handler RequestId) (id : RequestId) (now : ℕ)
    (outcome : Outcome) : Stage → Option (Handler RequestId × Stage)
  | .acquiring =>
    if handler.availablePermits = 0 then some (handler, .countingRejection)
    else some ({ handler with availablePermits := handler.availablePermits - 1 }, .inserting)
  | .inserting => some (handler.record (·.insert id now), .countingRequest)
  | .countingRequest => some (handler.record (·.countRequest), .executing)
  | .executing => some (handler, .removing outcome)
  | .removing outcome =>
    some (handler.record (·.remove id),
      if outcome = .failed then .countingError else .releasing outcome)
  | .countingError => some (handler.record (·.countError), .releasing .failed)
  | .releasing outcome =>
    some ({ handler with availablePermits := handler.availablePermits + 1 }, .ended outcome)
  | .countingRejection => some (handler.record (·.countRejection), .countingRejected)
  | .countingRejected => some (handler.record (·.countRequest), .countingRejectedError)
  | .countingRejectedError => some (handler.record (·.countError), .refused)
  | .ended _ | .refused => none

/-! ### The system -/

structure System (RequestId : Type) where
  handler : Handler RequestId
  requests : List (Request RequestId)

inductive Event (RequestId : Type) where
  | arrive (id : RequestId)
  | advance (i : ℕ) (now : ℕ) (outcome : Outcome)

/-- There are no requests yet. -/
def System.new (config : EthCallHandlerConfig) : System RequestId := ⟨.new config, []⟩

/-- **One step**: a request comes, or one of them goes on. -/
def System.step [DecidableEq RequestId] (s : System RequestId) :
    Event RequestId → Option (System RequestId)
  | .arrive id => some { s with requests := s.requests ++ [⟨id, .acquiring⟩] }
  | .advance i now outcome =>
    s.requests[i]?.bind fun request =>
      (s.handler.step request.id now outcome request.stage).map fun next =>
        ⟨next.1, s.requests.set i ⟨request.id, next.2⟩⟩

/-- What some events lead to. -/
def System.run [DecidableEq RequestId] (s : System RequestId) (events : List (Event RequestId)) :
    Option (System RequestId) :=
  events.foldlM System.step s

/-- A state in which something is read, at a time, while statistics are kept. -/
structure Moment (RequestId : Type) where
  system : System RequestId
  tracker : EthCallStatsTracker RequestId
  kept : system.handler.statsTracker = some tracker
  now : ℕ

/-- **States of one run**, with any operations of the requests between them. -/
def Along [DecidableEq RequestId] (config : EthCallHandlerConfig)
    (moments : List (Moment RequestId)) : Prop :=
  List.IsChain (fun s s' : System RequestId => ∃ events, s.run events = some s')
    (System.new config :: moments.map Moment.system)

/-- **`monad_admin_ethCallStatistics`**, after as many loads as there are moments. -/
def monadAdminEthCallStatistics {shards : ℕ} (config : EthCallHandlerConfig)
    (shardOf : RequestId → Fin shards) (moments : List (Moment RequestId)) : Reading :=
  moments.foldl (fun reading m =>
    reading.load config shardOf m.system.handler.availablePermits m.tracker m.now) .permits

/-! ### What a request has done so far -/

namespace Stage

/-- It holds a permit. -/
def holds : Stage → Bool
  | inserting | countingRequest | executing | removing _ | countingError | releasing _ => true
  | _ => false

/-- It has been entered among the active requests and is not taken out yet. -/
def active : Stage → Bool
  | countingRequest | executing | removing _ => true
  | _ => false

/-- It has been counted as a request. -/
def counted : Stage → Bool
  | executing | removing _ | countingError | releasing _ | ended _ => true
  | countingRejectedError | refused => true
  | _ => false

/-- It has been counted as an error. -/
def countedError : Stage → Bool
  | releasing .failed | ended .failed | refused => true
  | _ => false

/-- It has been counted as a rejection. -/
def countedRejection : Stage → Bool
  | countingRejected | countingRejectedError | refused => true
  | _ => false

/-- It is through. -/
def settled : Stage → Bool
  | ended _ | refused => true
  | _ => false

theorem holds_of_active {stage : Stage} (h : stage.active = true) : stage.holds = true := by
  cases stage with
  | countingRequest | executing | removing _ => rfl
  | _ => cases h

/-- Whoever has been counted as an error has been counted as a request before. -/
theorem counted_of_countedError {stage : Stage} (h : stage.countedError = true) :
    stage.counted = true := by
  cases stage with
  | releasing _ | ended _ | refused => rfl
  | _ => cases h

theorem eq_of_settled {stage : Stage} (h : stage.settled = true) :
    (∃ outcome, stage = .ended outcome) ∨ stage = .refused := by
  cases stage with
  | ended outcome => exact .inl ⟨outcome, rfl⟩
  | refused => exact .inr rfl
  | _ => cases h

end Stage

/-- How many requests are where something holds. -/
def System.count (s : System RequestId) (p : Stage → Bool) : ℕ :=
  s.requests.countP fun request => p request.stage

/-! ### One operation -/

section Count

variable {α : Type} {p : α → Bool} {l : List α} {i : ℕ} {a b : α}

theorem countP_set_eq (hget : l[i]? = some a) (h : p b = p a) :
    (l.set i b).countP p = l.countP p := by
  obtain ⟨hlt, rfl⟩ := List.getElem?_eq_some_iff.mp hget
  rw [List.countP_set hlt, h]
  split
  · rename_i hp
    have hpos : 0 < l.countP p := List.countP_pos_iff.mpr ⟨l[i], List.getElem_mem hlt, hp⟩
    omega
  · rfl

theorem countP_set_succ (hget : l[i]? = some a) (ha : p a = false) (hb : p b = true) :
    (l.set i b).countP p = l.countP p + 1 := by
  obtain ⟨hlt, rfl⟩ := List.getElem?_eq_some_iff.mp hget
  rw [List.countP_set hlt, if_neg (by rw [ha]; decide), if_pos hb]
  rfl

theorem countP_set_pred (hget : l[i]? = some a) (ha : p a = true) (hb : p b = false) :
    (l.set i b).countP p + 1 = l.countP p := by
  obtain ⟨hlt, rfl⟩ := List.getElem?_eq_some_iff.mp hget
  have hpos : 0 < l.countP p := List.countP_pos_iff.mpr ⟨l[i], List.getElem_mem hlt, ha⟩
  rw [List.countP_set hlt, if_pos ha, if_neg (by rw [hb]; decide)]
  omega

end Count

/-- A number of the statistics goes along with what is counted by it. -/
inductive Counts (get : CumulativeStats → UInt64) (p : Stage → Bool) (stage stage' : Stage)
    (f : EthCallStatsTracker RequestId → EthCallStatsTracker RequestId) : Prop
  | same (hp : p stage' = p stage) (hget : ∀ tracker, get (f tracker).stats = get tracker.stats)
  | more (hp : p stage = false) (hp' : p stage' = true)
      (hget : ∀ tracker, get (f tracker).stats = get tracker.stats + 1)

/-- The active requests go along with those that are entered. -/
inductive Enters [DecidableEq RequestId] (id : RequestId) (stage stage' : Stage)
    (f : EthCallStatsTracker RequestId → EthCallStatsTracker RequestId) : Prop
  | same (hactive : stage'.active = stage.active)
      (hf : ∀ tracker, (f tracker).activeRequests = tracker.activeRequests)
  | insert (hactive : stage.active = false) (hactive' : stage'.active = true) (now : ℕ)
      (hf : ∀ tracker, f tracker = tracker.insert id now)
  | remove (hactive : stage.active = true) (hactive' : stage'.active = false)
      (hf : ∀ tracker, f tracker = tracker.remove id)

/-- The permits go along with those that are held. -/
inductive Holds (permits permits' : ℕ) (stage stage' : Stage) : Prop
  | same (hholds : stage'.holds = stage.holds) (hpermits : permits' = permits)
  | acquire (hholds : stage.holds = false) (hholds' : stage'.holds = true)
      (hpermits : permits = permits' + 1)
  | release (hholds : stage.holds = true) (hholds' : stage'.holds = false)
      (hpermits : permits' = permits + 1)

/-- **What an operation does**, for the request and for what is shared. -/
structure Effect [DecidableEq RequestId] (id : RequestId) (handler handler' : Handler RequestId)
    (stage stage' : Stage) (f : EthCallStatsTracker RequestId → EthCallStatsTracker RequestId) :
    Prop where
  permits : Holds handler.availablePermits handler'.availablePermits stage stage'
  tracker : handler'.statsTracker = handler.statsTracker.map f
  entries : Enters id stage stage' f
  requests : Counts CumulativeStats.totalRequests Stage.counted stage stage' f
  errors : Counts CumulativeStats.totalErrors Stage.countedError stage stage' f
  rejections : Counts CumulativeStats.queueRejections Stage.countedRejection stage stage' f

section Effects

variable {requests : List (Request RequestId)} {tracker : EthCallStatsTracker RequestId}
  {f : EthCallStatsTracker RequestId → EthCallStatsTracker RequestId} {id : RequestId}
  {stage stage' : Stage}

/-! ### What all requests have done -/

theorem countP_concat_acquiring {p : Stage → Bool} (hp : p .acquiring = false) :
    (requests ++ [(⟨id, .acquiring⟩ : Request RequestId)]).countP (fun request => p request.stage) =
      requests.countP fun request => p request.stage := by
  rw [List.countP_append, List.countP_cons, List.countP_nil, if_neg (by rw [hp]; decide)]
  rfl

/-- **A number goes on to be what has been counted by it.** -/
theorem Counts.countP {get : CumulativeStats → UInt64} {p : Stage → Bool} {i : ℕ}
    (h : Counts get p stage stage' f) (hget : requests[i]? = some ⟨id, stage⟩)
    (hbefore : get tracker.stats = .ofNat (requests.countP fun request => p request.stage)) :
    get (f tracker).stats =
      .ofNat ((requests.set i ⟨id, stage'⟩).countP fun request => p request.stage) := by
  cases h with
  | same hp hsame => rw [hsame, hbefore, countP_set_eq hget hp]
  | more hp hp' hmore =>
    rw [hmore, hbefore, countP_set_succ hget hp hp', UInt64.ofNat_add]
    rfl

/-- **The permits that are left and those that are held go on to be the whole.** -/
theorem Holds.countP {permits permits' whole i : ℕ} (h : Holds permits permits' stage stage')
    (hget : requests[i]? = some ⟨id, stage⟩)
    (hbefore : permits + requests.countP (fun request => request.stage.holds) = whole) :
    permits' + (requests.set i ⟨id, stage'⟩).countP (fun request => request.stage.holds) =
      whole := by
  cases h with
  | same hholds hpermits => rw [hpermits, countP_set_eq hget hholds, hbefore]
  | acquire hholds hholds' hpermits =>
    rw [countP_set_succ hget hholds hholds', ← hbefore, hpermits]
    omega
  | release hholds hholds' hpermits =>
    have hpred := countP_set_pred (p := fun request : Request RequestId => request.stage.holds)
      (b := ⟨id, stage'⟩) hget hholds hholds'
    rw [hpermits, ← hbefore, ← hpred]
    omega

/-! ### The active requests -/

/-- Those who have an entry. -/
def EthCallStatsTracker.ids (tracker : EthCallStatsTracker RequestId) : List RequestId :=
  tracker.activeRequests.map Prod.fst

/-- What is entered among the active requests, and who has entered it. -/
structure Entered (requests : List (Request RequestId))
    (tracker : EthCallStatsTracker RequestId) : Prop where
  nodup : tracker.ids.Nodup
  /-- Every entry is that of a request that will take it out. -/
  owned : ∀ id ∈ tracker.ids, ∃ request ∈ requests, request.id = id ∧ request.stage.active = true
  /-- Requests that do not share their identity are all there. -/
  entered : (requests.map Request.id).Nodup →
    ∀ request ∈ requests, request.stage.active = true → request.id ∈ tracker.ids

theorem mem_set_of_mem {α : Type} {l : List α} {i : ℕ} {a b c : α} (hget : l[i]? = some a)
    (hb : b ∈ l) : b = a ∨ b ∈ l.set i c := by
  obtain ⟨j, hj⟩ := List.mem_iff_getElem?.mp hb
  by_cases hij : i = j
  · subst hij
    exact .inl (Option.some.inj (hj.symm.trans hget))
  · exact .inr (List.mem_of_getElem? ((List.getElem?_set_ne hij).trans hj))

theorem map_id_tracker (tracker : Option (EthCallStatsTracker RequestId)) :
    tracker = tracker.map fun tracker => tracker :=
  Option.map_id'.symm

variable [DecidableEq RequestId] {now : ℕ}

theorem EthCallStatsTracker.ids_remove :
    (tracker.remove id).ids = tracker.ids.filter fun other => other ≠ id := by
  rw [ids, ids, List.filter_map]
  rfl

theorem EthCallStatsTracker.ids_insert :
    (tracker.insert id now).ids = id :: tracker.ids.filter fun other => other ≠ id := by
  rw [← ids_remove]
  rfl

/-- **The entries go on to be those of the active requests.** -/
theorem Enters.entered {i : ℕ} (h : Enters id stage stage' f)
    (hget : requests[i]? = some ⟨id, stage⟩) (hbefore : Entered requests tracker) :
    Entered (requests.set i ⟨id, stage'⟩) (f tracker) := by
  have hlt : i < requests.length := (List.getElem?_eq_some_iff.mp hget).1
  have hold : ⟨id, stage⟩ ∈ requests := List.mem_of_getElem? hget
  have hnew : ⟨id, stage'⟩ ∈ requests.set i ⟨id, stage'⟩ := List.mem_set hlt _
  have hids : (requests.set i ⟨id, stage'⟩).map Request.id = requests.map Request.id := by
    have hid : (requests.map Request.id)[i]? = some id := by
      rw [List.getElem?_map, hget]
      rfl
    obtain ⟨hlt', hi'⟩ := List.getElem?_eq_some_iff.mp hid
    calc (requests.set i ⟨id, stage'⟩).map Request.id
      _ = (requests.map Request.id).set i (requests.map Request.id)[i] := by
        rw [List.map_set, hi']
      _ = requests.map Request.id := List.set_getElem_self hlt'
  cases h with
  | same hactive hf =>
    have hsame : (f tracker).ids = tracker.ids := congrArg (List.map Prod.fst) (hf tracker)
    refine ⟨hsame ▸ hbefore.nodup, fun key hkey => ?_, fun hnodup request hrequest hon => ?_⟩
    · obtain ⟨request, hrequest, hid, hon⟩ := hbefore.owned key (hsame ▸ hkey)
      cases mem_set_of_mem hget hrequest with
      | inl heq =>
        subst heq
        exact ⟨_, hnew, hid, hactive.trans hon⟩
      | inr hmem => exact ⟨request, hmem, hid, hon⟩
    · rw [hsame]
      rw [hids] at hnodup
      cases List.mem_or_eq_of_mem_set hrequest with
      | inl hmem => exact hbefore.entered hnodup request hmem hon
      | inr heq =>
        subst heq
        exact hbefore.entered hnodup ⟨id, stage⟩ hold (hactive.symm.trans hon)
  | insert hactive hactive' now hf =>
    rw [hf]
    refine ⟨?_, fun key hkey => ?_, fun hnodup request hrequest hon => ?_⟩
    · rw [EthCallStatsTracker.ids_insert, List.nodup_cons]
      refine ⟨fun hmem => ?_, hbefore.nodup.filter _⟩
      exact of_decide_eq_true (List.mem_filter.mp hmem).2 rfl
    · rw [EthCallStatsTracker.ids_insert, List.mem_cons] at hkey
      cases hkey with
      | inl heq => exact ⟨_, hnew, heq.symm, hactive'⟩
      | inr hmem =>
        obtain ⟨request, hrequest, hid, hon⟩ := hbefore.owned key (List.mem_filter.mp hmem).1
        refine ⟨request, (mem_set_of_mem hget hrequest).resolve_left ?_, hid, hon⟩
        rintro rfl
        rw [hactive] at hon
        cases hon
    · rw [EthCallStatsTracker.ids_insert, List.mem_cons, List.mem_filter]
      by_cases hid : request.id = id
      · exact .inl hid
      · rw [hids] at hnodup
        cases List.mem_or_eq_of_mem_set hrequest with
        | inl hmem => exact .inr ⟨hbefore.entered hnodup request hmem hon, decide_eq_true hid⟩
        | inr heq =>
          subst heq
          exact absurd rfl hid
  | remove hactive hactive' hf =>
    rw [hf]
    refine ⟨?_, fun key hkey => ?_, fun hnodup request hrequest hon => ?_⟩
    · rw [EthCallStatsTracker.ids_remove]
      exact hbefore.nodup.filter _
    · rw [EthCallStatsTracker.ids_remove, List.mem_filter] at hkey
      obtain ⟨request, hrequest, hid, hon⟩ := hbefore.owned key hkey.1
      refine ⟨request, (mem_set_of_mem hget hrequest).resolve_left ?_, hid, hon⟩
      rintro rfl
      exact of_decide_eq_true hkey.2 hid.symm
    · rw [EthCallStatsTracker.ids_remove, List.mem_filter]
      have hne : request ≠ ⟨id, stage'⟩ := by
        rintro rfl
        rw [hactive'] at hon
        cases hon
      refine ⟨?_, decide_eq_true fun hid => hne ?_⟩
      · rw [hids] at hnodup
        exact hbefore.entered hnodup request
          ((List.mem_or_eq_of_mem_set hrequest).resolve_right hne) hon
      · exact List.inj_on_of_nodup_map hnodup hrequest hnew hid

/-! ### The next operation -/

variable {handler handler' : Handler RequestId} {outcome : Outcome}

/-- **What the next operation of a request does.** -/
theorem Handler.step_effect (h : handler.step id now outcome stage = some (handler', stage')) :
    ∃ f, Effect id handler handler' stage stage' f := by
  have same {get : CumulativeStats → UInt64} {p : Stage → Bool} {stage stage' : Stage}
      (hp : p stage' = p stage) : @Counts RequestId get p stage stage' fun tracker => tracker :=
    .same hp fun _ => rfl
  cases stage with
  | acquiring =>
    rw [Handler.step] at h
    split at h
    · cases h
      exact ⟨fun tracker => tracker, .same rfl rfl, map_id_tracker _, .same rfl fun _ => rfl,
        same rfl, same rfl, same rfl⟩
    · rename_i hpermits
      cases h
      have hleft : handler.availablePermits = handler.availablePermits - 1 + 1 := by omega
      exact ⟨fun tracker => tracker, .acquire rfl rfl hleft, map_id_tracker _,
        .same rfl fun _ => rfl, same rfl, same rfl, same rfl⟩
  | inserting =>
    cases h
    exact ⟨_, .same rfl rfl, rfl, .insert rfl rfl now fun _ => rfl, .same rfl fun _ => rfl,
      .same rfl fun _ => rfl, .same rfl fun _ => rfl⟩
  | countingRequest =>
    cases h
    exact ⟨_, .same rfl rfl, rfl, .same rfl fun _ => rfl, .more rfl rfl fun _ => rfl,
      .same rfl fun _ => rfl, .same rfl fun _ => rfl⟩
  | executing =>
    cases h
    exact ⟨fun tracker => tracker, .same rfl rfl, map_id_tracker _, .same rfl fun _ => rfl,
      same rfl, same rfl, same rfl⟩
  | removing ended =>
    cases h
    refine ⟨_, .same ?_ rfl, rfl, .remove rfl ?_ fun _ => rfl, .same ?_ fun _ => rfl,
      .same ?_ fun _ => rfl, .same ?_ fun _ => rfl⟩
    -- What comes next depends on how the execution has ended.
    all_goals cases ended <;> rfl
  | countingError =>
    cases h
    exact ⟨_, .same rfl rfl, rfl, .same rfl fun _ => rfl, .same rfl fun _ => rfl,
      .more rfl rfl fun _ => rfl, .same rfl fun _ => rfl⟩
  | releasing ended =>
    cases h
    refine ⟨fun tracker => tracker, .release rfl rfl rfl, map_id_tracker _, .same rfl fun _ => rfl,
      same rfl, same ?_, same rfl⟩
    cases ended <;> rfl
  | countingRejection =>
    cases h
    exact ⟨_, .same rfl rfl, rfl, .same rfl fun _ => rfl, .same rfl fun _ => rfl,
      .same rfl fun _ => rfl, .more rfl rfl fun _ => rfl⟩
  | countingRejected =>
    cases h
    exact ⟨_, .same rfl rfl, rfl, .same rfl fun _ => rfl, .more rfl rfl fun _ => rfl,
      .same rfl fun _ => rfl, .same rfl fun _ => rfl⟩
  | countingRejectedError =>
    cases h
    exact ⟨_, .same rfl rfl, rfl, .same rfl fun _ => rfl, .same rfl fun _ => rfl,
      .more rfl rfl fun _ => rfl, .same rfl fun _ => rfl⟩
  | ended _ => cases h
  | refused => cases h

/-- A request is refused only when there is no permit. -/
theorem Handler.step_refuses (h : handler.step id now outcome stage = some (handler', stage'))
    (hstage' : stage' = .countingRejection) : handler.availablePermits = 0 := by
  cases stage with
  | acquiring =>
    rw [Handler.step] at h
    split at h
    · assumption
    · cases h
      cases hstage'
  | removing ended =>
    cases h
    cases ended <;> cases hstage'
  | ended _ => cases h
  | refused => cases h
  | _ =>
    cases h
    cases hstage'

end Effects

/-! ### Every run -/

section Runs

variable {config : EthCallHandlerConfig} {s s' : System RequestId}
  {tracker : EthCallStatsTracker RequestId}

/-- **What holds in every state**: what is shared goes along with what the requests have done. -/
structure Inv (config : EthCallHandlerConfig) (s : System RequestId) : Prop where
  permits : s.handler.availablePermits + s.count Stage.holds = config.maxConcurrentPermits
  entered : ∀ tracker, s.handler.statsTracker = some tracker → Entered s.requests tracker
  requests : ∀ tracker, s.handler.statsTracker = some tracker →
    tracker.stats.totalRequests = .ofNat (s.count Stage.counted)
  errors : ∀ tracker, s.handler.statsTracker = some tracker →
    tracker.stats.totalErrors = .ofNat (s.count Stage.countedError)
  rejections : ∀ tracker, s.handler.statsTracker = some tracker →
    tracker.stats.queueRejections = .ofNat (s.count Stage.countedRejection)

theorem inv_new (config : EthCallHandlerConfig) :
    Inv config (System.new config : System RequestId) := by
  have hdefault : ∀ tracker : EthCallStatsTracker RequestId,
      (Handler.new config).statsTracker = some tracker → tracker = .default := by
    intro tracker htracker
    rw [Handler.new] at htracker
    split at htracker
    · exact (Option.some.inj htracker).symm
    · cases htracker
  refine ⟨Nat.add_zero _, fun tracker htracker => ?_, fun tracker htracker => ?_,
    fun tracker htracker => ?_, fun tracker htracker => ?_⟩
  all_goals rw [hdefault tracker htracker]
  · exact ⟨List.nodup_nil, fun _ hid => (by cases hid), fun _ _ hrequest => (by cases hrequest)⟩
  all_goals rfl

/-- A request that has come has done nothing yet. -/
theorem Entered.concat {requests : List (Request RequestId)} (h : Entered requests tracker)
    (id : RequestId) : Entered (requests ++ [⟨id, .acquiring⟩]) tracker := by
  refine ⟨h.nodup, fun key hkey => ?_, fun hnodup request hrequest hon => ?_⟩
  · obtain ⟨request, hrequest, hid, hon⟩ := h.owned key hkey
    exact ⟨request, List.mem_append_left _ hrequest, hid, hon⟩
  · rw [List.map_append] at hnodup
    cases List.mem_append.mp hrequest with
    | inl hmem => exact h.entered hnodup.of_append_left request hmem hon
    | inr hmem =>
      rw [List.mem_singleton.mp hmem] at hon
      cases hon

/-! ### The statistics that are reported -/

/-- How many entries have been visited at most, and how old they are. -/
structure Ages.Within (ages : Ages) (now bound : ℕ) : Prop where
  requests : ages.requests ≤ bound
  maxAge : ages.maxAge ≤ now
  totalAge : ages.totalAge ≤ ages.requests * ages.maxAge

theorem Ages.Within.add {ages : Ages} {now bound age : ℕ} (h : ages.Within now bound)
    (hage : age ≤ now) : (ages.add age).Within now (bound + 1) where
  requests := Nat.add_le_add_right h.requests 1
  maxAge := max_le h.maxAge hage
  totalAge :=
    calc ages.totalAge + age
      _ ≤ ages.requests * ages.maxAge + age := Nat.add_le_add_right h.totalAge _
      _ ≤ ages.requests * max ages.maxAge age + max ages.maxAge age :=
        Nat.add_le_add (Nat.mul_le_mul_left _ (le_max_left _ _)) (le_max_right _ _)
      _ = (ages.requests + 1) * max ages.maxAge age := (Nat.succ_mul _ _).symm

/-- **The loop over some entries.** -/
theorem Ages.Within.visit {ages : Ages} {now bound : ℕ} (h : ages.Within now bound)
    (entries : List (RequestId × ℕ)) :
    (ages.visit now entries).Within now (bound + entries.length) := by
  induction entries generalizing ages bound with
  | nil => exact h
  | cons entry entries ih =>
    have hrest := ih (h.add (Nat.sub_le now entry.2))
    rw [Nat.add_assoc, Nat.add_comm 1] at hrest
    exact hrest

theorem asMillis_le_asMillis {nanos nanos' : ℕ} (h : nanos ≤ nanos') (hbound : nanos' < 2 ^ 64) :
    asMillis nanos ≤ asMillis nanos' := by
  have hmillis : nanos / 10 ^ 6 ≤ nanos' / 10 ^ 6 := Nat.div_le_div_right h
  have hlt : nanos' / 10 ^ 6 < 2 ^ 64 := (Nat.div_le_self _ _).trans_lt hbound
  rw [asMillis, asMillis, Nat.mod_eq_of_lt hlt, Nat.mod_eq_of_lt (hmillis.trans_lt hlt)]
  exact hmillis

/-- **The loop does not panic**, and the average age is no more than the greatest one. -/
theorem Reading.ofAges_eq {ages : Ages} {now bound : ℕ} (h : ages.Within now bound)
    (hbound : bound < 2 ^ 32) (hnow : now < 2 ^ 61) (activeRequests : ℕ) :
    ∃ oldest average, Reading.ofAges activeRequests ages =
        .totalRequests activeRequests oldest average ∧
      (average.map asMillis).getD 0 ≤ (oldest.map asMillis).getD 0 := by
  have hrequests : ages.requests < 2 ^ 32 := h.requests.trans_lt hbound
  have hmax := h.maxAge
  have htotal : ages.totalAge < durationBound :=
    calc ages.totalAge
      _ ≤ ages.requests * ages.maxAge := h.totalAge
      _ ≤ 2 ^ 32 * 2 ^ 61 := Nat.mul_le_mul hrequests.le (hmax.trans hnow.le)
      _ < durationBound := by decide
  rw [Reading.ofAges, if_neg htotal.not_ge]
  split
  · exact ⟨none, none, rfl, Nat.le_refl _⟩
  · rename_i hne
    rw [Nat.mod_eq_of_lt hrequests, if_neg hne]
    refine ⟨some ages.maxAge, some (ages.totalAge / ages.requests), rfl,
      asMillis_le_asMillis ?_ ?_⟩
    · exact Nat.div_le_of_le_mul h.totalAge
    · omega

/-- What some stages hold is no more than what more of them hold. -/
theorem System.count_le_count {p q : Stage → Bool} (h : ∀ stage, p stage = true → q stage = true) :
    s.count p ≤ s.count q :=
  List.countP_mono_left fun request _ => h request.stage

/-- There are no more entries than requests that are active. -/
theorem Entered.length_le (h : Entered s.requests tracker) :
    tracker.activeRequests.length ≤ s.count Stage.active := by
  have hsubset : tracker.ids ⊆
      (s.requests.filter fun request => request.stage.active).map Request.id := by
    intro id hid
    obtain ⟨request, hrequest, rfl, hon⟩ := h.owned id hid
    exact List.mem_map_of_mem (List.mem_filter.mpr ⟨hrequest, hon⟩)
  have hlength := (h.nodup.subperm hsubset).length_le
  rwa [EthCallStatsTracker.ids, List.length_map, List.length_map,
    ← List.countP_eq_length_filter] at hlength

/-- Requests that do not share their identity have an entry each while they are active. -/
theorem Entered.length_eq (h : Entered s.requests tracker)
    (hdistinct : (s.requests.map Request.id).Nodup) :
    tracker.activeRequests.length = s.count Stage.active := by
  refine Nat.le_antisymm h.length_le ?_
  have hsubset : (s.requests.filter fun request => request.stage.active).map Request.id ⊆
      tracker.ids := by
    intro id hid
    obtain ⟨request, hrequest, rfl⟩ := List.mem_map.mp hid
    have hmem := List.mem_filter.mp hrequest
    exact h.entered hdistinct request hmem.1 hmem.2
  have hsublist : (s.requests.filter fun request => request.stage.active).Sublist s.requests :=
    List.filter_sublist
  have hnodup := hdistinct.sublist (hsublist.map Request.id)
  have hlength := (hnodup.subperm hsubset).length_le
  rwa [EthCallStatsTracker.ids, List.length_map, List.length_map,
    ← List.countP_eq_length_filter] at hlength

/-! ### Reading the statistics -/

/-- **What is reported is consistent**, if the permits have been read in the state `s₀`, and the
numbers in `s₁`, `s₂` and `s₃`. -/
structure Consistent (config : EthCallHandlerConfig) (s₀ s₁ s₂ s₃ : System RequestId)
    (stats : EthCallCapacityStats) : Prop where
  /-- The executors that are inactive and the requests that are queued make up the difference
  between the executors and the requests that hold a permit. -/
  executors : stats.inactiveExecutors + s₀.count Stage.holds =
    config.numFibers + stats.queuedRequests
  exclusive : stats.inactiveExecutors = 0 ∨ stats.queuedRequests = 0
  ages : stats.averageRequestAgeMs ≤ stats.oldestRequestAgeMs
  requests : stats.totalRequests = .ofNat (s₁.count Stage.counted)
  errors : stats.totalErrors = .ofNat (s₂.count Stage.countedError)
  rejections : stats.queueRejections = .ofNat (s₃.count Stage.countedRejection)

/-- What has been read so far. -/
inductive Sound (config : EthCallHandlerConfig) (shards : ℕ) :
    List (Moment RequestId) → Reading → Prop
  | permits : Sound config shards [] .permits
  | clock (m₀ : Moment RequestId) :
    Sound config shards [m₀] (.clock (m₀.system.count Stage.holds))
  | entries (m₀ : Moment RequestId) {visits : List (Moment RequestId)} {now k : ℕ} {ages : Ages}
    (hlength : visits.length = k + 1) (hk : k < shards) (hnow : now < 2 ^ 61)
    (hages : ages.Within now (k * config.maxConcurrentPermits)) :
    Sound config shards (m₀ :: visits) (.entries (m₀.system.count Stage.holds) now k ages)
  | totalRequests (m₀ : Moment RequestId) {visits : List (Moment RequestId)}
    {oldest average : Option ℕ} (hlength : visits.length = shards + 1)
    (hages : (average.map asMillis).getD 0 ≤ (oldest.map asMillis).getD 0) :
    Sound config shards (m₀ :: visits)
      (.totalRequests (m₀.system.count Stage.holds) oldest average)
  | totalErrors (m₀ m₁ : Moment RequestId) {visits : List (Moment RequestId)}
    {oldest average : Option ℕ} (hlength : visits.length = shards + 1)
    (hages : (average.map asMillis).getD 0 ≤ (oldest.map asMillis).getD 0) :
    Sound config shards (m₀ :: visits ++ [m₁])
      (.totalErrors (m₀.system.count Stage.holds) oldest average
        (.ofNat (m₁.system.count Stage.counted)))
  | queueRejections (m₀ m₁ m₂ : Moment RequestId) {visits : List (Moment RequestId)}
    {oldest average : Option ℕ} (hlength : visits.length = shards + 1)
    (hages : (average.map asMillis).getD 0 ≤ (oldest.map asMillis).getD 0) :
    Sound config shards (m₀ :: visits ++ [m₁, m₂])
      (.queueRejections (m₀.system.count Stage.holds) oldest average
        (.ofNat (m₁.system.count Stage.counted)) (.ofNat (m₂.system.count Stage.countedError)))
  | reported (m₀ m₁ m₂ m₃ : Moment RequestId) {visits : List (Moment RequestId)}
    (more : List (Moment RequestId)) {stats : EthCallCapacityStats}
    (hlength : visits.length = shards + 1)
    (hstats : Consistent config m₀.system m₁.system m₂.system m₃.system stats) :
    Sound config shards (m₀ :: visits ++ [m₁, m₂, m₃] ++ more) (.reported stats)

variable {shards : ℕ} {shardOf : RequestId → Fin shards} {moments : List (Moment RequestId)}
  {reading : Reading} {m m₀ : Moment RequestId}

/-- The loop goes on. -/
theorem Sound.visitFrom (hpermits : shards * config.maxConcurrentPermits < 2 ^ 32)
    {visits : List (Moment RequestId)} {now k : ℕ} {ages : Ages} (hlength : visits.length = k + 1)
    (hk : k ≤ shards) (hnow : now < 2 ^ 61)
    (hages : ages.Within now (k * config.maxConcurrentPermits)) :
    Sound config shards (m₀ :: visits)
      (.visitFrom shards (m₀.system.count Stage.holds) now k ages) := by
  unfold Reading.visitFrom
  split
  · rename_i hlt
    exact .entries m₀ hlength hlt hnow hages
  · obtain rfl : k = shards := by omega
    obtain ⟨oldest, average, heq, hle⟩ :=
      Reading.ofAges_eq hages hpermits hnow (m₀.system.count Stage.holds)
    rw [heq]
    exact .totalRequests m₀ hlength hle

/-- No shard has more entries than there are permits. -/
theorem Inv.length_shard_le (h : Inv config m.system) (k : ℕ) :
    (m.tracker.shard shardOf k).length ≤ config.maxConcurrentPermits :=
  calc (m.tracker.shard shardOf k).length
    _ ≤ m.tracker.activeRequests.length := List.length_filter_le _ _
    _ ≤ m.system.count Stage.active := (h.entered m.tracker m.kept).length_le
    _ ≤ m.system.count Stage.holds := m.system.count_le_count fun _ => Stage.holds_of_active
    _ ≤ config.maxConcurrentPermits := h.permits ▸ Nat.le_add_left _ _

/-- **One load**, in a state of the run. -/
theorem Sound.load (h : Sound config shards moments reading)
    (hpermits : shards * config.maxConcurrentPermits < 2 ^ 32) (hinv : Inv config m.system)
    (hnow : m.now < 2 ^ 61) :
    Sound config shards (moments ++ [m])
      (reading.load config shardOf m.system.handler.availablePermits m.tracker m.now) := by
  have hheld := hinv.permits
  cases h with
  | permits =>
    have hactive : config.maxConcurrentPermits - m.system.handler.availablePermits =
        m.system.count Stage.holds := by omega
    -- No more permits are available than there are, so that the subtraction does not underflow.
    rw [Reading.load, if_neg (by omega), hactive]
    exact .clock m
  | clock m₀ =>
    refine .visitFrom hpermits rfl (Nat.zero_le _) hnow
      ⟨Nat.zero_le _, Nat.zero_le _, Nat.zero_le _⟩
  | @entries m₀ visits now k ages hlength hk hnow hages =>
    have hvisit := hages.visit (m.tracker.shard shardOf k)
    have hlength' : (visits ++ [m]).length = k + 1 + 1 := by
      rw [List.length_append, hlength]
      rfl
    refine .visitFrom hpermits hlength' hk hnow
      ⟨hvisit.requests.trans ?_, hvisit.maxAge, hvisit.totalAge⟩
    -- A shard has no more entries than there are permits.
    rw [Nat.succ_mul]
    exact Nat.add_le_add_left (hinv.length_shard_le k) _
  | totalRequests m₀ hlength hages =>
    rw [Reading.load, hinv.requests m.tracker m.kept]
    exact .totalErrors m₀ m hlength hages
  | totalErrors m₀ m₁ hlength hages =>
    rw [Reading.load, hinv.errors m.tracker m.kept, List.append_assoc]
    exact .queueRejections m₀ m₁ m hlength hages
  | queueRejections m₀ m₁ m₂ hlength hages =>
    rw [List.append_assoc, ← List.append_nil (_ ++ _)]
    refine .reported m₀ m₁ m₂ m [] hlength
      ⟨?_, ?_, hages, rfl, rfl, hinv.rejections m.tracker m.kept⟩
    · dsimp only
      omega
    · dsimp only
      omega
  | reported m₀ m₁ m₂ m₃ more hlength hstats =>
    rw [List.append_assoc]
    exact .reported m₀ m₁ m₂ m₃ (more ++ [m]) hlength hstats

/-- **All loads.** -/
theorem sound_monadAdminEthCallStatistics
    (hpermits : shards * config.maxConcurrentPermits < 2 ^ 32)
    (hinv : ∀ m ∈ moments, Inv config m.system) (hnow : ∀ m ∈ moments, m.now < 2 ^ 61) :
    Sound config shards moments (monadAdminEthCallStatistics config shardOf moments) := by
  induction moments using List.reverseRecOn with
  | nil => exact .permits
  | append_singleton moments m ih =>
    rw [monadAdminEthCallStatistics, List.foldl_append]
    have hmem : m ∈ moments ++ [m] := List.mem_append_right _ List.mem_cons_self
    exact (ih (fun m hm => hinv m (List.mem_append_left _ hm))
      fun m hm => hnow m (List.mem_append_left _ hm)).load hpermits (hinv m hmem) (hnow m hmem)

/-! ### The steps of the system -/

variable [DecidableEq RequestId]

/-- An operation of a request, in the system. -/
theorem System.step_advance {i now : ℕ} {outcome : Outcome}
    (h : s.step (.advance i now outcome) = some s') :
    ∃ id stage handler' stage', s.requests[i]? = some ⟨id, stage⟩ ∧
      s.handler.step id now outcome stage = some (handler', stage') ∧
      s' = ⟨handler', s.requests.set i ⟨id, stage'⟩⟩ := by
  obtain ⟨⟨id, stage⟩, hget, hnext⟩ := Option.bind_eq_some_iff.mp h
  obtain ⟨⟨handler', stage'⟩, hhandler, rfl⟩ := Option.map_eq_some_iff.mp hnext
  exact ⟨id, stage, handler', stage', hget, hhandler, rfl⟩

/-- **One step.** -/
theorem Inv.step (h : Inv config s) {event : Event RequestId} (hstep : s.step event = some s') :
    Inv config s' := by
  cases event with
  | arrive id =>
    cases hstep
    refine ⟨?_, fun tracker htracker => (h.entered tracker htracker).concat id,
      fun tracker htracker => ?_, fun tracker htracker => ?_, fun tracker htracker => ?_⟩
    all_goals rw [System.count, countP_concat_acquiring rfl]
    · exact h.permits
    · exact h.requests tracker htracker
    · exact h.errors tracker htracker
    · exact h.rejections tracker htracker
  | advance i now outcome =>
    obtain ⟨id, stage, handler', stage', hget, hhandler, rfl⟩ := System.step_advance hstep
    obtain ⟨f, heffect⟩ := Handler.step_effect hhandler
    have hbefore : ∀ tracker', handler'.statsTracker = some tracker' →
        ∃ tracker, s.handler.statsTracker = some tracker ∧ f tracker = tracker' := by
      intro tracker' htracker'
      rw [heffect.tracker] at htracker'
      exact Option.map_eq_some_iff.mp htracker'
    refine ⟨heffect.permits.countP hget h.permits, fun tracker' htracker' => ?_,
      fun tracker' htracker' => ?_, fun tracker' htracker' => ?_, fun tracker' htracker' => ?_⟩
    all_goals obtain ⟨tracker, htracker, rfl⟩ := hbefore tracker' htracker'
    · exact heffect.entries.entered hget (h.entered tracker htracker)
    · exact heffect.requests.countP hget (h.requests tracker htracker)
    · exact heffect.errors.countP hget (h.errors tracker htracker)
    · exact heffect.rejections.countP hget (h.rejections tracker htracker)

/-- **A whole run.** -/
theorem Inv.run (h : Inv config s) {events : List (Event RequestId)}
    (hrun : s.run events = some s') : Inv config s' := by
  induction events generalizing s with
  | nil =>
    cases hrun
    exact h
  | cons event events ih =>
    rw [System.run, List.foldlM_cons] at hrun
    obtain ⟨next, hstep, hrest⟩ := Option.bind_eq_some_iff.mp hrun
    exact ih (h.step hstep) hrest

/-! ### Two requests for one permit -/

def sampleConfig : EthCallHandlerConfig := ⟨true, 2, 1⟩

/-- The second request is being refused while the first one is executed. -/
def sampleEvents : List (Event ℕ) :=
  [.arrive 7, .arrive 8, .advance 0 5 .failed, .advance 0 5 .failed, .advance 1 6 .failed,
    .advance 0 6 .failed, .advance 1 6 .failed]

def sampleBusy : System ℕ :=
  ⟨⟨0, some ⟨[(7, 5)], ⟨1, 0, 1⟩⟩⟩, [⟨7, .executing⟩, ⟨8, .countingRejected⟩]⟩

/-- The first one fails. -/
def sampleRest : List (Event ℕ) :=
  [.advance 1 7 .failed, .advance 1 7 .failed, .advance 0 8 .failed, .advance 0 8 .failed,
    .advance 0 9 .failed, .advance 0 9 .failed]

def sampleDone : System ℕ :=
  ⟨⟨1, some ⟨[], ⟨2, 2, 1⟩⟩⟩, [⟨7, .ended .failed⟩, ⟨8, .refused⟩]⟩

theorem sample_run : (System.new sampleConfig).run sampleEvents = some sampleBusy := rfl

theorem sampleBusy_run : sampleBusy.run sampleRest = some sampleDone := rfl

theorem sample_run_all :
    (System.new sampleConfig).run (sampleEvents ++ sampleRest) = some sampleDone := rfl

/-! ### Main results -/

/-- **No permit is lost**: in every state, the permits that are left and the requests that hold one
are as many as the permits at the beginning; a request is refused only when as many others hold
one. -/
theorem permits_kept (config : EthCallHandlerConfig) {events : List (Event RequestId)}
    (hrun : (System.new config).run events = some s) :
    s.handler.availablePermits + s.count Stage.holds = config.maxConcurrentPermits ∧
      ∀ i now outcome s' request, s.step (.advance i now outcome) = some s' →
        s'.requests[i]? = some request → request.stage = .countingRejection →
        s.count Stage.holds = config.maxConcurrentPermits := by
  have hinv := (inv_new config).run hrun
  refine ⟨hinv.permits, fun i now outcome s' request hstep hget hrefused => ?_⟩
  obtain ⟨id, stage, handler', stage', hget', hhandler, rfl⟩ := System.step_advance hstep
  have hlt : i < s.requests.length := (List.getElem?_eq_some_iff.mp hget').1
  rw [List.getElem?_set_self hlt] at hget
  cases hget
  have hnone : s.handler.availablePermits = 0 := Handler.step_refuses hhandler hrefused
  have hpermits := hinv.permits
  rwa [hnone, Nat.zero_add] at hpermits

theorem permits_kept_sample :
    sampleBusy.handler.availablePermits + sampleBusy.count Stage.holds = 1 :=
  (permits_kept sampleConfig sample_run).1

/-- What holds in every state holds along the run. -/
theorem Along.inv (h : Along config moments) : ∀ m ∈ moments, Inv config m.system := by
  have hall : ∀ s ∈ System.new config :: moments.map Moment.system, Inv config s :=
    List.IsChain.induction (Inv config) _ h
      (fun _ _ hrun hinv => hinv.run hrun.choose_spec) fun _ => inv_new config
  exact fun m hm => hall _ (List.mem_cons_of_mem _ (List.mem_map_of_mem hm))

/-- **The statistics are consistent**, with any operations of the requests between any two of their
loads. They never panic, and are reported after their last load: what was read of the permits and
what was read of the numbers are as the requests were at the load. In every state no error has been
counted before its request, and the entries are those of the active requests. -/
theorem statistics_consistent (config : EthCallHandlerConfig) (shardOf : RequestId → Fin shards)
    (hpermits : shards * config.maxConcurrentPermits < 2 ^ 32)
    {moments : List (Moment RequestId)} (halong : Along config moments)
    (hnow : ∀ m ∈ moments, m.now < 2 ^ 61) :
    monadAdminEthCallStatistics config shardOf moments ≠ .panicked ∧
    (shards + 5 ≤ moments.length →
      ∃ stats, monadAdminEthCallStatistics config shardOf moments = .reported stats) ∧
    (∀ stats, monadAdminEthCallStatistics config shardOf moments = .reported stats →
      ∃ m₀ visits m₁ m₂ m₃ more, moments = m₀ :: visits ++ [m₁, m₂, m₃] ++ more ∧
        visits.length = shards + 1 ∧
        Consistent config m₀.system m₁.system m₂.system m₃.system stats) ∧
    ∀ m ∈ moments, m.system.count Stage.countedError ≤ m.system.count Stage.counted ∧
      m.tracker.activeRequests.length ≤ m.system.count Stage.active ∧
      ((m.system.requests.map Request.id).Nodup →
        m.tracker.activeRequests.length = m.system.count Stage.active) := by
  have hsound := @sound_monadAdminEthCallStatistics _ _ _ shardOf _ hpermits halong.inv hnow
  refine ⟨fun hpanic => ?_, fun hlength => ?_, fun stats hstats => ?_, fun m hm => ?_⟩
  · rw [hpanic] at hsound
    cases hsound
  -- Before the last load there have been fewer moments.
  · generalize monadAdminEthCallStatistics config shardOf moments = reading at hsound
    cases hsound with
    | reported => exact ⟨_, rfl⟩
    | _ =>
      simp only [List.length_append, List.length_cons, List.length_nil] at hlength
      omega
  · rw [hstats] at hsound
    cases hsound with
    | reported m₀ m₁ m₂ m₃ more hlength hconsistent =>
      exact ⟨m₀, _, m₁, m₂, m₃, more, rfl, hlength, hconsistent⟩
  · have hentered := (halong.inv m hm).entered m.tracker m.kept
    exact ⟨m.system.count_le_count fun _ => Stage.counted_of_countedError, hentered.length_le,
      hentered.length_eq⟩

/-- The second request is counted as rejected when the first number is read, and both as errors when
the second is read: then there are more errors than requests. -/
theorem statistics_consistent_sample :
    let busy : Moment ℕ := ⟨sampleBusy, _, rfl, 10⟩
    let done : Moment ℕ := ⟨sampleDone, _, rfl, 10⟩
    ∃ stats : EthCallCapacityStats,
      monadAdminEthCallStatistics sampleConfig (fun _ => (0 : Fin 1))
        [busy, busy, busy, busy, done, done] = .reported stats ∧
      stats.totalRequests = 1 ∧ stats.totalErrors = 2 ∧
      ∃ m₀ visits m₁ m₂ m₃ more, [busy, busy, busy, busy, done, done] =
          m₀ :: visits ++ [m₁, m₂, m₃] ++ more ∧ visits.length = 2 ∧
        Consistent sampleConfig m₀.system m₁.system m₂.system m₃.system stats := by
  intro busy done
  have hstay {s : System ℕ} : ∃ events, s.run events = some s := ⟨[], rfl⟩
  have halong : Along sampleConfig [busy, busy, busy, busy, done, done] :=
    .cons_cons ⟨_, sample_run⟩ (.cons_cons hstay (.cons_cons hstay (.cons_cons hstay
      (.cons_cons ⟨_, sampleBusy_run⟩ (.cons_cons hstay (.singleton _))))))
  have hnow : ∀ m ∈ [busy, busy, busy, busy, done, done], m.now < 2 ^ 61 := by decide
  exact ⟨_, rfl, rfl, rfl, (statistics_consistent sampleConfig (fun _ => (0 : Fin 1)) (by decide)
    halong hnow).2.2.1 _ rfl⟩

/-- **What is left when all requests are through**: every permit is back, no entry remains, also of
requests that share their identity, and every request has been counted exactly once, as an error if
it has failed or was refused, and as a rejection if it was refused. -/
theorem accounts_settled (config : EthCallHandlerConfig) {events : List (Event RequestId)}
    (hrun : (System.new config).run events = some s)
    (hsettled : ∀ request ∈ s.requests, request.stage.settled = true) :
    s.handler.availablePermits = config.maxConcurrentPermits ∧
      ∀ tracker, s.handler.statsTracker = some tracker →
        tracker.activeRequests = [] ∧
        tracker.stats.totalRequests = .ofNat s.requests.length ∧
        tracker.stats.totalErrors =
          .ofNat (s.count fun stage => stage = .ended .failed || stage = .refused) ∧
        tracker.stats.queueRejections = .ofNat (s.count fun stage => stage = .refused) := by
  have hinv := (inv_new config).run hrun
  have hcount {p q : Stage → Bool} (hended : ∀ outcome, p (.ended outcome) = q (.ended outcome))
      (hrefused : p .refused = q .refused) : s.count p = s.count q := by
    refine List.countP_congr fun request hrequest => Bool.eq_iff_iff.mp ?_
    rcases Stage.eq_of_settled (hsettled request hrequest) with ⟨outcome, hstage⟩ | hstage
    · rw [hstage, hended]
    · rw [hstage, hrefused]
  have hnone : s.count (fun _ => false) = 0 := congrFun List.countP_false _
  refine ⟨?_, fun tracker htracker => ⟨?_, ?_, ?_, ?_⟩⟩
  · have hpermits := hinv.permits
    rwa [hcount (q := fun _ => false) (fun _ => rfl) rfl, hnone] at hpermits
  · have hlength := (hinv.entered tracker htracker).length_le
    rw [hcount (q := fun _ => false) (fun _ => rfl) rfl, hnone] at hlength
    exact List.length_eq_zero_iff.mp (Nat.le_zero.mp hlength)
  · rw [hinv.requests tracker htracker, hcount (q := fun _ => true) (fun _ => rfl) rfl]
    exact congrArg UInt64.ofNat (congrFun List.countP_true _)
  · rw [hinv.errors tracker htracker]
    refine congrArg UInt64.ofNat (hcount (fun outcome => ?_) rfl)
    cases outcome <;> rfl
  · rw [hinv.rejections tracker htracker]
    exact congrArg UInt64.ofNat (hcount (fun _ => rfl) rfl)

theorem accounts_settled_sample : sampleDone.handler.availablePermits = 1 :=
  (accounts_settled sampleConfig sample_run_all (by decide)).1

end Runs

end EthCallHandler

end Rpc

end MonadServices
