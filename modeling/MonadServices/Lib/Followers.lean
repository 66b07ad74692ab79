import MonadServices.Lib.Broadcast

/-!
# Followers of a broadcast

A server sends what it makes in each of its turns to a broadcast channel, and followers receive
from it, one value or lag at a time, in between whatever else happens to them. A follower leaves
when it is told that it has been too slow.

What one follower hears is determined by how the acts of the system look to it
(`MonadServices.Seen`): the turns of the server, its own receives, and what else happens to it. It
is computed without the channel, from what the server makes
(`MonadServices.Watch.run`). **Up to the time when it leaves it has heard all that has been sent
since it came, up to where it is** (`MonadServices.Watch.Sound.run`), and a receiver of the channel
that has been at the same place is given the same (`MonadServices.BroadcastChannel.recv_follows`).
-/

namespace MonadServices

variable {α : Type} {capacity : ℕ}

/-! ### Channels after several values -/

namespace BroadcastChannel

variable {channel : BroadcastChannel α capacity}

/-- All that has been sent, after some more. -/
theorem sent_foldl {c : channel.Channel} {sent : List α} (h : channel.Sent c sent)
    (values : List α) : channel.Sent (values.foldl channel.send c) (sent ++ values) := by
  induction values generalizing sent c with
  | nil =>
    rw [List.append_nil]
    exact h
  | cons a values ih =>
    rw [List.foldl_cons, ← List.singleton_append, ← List.append_assoc]
    exact ih (channel.sent_send h a)

end BroadcastChannel

/-- What comes next for a receiver does not depend on what was sent before it came. -/
theorem broadcastNext_append {before sent : List α} {position : ℕ} :
    broadcastNext capacity (before ++ sent) (before.length + position) =
      (broadcastNext capacity sent position).map (Prod.map id (before.length + ·)) := by
  unfold broadcastNext
  rw [List.length_append]
  by_cases hlag : position + capacity < sent.length
  · rw [if_pos hlag, if_pos (by omega), Option.map_some, Prod.map_apply]
    have hskipped : before.length + sent.length - capacity - (before.length + position) =
        sent.length - capacity - position := by omega
    have hnext : before.length + sent.length - capacity =
        before.length + (sent.length - capacity) := by omega
    rw [hskipped, hnext]
    rfl
  · rw [if_neg hlag, if_neg (by omega), List.getElem?_append_right (Nat.le_add_right _ _),
      Nat.add_sub_cancel_left, Option.map_map]
    rfl

/-! ### Watching a follower -/

/-- Where a follower is that has been given something: who has been too slow leaves. -/
def Received.place : Received α → ℕ → Option ℕ
  | .value _, next => some next
  | .lagged _, _ => none

/-- A server that makes values in turns, until its task panics. -/
structure TurnServer (ρ α : Type) where
  State : Type
  turn : State → ρ → List α × Option State

/-- **How an act of a system looks to a follower.** -/
inductive Seen (ρ δ γ : Type) where
  /-- The server makes a turn. -/
  | serve (r : ρ)
  /-- The follower receives what comes next. -/
  | ask (d : δ)
  /-- Something else happens to the follower. -/
  | other (c : γ)
  | nothing

variable {ρ δ γ : Type}

/-- **A follower under watch**: the server, all that it has sent since the follower came, how much
of this the follower has behind it until it leaves, and what has happened to it. -/
structure Watch (server : TurnServer ρ α) (δ γ : Type) where
  state : Option server.State
  sent : List α
  position : Option ℕ
  heard : List ((δ × Received α) ⊕ γ)

namespace Watch

variable {server : TurnServer ρ α}

/-- A follower that has just come. -/
def start (server : TurnServer ρ α) (δ γ : Type) (state : Option server.State) :
    Watch server δ γ := ⟨state, [], some 0, []⟩

/-- The server makes a turn, unless its task has panicked. -/
def serve (w : Watch server δ γ) (r : ρ) : Watch server δ γ :=
  match w.state with
  | none => w
  | some state => { w with
      state := (server.turn state r).2
      sent := w.sent ++ (server.turn state r).1 }

/-- Something has happened to the follower, which is at a place after it. -/
def hear (w : Watch server δ γ) (position : Option ℕ) (x : (δ × Received α) ⊕ γ) :
    Watch server δ γ :=
  { w with position := position, heard := w.heard ++ [x] }

/-- The follower receives what comes next, if there is something. -/
def ask (capacity : ℕ) (w : Watch server δ γ) (d : δ) : Watch server δ γ :=
  match w.position.bind (broadcastNext capacity w.sent) with
  | none => w
  | some (x, next) => w.hear (x.place next) (.inl (d, x))

def step (capacity : ℕ) (w : Watch server δ γ) : Seen ρ δ γ → Watch server δ γ
  | .serve r => w.serve r
  | .ask d => w.ask capacity d
  | .other c => w.hear w.position (.inr c)
  | .nothing => w

/-- **A follower after some acts.** -/
def run (capacity : ℕ) (w : Watch server δ γ) (acts : List (Seen ρ δ γ)) : Watch server δ γ :=
  acts.foldl (step capacity) w

/-- The value that was heard, if it was one. -/
def valueOf : (δ × Received α) ⊕ γ → Option α
  | .inl (_, .value a) => some a
  | _ => none

/-- **The values that the follower has received.** -/
def values (w : Watch server δ γ) : List α := w.heard.filterMap valueOf

/-- What else has happened to it. -/
def others (w : Watch server δ γ) : List γ := w.heard.filterMap Sum.getRight?

/-- **What is known of a follower**: until it leaves it has received all that has been sent up to
where it is; when it left it had not received more than the channel keeps. -/
structure Sound (capacity : ℕ) (w : Watch server δ γ) : Prop where
  reading : ∀ p, w.position = some p → p ≤ w.sent.length ∧ w.values = w.sent.take p
  left : w.position = none → w.values <+: w.sent ∧ w.values.length + capacity < w.sent.length

variable {w : Watch server δ γ} {acts : List (Seen ρ δ γ)}

theorem values_hear (position : Option ℕ) (x : (δ × Received α) ⊕ γ) :
    (w.hear position x).values = w.values ++ (valueOf x).toList := by
  rw [values, hear, List.filterMap_append, List.filterMap_cons]
  cases valueOf x <;> rfl

theorem others_hear (position : Option ℕ) (x : (δ × Received α) ⊕ γ) :
    (w.hear position x).others = w.others ++ x.getRight?.toList := by
  rw [others, hear, List.filterMap_append]
  cases x <;> rfl

theorem ask_eq {x : Received α} {next : ℕ}
    (h : w.position.bind (broadcastNext capacity w.sent) = some (x, next)) (d : δ) :
    w.ask capacity d = w.hear (x.place next) (.inl (d, x)) := by
  rw [ask, h]

theorem serve_eq {state : server.State} (h : w.state = some state) (r : ρ) :
    w.serve r = { w with
      state := (server.turn state r).2
      sent := w.sent ++ (server.turn state r).1 } := by
  rw [serve, h]

theorem sound_start (state : Option server.State) : (start server δ γ state).Sound capacity where
  reading := by
    rintro p hp
    obtain rfl := Option.some.inj hp
    exact ⟨Nat.le_refl _, rfl⟩
  left := nofun

/-- The values that have been received are the first ones that were sent. -/
theorem Sound.begins (h : w.Sound capacity) : w.values <+: w.sent := by
  cases hp : w.position with
  | none => exact (h.left hp).1
  | some p =>
    rw [(h.reading p hp).2]
    exact List.take_prefix _ _

/-- A follower has behind it what it has received. -/
theorem Sound.position_eq (h : w.Sound capacity) {p : ℕ} (hp : w.position = some p) :
    p = w.values.length := by
  obtain ⟨hle, heq⟩ := h.reading p hp
  rw [heq, List.length_take_of_le hle]

theorem Sound.serve (h : w.Sound capacity) (r : ρ) : (w.serve r).Sound capacity := by
  unfold Watch.serve
  split
  · exact h
  · refine ⟨fun p hp => ?_, fun hp => ?_⟩
    · obtain ⟨hle, heq⟩ := h.reading p hp
      refine ⟨hle.trans (List.length_append ▸ Nat.le_add_right _ _), ?_⟩
      rw [List.take_append_of_le_length hle]
      exact heq
    · obtain ⟨hbegins, hlt⟩ := h.left hp
      refine ⟨hbegins.trans (List.prefix_append _ _), hlt.trans_le ?_⟩
      rw [List.length_append]
      exact Nat.le_add_right _ _

theorem Sound.ask (h : w.Sound capacity) (d : δ) : (w.ask capacity d).Sound capacity := by
  unfold Watch.ask
  split
  · exact h
  · rename_i x next hnext
    obtain ⟨p, hp, hnext⟩ := Option.bind_eq_some_iff.mp hnext
    obtain ⟨hle, heq⟩ := h.reading p hp
    cases x with
    | value a =>
      have hfollowed : Followed w.sent 0 p w.values := ⟨Nat.zero_le p, hle, heq⟩
      have hfollowed' := hfollowed.recv hnext
      refine ⟨fun p' hp' => ?_, nofun⟩
      obtain rfl := Option.some.inj hp'
      refine ⟨hfollowed'.within, ?_⟩
      rw [values_hear]
      exact hfollowed'.eq
    | lagged skipped =>
      have hlt := lt_of_lagged hnext
      rw [h.position_eq hp] at hlt
      refine ⟨nofun, fun _ => ?_⟩
      rw [values_hear]
      exact ⟨(List.append_nil w.values).symm ▸ h.begins, (List.append_nil w.values).symm ▸ hlt⟩

theorem Sound.step (h : w.Sound capacity) (act : Seen ρ δ γ) :
    (w.step capacity act).Sound capacity := by
  cases act with
  | serve r => exact h.serve r
  | ask d => exact h.ask d
  | other c =>
    have hvalues : (w.step capacity (.other c)).values = w.values :=
      (values_hear w.position (.inr c)).trans (List.append_nil _)
    exact ⟨fun p hp => by rw [hvalues]; exact h.reading p hp,
      fun hp => by rw [hvalues]; exact h.left hp⟩
  | nothing => exact h

/-- **What is known of a follower after any acts.** -/
theorem Sound.run (h : w.Sound capacity) (acts : List (Seen ρ δ γ)) :
    (w.run capacity acts).Sound capacity := by
  induction acts generalizing w with
  | nil => exact h
  | cons act acts ih => exact ih (h.step act)

end Watch

/-! ### A receiver and its follower -/

variable {server : TurnServer ρ α} {w : Watch server δ γ}

/-- **A receiver that has been at the same place is given the same**, and is at the same place
afterwards. -/
theorem BroadcastChannel.recv_follows {channel : BroadcastChannel α capacity}
    {c : channel.Channel} {r r' : channel.Receiver} {before : List α} {p : ℕ} {x : Received α}
    (hsent : channel.Sent c (before ++ w.sent)) (hw : w.Sound capacity)
    (hp : w.position = some p) (hr : channel.position r = before.length + p)
    (hrecv : channel.recv c r = some (x, r')) :
    ∃ next, w.position.bind (broadcastNext capacity w.sent) = some (x, next) ∧
      channel.position r' = before.length + next := by
  have hle := (hw.reading p hp).1
  have hnext := channel.recv_eq hsent r (by rw [hr, List.length_append]; omega)
  rw [hrecv, hr, broadcastNext_append, Option.map_some, eq_comm, Option.map_eq_some_iff] at hnext
  obtain ⟨⟨y, next⟩, hget, heq⟩ := hnext
  obtain ⟨rfl, hposition⟩ := Prod.mk.inj heq
  exact ⟨next, by rw [hp]; exact hget, hposition.symm⟩

/-- **A receiver that is not at the end is given something.** -/
theorem BroadcastChannel.isSome_recv {channel : BroadcastChannel α capacity}
    {c : channel.Channel} {r : channel.Receiver} {before : List α} {p : ℕ}
    (hsent : channel.Sent c (before ++ w.sent)) (hr : channel.position r = before.length + p)
    (hlt : p < w.sent.length) : (channel.recv c r).isSome = true := by
  have hnext := channel.recv_eq hsent r (by rw [hr, List.length_append]; omega)
  rw [hr, broadcastNext_append] at hnext
  have hsome : (broadcastNext capacity w.sent p).isSome = true := by
    unfold broadcastNext
    split
    · rfl
    · rw [Option.isSome_map, List.getElem?_eq_getElem hlt]
      rfl
  rw [← Option.isSome_map (f := Prod.map id channel.position), hnext, Option.isSome_map]
  exact hsome

/-! ### Runs -/

/-- **What one step keeps, a run keeps**, beside what is computed along it. -/
theorem foldlM_keeps {σ κ τ : Type} {step : σ → κ → Option σ} {f : τ → κ → τ}
    {R : σ → τ → Prop} (hstep : ∀ {s t a s'}, R s t → step s a = some s' → R s' (f t a))
    {s s' : σ} {t : τ} {acts : List κ} (h : R s t) (hrun : acts.foldlM step s = some s') :
    R s' (acts.foldl f t) := by
  induction acts generalizing s t with
  | nil =>
    obtain rfl := Option.some.inj hrun
    exact h
  | cons a acts ih =>
    rw [List.foldlM_cons] at hrun
    obtain ⟨u, hu, hrest⟩ := Option.bind_eq_some_iff.mp hrun
    exact ih (hstep h hu) hrest

end MonadServices
