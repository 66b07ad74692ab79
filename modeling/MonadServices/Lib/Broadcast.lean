import Mathlib.Data.List.Infix
import Mathlib.Tactic.Common

/-!
# Broadcast channels

A broadcast channel keeps the values that have been sent last, as many as its capacity, and every
receiver gets the values in their order, from the time when it was there. A receiver that is too
slow is told so: the values that are not kept any more are skipped, and it goes on with the oldest
one that is kept.

What a channel does is said in terms of all that has been sent to it, and of how much of this a
receiver has behind it (`MonadServices.BroadcastChannel`). **A receiver that has never been told
that it is too slow has received all that was sent, from the time when it was there up to where it
is** (`MonadServices.Followed.recv`).
-/

namespace MonadServices

/-- What a receiver gets: a value, or that it has been too slow for some. -/
inductive Received (α : Type) where
  | value (a : α)
  | lagged (skipped : ℕ)

/-- What comes next for a receiver that has some values behind it, and how many it has behind it
then. -/
def broadcastNext {α : Type} (capacity : ℕ) (sent : List α) (position : ℕ) :
    Option (Received α × ℕ) :=
  if position + capacity < sent.length then
    some (.lagged (sent.length - capacity - position), sent.length - capacity)
  else sent[position]?.map fun a => (.value a, position + 1)

/-- **A broadcast channel.** -/
structure BroadcastChannel (α : Type) (capacity : ℕ) where
  Channel : Type
  Receiver : Type
  new : Channel
  send : Channel → α → Channel
  subscribe : Channel → Receiver
  recv : Channel → Receiver → Option (Received α × Receiver)
  /-- All that has been sent. -/
  Sent : Channel → List α → Prop
  /-- How much of it a receiver has behind it. -/
  position : Receiver → ℕ
  sent_new : Sent new []
  sent_send : ∀ {c sent}, Sent c sent → ∀ a, Sent (send c a) (sent ++ [a])
  position_subscribe : ∀ {c sent}, Sent c sent → position (subscribe c) = sent.length
  recv_eq : ∀ {c sent}, Sent c sent → ∀ r, position r ≤ sent.length →
    (recv c r).map (Prod.map id position) = broadcastNext capacity sent (position r)

/-! ### A channel with a list -/

/-- The values that are kept, the oldest one first, and the number of all values. -/
structure BroadcastList (α : Type) where
  kept : List α
  tail : ℕ

variable {α : Type} {capacity : ℕ}

/-- **The last values are enough for a channel.** -/
def BroadcastChannel.ofList (α : Type) (capacity : ℕ) : BroadcastChannel α capacity where
  Channel := BroadcastList α
  Receiver := ℕ
  new := ⟨[], 0⟩
  send := fun c a => ⟨(c.kept ++ [a]).drop (c.kept.length + 1 - capacity), c.tail + 1⟩
  subscribe := BroadcastList.tail
  recv := fun c r =>
    if r + capacity < c.tail then some (.lagged (c.tail - capacity - r), c.tail - capacity)
    else c.kept[r - (c.tail - c.kept.length)]?.map fun a => (.value a, r + 1)
  Sent := fun c sent => c.tail = sent.length ∧ c.kept = sent.drop (sent.length - capacity)
  position := id
  sent_new := ⟨rfl, List.drop_nil.symm⟩
  sent_send := by
    rintro c sent ⟨htail, hkept⟩ a
    refine ⟨by rw [htail, List.length_append, List.length_singleton], ?_⟩
    dsimp only
    rw [hkept, List.length_drop, ← List.drop_append_of_le_length (Nat.sub_le _ _), List.drop_drop,
      List.length_append, List.length_singleton]
    exact congrArg (List.drop · (sent ++ [a])) (by omega)
  position_subscribe := And.left
  recv_eq := by
    rintro c sent ⟨htail, hkept⟩ r hr
    rw [broadcastNext, htail]
    dsimp only [id]
    split
    · rfl
    · rename_i hfits
      have hindex : sent.length - capacity + (r - (sent.length - c.kept.length)) = r := by
        rw [hkept, List.length_drop]
        dsimp only [id] at hr
        omega
      rw [hkept, List.getElem?_drop, ← hkept, hindex, Option.map_map]
      rfl

/-! ### Receivers that follow a channel -/

/-- A receiver that was there when some values had been sent has received those after them. -/
structure Followed (sent : List α) (start position : ℕ) (received : List α) : Prop where
  le : start ≤ position
  within : position ≤ sent.length
  eq : received = (sent.take position).drop start

variable {sent received : List α} {start position : ℕ}

theorem Followed.send (h : Followed sent start position received) (more : List α) :
    Followed (sent ++ more) start position received where
  le := h.le
  within := h.within.trans (List.length_append ▸ Nat.le_add_right _ _)
  eq := by rw [List.take_append_of_le_length h.within, h.eq]

/-- **A value that is received is the next one.** -/
theorem Followed.recv (h : Followed sent start position received) {a : α} {next : ℕ}
    (hnext : broadcastNext capacity sent position = some (.value a, next)) :
    Followed sent start next (received ++ [a]) := by
  unfold broadcastNext at hnext
  split at hnext
  · cases hnext
  · obtain ⟨b, hget, heq⟩ := Option.map_eq_some_iff.mp hnext
    cases heq
    obtain ⟨hlt, hb⟩ := List.getElem?_eq_some_iff.mp hget
    refine ⟨Nat.le_succ_of_le h.le, hlt, ?_⟩
    have hstart : start ≤ (sent.take position).length :=
      h.le.trans_eq (List.length_take_of_le h.within).symm
    rw [List.take_succ_eq_append_getElem hlt, List.drop_append_of_le_length hstart, ← h.eq, hb]

/-- What has been received is the beginning of what was sent after the receiver was there. -/
theorem Followed.begins {before more : List α}
    (h : Followed (before ++ more) before.length position received) : received <+: more := by
  rw [h.eq, ← Nat.add_sub_of_le h.le, List.take_length_add_append, List.drop_left]
  exact List.take_prefix _ _

theorem Followed.position_eq (h : Followed sent start position received) :
    position = start + received.length := by
  rw [h.eq, List.length_drop, List.length_take_of_le h.within, Nat.add_sub_of_le h.le]

/-- Who is told to be too slow is behind by more than is kept. -/
theorem lt_of_lagged {skipped next : ℕ}
    (hnext : broadcastNext capacity sent position = some (.lagged skipped, next)) :
    position + capacity < sent.length := by
  unfold broadcastNext at hnext
  split at hnext
  · assumption
  · obtain ⟨_, -, heq⟩ := Option.map_eq_some_iff.mp hnext
    cases heq

end MonadServices
