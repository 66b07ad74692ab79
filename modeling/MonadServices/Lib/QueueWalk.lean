import Mathlib.Logic.Relation
import Mathlib.Tactic

/-!
# Walking a queue

A **walk** takes the first item of a queue, visits it, and appends the items that the visit
has found; it ends when the queue is empty, or at the first visit that fails. The items
that are still queued when a visit fails are never visited.

`MonadServices.QueueWalk.walk` is the walk with a bound on the number of visits. Three rules
are used with it: a bound that pays for every item and for what it leads to is enough
(`MonadServices.QueueWalk.walk_ne_outOfFuel`); what every visit keeps, the walk keeps
(`MonadServices.QueueWalk.walk_keeps`); and **a walk none of whose visits fails visits
everything that a queued item leads to** (`MonadServices.QueueWalk.walk_reaches`).
-/

namespace MonadServices

namespace QueueWalk

/-- How a walk has ended. -/
inductive End (ε : Type) where
  | done
  | failed (e : ε)
  | outOfFuel
  deriving DecidableEq

variable {ι σ ε : Type}

/-- Visits the items of the queue, first in first out. A visit moves the state, and finds
the items to append or fails. -/
def walk (visit : ι → σ → Except ε (List ι) × σ) : ℕ → List ι → σ → End ε × σ
  | _, [], s => (.done, s)
  | 0, _ :: _, s => (.outOfFuel, s)
  | n + 1, q :: rest, s =>
    match visit q s with
    | (.error e, t) => (.failed e, t)
    | (.ok new, t) => walk visit n (rest ++ new) t

/-- `P` holds at every visit of a walk, of the item and of the state before the visit. -/
def Throughout (visit : ι → σ → Except ε (List ι) × σ) (P : ι → σ → Prop) :
    ℕ → List ι → σ → Prop
  | _, [], _ => True
  | 0, _ :: _, _ => True
  | n + 1, q :: rest, s =>
    P q s ∧
      match visit q s with
      | (.error _, _) => True
      | (.ok new, t) => Throughout visit P n (rest ++ new) t

instance decidableThroughout (visit : ι → σ → Except ε (List ι) × σ) (P : ι → σ → Prop)
    [∀ q s, Decidable (P q s)] : ∀ n queue s, Decidable (Throughout visit P n queue s)
  | _, [], _ => .isTrue (by simp [Throughout])
  | 0, _ :: _, _ => .isTrue (by simp [Throughout])
  | n + 1, q :: rest, s =>
    match h : visit q s with
    | (.error _, _) => decidable_of_iff (P q s) (by simp [Throughout, h])
    | (.ok new, t) =>
      have := decidableThroughout visit P n (rest ++ new) t
      decidable_of_iff (P q s ∧ Throughout visit P n (rest ++ new) t) (by simp [Throughout, h])

variable {visit : ι → σ → Except ε (List ι) × σ} {P : ι → σ → Prop}

theorem walk_of_error {n : ℕ} {q : ι} {rest : List ι} {s : σ} {e : ε}
    (h : (visit q s).1 = .error e) :
    walk visit (n + 1) (q :: rest) s = (.failed e, (visit q s).2) := by
  rcases hv : visit q s with ⟨r, t⟩
  rw [hv] at h
  simp only at h
  subst h
  simp [walk, hv]

theorem walk_of_ok {n : ℕ} {q : ι} {rest new : List ι} {s : σ}
    (h : (visit q s).1 = .ok new) :
    walk visit (n + 1) (q :: rest) s = walk visit n (rest ++ new) (visit q s).2 := by
  rcases hv : visit q s with ⟨r, t⟩
  rw [hv] at h
  simp only at h
  subst h
  simp [walk, hv]

theorem Throughout.head {n : ℕ} {q : ι} {rest : List ι} {s : σ}
    (h : Throughout visit P (n + 1) (q :: rest) s) : P q s :=
  h.1

theorem Throughout.tail {n : ℕ} {q : ι} {rest new : List ι} {s : σ}
    (h : Throughout visit P (n + 1) (q :: rest) s) (hv : (visit q s).1 = .ok new) :
    Throughout visit P n (rest ++ new) (visit q s).2 := by
  rcases hr : visit q s with ⟨r, t⟩
  rw [hr] at hv
  simp only at hv
  subst hv
  simpa [Throughout, hr] using h.2

/-- **A walk has enough fuel when every item is charged for itself and for the items it
leads to.** -/
theorem walk_ne_outOfFuel {weight : ι → ℕ}
    (hw : ∀ q s new, (visit q s).1 = .ok new → (new.map weight).sum + 1 ≤ weight q)
    {n : ℕ} {queue : List ι} {s : σ} (hn : (queue.map weight).sum ≤ n)
    (hpos : ∀ q, 0 < weight q) : (walk visit n queue s).1 ≠ .outOfFuel := by
  induction n generalizing queue s with
  | zero =>
    cases queue with
    | nil => simp [walk]
    | cons q rest =>
      have := hpos q
      simp only [List.map_cons, List.sum_cons] at hn
      omega
  | succ n ih =>
    cases queue with
    | nil => simp [walk]
    | cons q rest =>
      cases hv : (visit q s).1 with
      | error e => simp [walk_of_error hv]
      | ok new =>
        rw [walk_of_ok hv]
        apply ih
        have := hw q s new hv
        simp only [List.map_cons, List.sum_cons, List.map_append, List.sum_append] at hn ⊢
        omega

/-- What every visit keeps, the walk keeps. -/
theorem walk_keeps {I : σ → Prop} (hI : ∀ q s, P q s → I s → I (visit q s).2)
    {n : ℕ} {queue : List ι} {s : σ} (hP : Throughout visit P n queue s) (hs : I s) :
    I (walk visit n queue s).2 := by
  induction n generalizing queue s with
  | zero => cases queue <;> exact hs
  | succ n ih =>
    cases queue with
    | nil => exact hs
    | cons q rest =>
      have hq := hI q s hP.head hs
      cases hv : (visit q s).1 with
      | error e => rwa [walk_of_error hv]
      | ok new =>
        rw [walk_of_ok hv]
        exact ih (hP.tail hv) hq

theorem throughout_true {n : ℕ} {queue : List ι} {s : σ} :
    Throughout visit (fun _ _ => True) n queue s := by
  induction n generalizing queue s with
  | zero => cases queue <;> simp [Throughout]
  | succ n ih =>
    cases queue with
    | nil => simp [Throughout]
    | cons q rest =>
      refine ⟨trivial, ?_⟩
      split
      · trivial
      · exact ih

/-- **A walk none of whose visits fails, and that has enough fuel, visits everything that an
item of its queue leads to.** `Marked s x` says that the state `s` has noted the visit of
`x`. -/
theorem walk_reaches {weight : ι → ℕ} {Leads : ι → ι → Prop} {Marked : σ → ι → Prop}
    {Readable : ι → Prop}
    (hw : ∀ q s new, (visit q s).1 = .ok new → (new.map weight).sum + 1 ≤ weight q)
    (hpos : ∀ q, 0 < weight q)
    (hleads : ∀ q s, P q s → ∃ new, (visit q s).1 = .ok new ∧ ∀ c, Leads q c → c ∈ new)
    (hmark : ∀ q s, Readable q → Marked (visit q s).2 q)
    (hkeep : ∀ q s x, Marked s x → Marked (visit q s).2 x)
    {n : ℕ} {queue : List ι} {s : σ} (hn : (queue.map weight).sum ≤ n)
    (hP : Throughout visit P n queue s) {q x : ι} (hq : q ∈ queue)
    (hx : Relation.ReflTransGen Leads q x) (hr : Readable x) :
    Marked (walk visit n queue s).2 x := by
  induction n generalizing queue s q with
  | zero =>
    -- No fuel is left only for an empty queue.
    obtain ⟨l, r, rfl⟩ := List.append_of_mem hq
    have := hpos q
    simp only [List.map_append, List.map_cons, List.sum_append, List.sum_cons] at hn
    omega
  | succ n ih =>
    obtain _ | ⟨a, rest⟩ := queue
    · simp at hq
    · obtain ⟨new, hnew, hchildren⟩ := hleads a s hP.head
      have hfuel : ((rest ++ new).map weight).sum ≤ n := by
        have := hw a s new hnew
        simp only [List.map_cons, List.sum_cons, List.map_append, List.sum_append] at hn ⊢
        omega
      rw [walk_of_ok hnew]
      rcases List.mem_cons.mp hq with rfl | hrest
      · -- The first item: it is the goal itself, or it leads to an item now queued.
        rcases hx.cases_head with rfl | ⟨c, hc, hcx⟩
        · exact walk_keeps (fun b t _ hm => hkeep b t q hm) throughout_true (hmark q s hr)
        · exact ih hfuel (hP.tail hnew) (List.mem_append_right rest (hchildren c hc)) hcx
      · exact ih hfuel (hP.tail hnew) (List.mem_append_left new hrest) hx

end QueueWalk

end MonadServices
