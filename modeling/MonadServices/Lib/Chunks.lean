import Mathlib.Algebra.Order.Floor.Div
import Mathlib.Tactic

/-!
# Cutting a list into pieces

`MonadServices.chunks n l` cuts a list into consecutive pieces of `n` elements, the last of
which may be shorter. The pieces make up the list (`MonadServices.flatten_chunks`), none of
them is longer than `n` (`MonadServices.length_le_of_mem_chunks`), and their number is that
of the whole multiples of `n` it takes to cover the list (`MonadServices.length_chunks`).
-/

namespace MonadServices

variable {α : Type} {n : ℕ} {l : List α}

/-- At most `fuel` pieces of `n` elements. -/
def chunksAux (n : ℕ) : ℕ → List α → List (List α)
  | 0, _ => []
  | _ + 1, [] => []
  | fuel + 1, a :: l => (a :: l).take n :: chunksAux n fuel ((a :: l).drop n)

/-- **The pieces of `n` elements** of a list. -/
def chunks (n : ℕ) (l : List α) : List (List α) := chunksAux n l.length l

@[simp] theorem chunks_nil : chunks n ([] : List α) = [] := rfl

/-- More fuel than the list is long changes nothing. -/
theorem chunksAux_eq (hn : 0 < n) {fuel : ℕ} (h : l.length ≤ fuel) :
    chunksAux n fuel l = chunks n l := by
  induction fuel using Nat.strong_induction_on generalizing l with
  | _ fuel ih =>
    cases l with
    | nil => cases fuel <;> rfl
    | cons a l =>
      cases fuel with
      | zero => exact absurd h (by simp)
      | succ fuel =>
        rw [List.length_cons] at h
        have hlen : ((a :: l).drop n).length ≤ l.length := by
          rw [List.length_drop, List.length_cons]
          omega
        rw [chunks, List.length_cons, chunksAux, chunksAux, ih fuel (by omega) (by omega)]
        rcases Nat.lt_or_ge l.length (fuel + 1) with hlt | hge
        · rw [ih l.length hlt hlen]
        · omega

/-- The first piece, and the pieces of the rest. -/
theorem chunks_of_ne_nil (hn : 0 < n) (h : l ≠ []) :
    chunks n l = l.take n :: chunks n (l.drop n) := by
  obtain ⟨a, l, rfl⟩ := List.exists_cons_of_ne_nil h
  rw [chunks, List.length_cons, chunksAux, chunksAux_eq hn]
  rw [List.length_drop, List.length_cons]
  omega

/-- Induction along the pieces of a list. -/
theorem chunks_induction (hn : 0 < n) {motive : List α → Prop} (nil : motive [])
    (cons : ∀ l, l ≠ [] → motive (l.drop n) → motive l) (l : List α) : motive l := by
  induction hlen : l.length using Nat.strong_induction_on generalizing l with
  | _ len ih =>
    rcases eq_or_ne l [] with rfl | hne
    · exact nil
    · refine cons l hne (ih (l.drop n).length ?_ _ rfl)
      have hpos := List.length_pos_of_ne_nil hne
      rw [List.length_drop]
      omega

/-- **The pieces make up the list.** -/
@[simp] theorem flatten_chunks (hn : 0 < n) (l : List α) : (chunks n l).flatten = l := by
  induction l using chunks_induction hn with
  | nil => rfl
  | cons l hne ih => rw [chunks_of_ne_nil hn hne, List.flatten_cons, ih, List.take_append_drop]

/-- **No piece is longer than asked for.** -/
theorem length_le_of_mem_chunks (hn : 0 < n) {piece : List α} (h : piece ∈ chunks n l) :
    piece.length ≤ n := by
  induction l using chunks_induction hn with
  | nil => cases h
  | cons l hne ih =>
    rw [chunks_of_ne_nil hn hne, List.mem_cons] at h
    rcases h with rfl | h
    · exact List.length_take_le n l
    · exact ih h

/-- No piece is empty. -/
theorem ne_nil_of_mem_chunks (hn : 0 < n) {piece : List α} (h : piece ∈ chunks n l) :
    piece ≠ [] := by
  induction l using chunks_induction hn with
  | nil => cases h
  | cons l hne ih =>
    rw [chunks_of_ne_nil hn hne, List.mem_cons] at h
    rcases h with rfl | h
    · rw [ne_eq, List.take_eq_nil_iff]
      exact not_or.mpr ⟨hn.ne', hne⟩
    · exact ih h

/-- **How many pieces there are.** -/
theorem length_chunks (hn : 0 < n) (l : List α) : (chunks n l).length = l.length ⌈/⌉ n := by
  induction l using chunks_induction hn with
  | nil => simp
  | cons l hne ih =>
    have hpos := List.length_pos_of_ne_nil hne
    rw [chunks_of_ne_nil hn hne, List.length_cons, ih, List.length_drop,
      Nat.ceilDiv_eq_add_pred_div, Nat.ceilDiv_eq_add_pred_div]
    rcases Nat.lt_or_ge l.length n with hlt | hge
    · rw [Nat.sub_eq_zero_of_le hlt.le, Nat.zero_add, Nat.div_eq_of_lt (by omega),
        Nat.div_eq_of_lt_le (k := 1) (by omega) (by omega)]
    · have heq : l.length + n - 1 = (l.length - n + n - 1) + n := by omega
      rw [heq, Nat.add_div_right _ hn]

end MonadServices
