import MonadServices.Lib.Result

/-!
# Arithmetic in 64 bits

The sum, the difference and the product of two numbers of 64 bits may not fit. A build either
checks this, and then stops the program, or it does not, and goes on with the remainder. An
operation here takes the build as a parameter: **where nothing overflows the builds agree**
(`MonadServices.addU64_eq_ok` and the lemmas after it).
-/

namespace MonadServices

variable {ε : Type} {overflowChecks : Bool} {a b c : UInt64} {n : ℕ}

/-- How a program stops early: it returns an error, or it panics. -/
inductive Halt (ε : Type) where
  | error (e : ε)
  | panic (message : String)
  deriving DecidableEq, Repr

/-- The result of an operation that may overflow: `r`, or a panic where that is checked. -/
def checked {α : Type} (overflowChecks overflows : Bool) (name : String) (r : α) :
    Except (Halt ε) α :=
  if overflowChecks && overflows then .error (.panic s!"attempt to {name} with overflow")
  else .ok r

theorem checked_eq_ok {α : Type} {overflows : Bool} {name : String} {r x : α} :
    (checked overflowChecks overflows name r : Except (Halt ε) α) = .ok x ↔
      (overflowChecks = true → overflows = false) ∧ x = r := by
  unfold checked
  cases overflowChecks <;> cases overflows <;> simp [eq_comm]

theorem checked_of_eq_false {α : Type} {overflows : Bool} (h : overflows = false) (name : String)
    (r : α) : (checked overflowChecks overflows name r : Except (Halt ε) α) = .ok r :=
  checked_eq_ok.mpr ⟨fun _ => h, rfl⟩

/-- What overflows is a panic, where that is checked. -/
theorem exists_checked_eq_panic {α : Type} {overflows : Bool} (hchecks : overflowChecks = true)
    (h : overflows = true) (name : String) (r : α) :
    ∃ message, (checked overflowChecks overflows name r : Except (Halt ε) α) =
      .error (.panic message) := by
  rw [checked, hchecks, h]
  exact ⟨_, rfl⟩

/-- A number that is made in 64 bits. -/
def fitU64 (overflowChecks : Bool) (n : ℕ) : Except (Halt ε) UInt64 :=
  checked overflowChecks (decide (UInt64.size ≤ n)) "add" (UInt64.ofNat n)

def addU64 (overflowChecks : Bool) (a b : UInt64) : Except (Halt ε) UInt64 :=
  checked overflowChecks (decide (UInt64.size ≤ a.toNat + b.toNat)) "add" (a + b)

def subU64 (overflowChecks : Bool) (a b : UInt64) : Except (Halt ε) UInt64 :=
  checked overflowChecks (decide (a < b)) "subtract" (a - b)

def mulU64 (overflowChecks : Bool) (a b : UInt64) : Except (Halt ε) UInt64 :=
  checked overflowChecks (decide (UInt64.size ≤ a.toNat * b.toNat)) "multiply" (a * b)

def addU16 (overflowChecks : Bool) (a b : UInt16) : Except (Halt ε) UInt16 :=
  checked overflowChecks (decide (UInt16.size ≤ a.toNat + b.toNat)) "add" (a + b)

/-- `u64::saturating_mul`. -/
def saturatingMulU64 (a b : UInt64) : UInt64 :=
  if a.toNat * b.toNat < UInt64.size then a * b else UInt64.ofNat (UInt64.size - 1)

/-- `u64::saturating_div`, and any other division. -/
def divU64 (a b : UInt64) : Except (Halt ε) UInt64 :=
  if b = 0 then .error (.panic "attempt to divide by zero") else .ok (a / b)

/-- An element of a slice. -/
def index {α : Type} (l : List α) (i : ℕ) : Except (Halt ε) α :=
  match l[i]? with
  | some a => .ok a
  | none =>
    .error (.panic s!"index out of bounds: the len is {l.length} but the index is {i}")

theorem index_of_lt {α : Type} {l : List α} {i : ℕ} (h : i < l.length) :
    (index l i : Except (Halt ε) α) = .ok l[i] := by
  rw [index, List.getElem?_eq_getElem h]

theorem exists_index_eq_panic {α : Type} {l : List α} {i : ℕ} (h : l.length ≤ i) :
    ∃ message, (index l i : Except (Halt ε) α) = .error (.panic message) := by
  rw [index, List.getElem?_eq_none h]
  exact ⟨_, rfl⟩

theorem fitU64_of_lt (h : n < UInt64.size) :
    (fitU64 overflowChecks n : Except (Halt ε) UInt64) = .ok (UInt64.ofNat n) :=
  checked_of_eq_false (decide_eq_false (Nat.not_le.mpr h)) _ _

theorem addU64_of_lt (h : a.toNat + b.toNat < UInt64.size) :
    (addU64 overflowChecks a b : Except (Halt ε) UInt64) = .ok (a + b) :=
  checked_of_eq_false (decide_eq_false (Nat.not_le.mpr h)) _ _

theorem subU64_of_le (h : b ≤ a) :
    (subU64 overflowChecks a b : Except (Halt ε) UInt64) = .ok (a - b) :=
  checked_of_eq_false (decide_eq_false (UInt64.not_lt.mpr h)) _ _

theorem mulU64_of_lt (h : a.toNat * b.toNat < UInt64.size) :
    (mulU64 overflowChecks a b : Except (Halt ε) UInt64) = .ok (a * b) :=
  checked_of_eq_false (decide_eq_false (Nat.not_le.mpr h)) _ _

theorem exists_addU64_eq_panic (hchecks : overflowChecks = true)
    (h : UInt64.size ≤ a.toNat + b.toNat) :
    ∃ message, (addU64 overflowChecks a b : Except (Halt ε) UInt64) = .error (.panic message) :=
  exists_checked_eq_panic hchecks (decide_eq_true h) _ _

theorem addU16_of_lt {a b : UInt16} (h : a.toNat + b.toNat < UInt16.size) :
    (addU16 overflowChecks a b : Except (Halt ε) UInt16) = .ok (a + b) :=
  checked_of_eq_false (decide_eq_false (Nat.not_le.mpr h)) _ _

/-- The sum of a list that fits in 16 bits. -/
theorem foldlM_addU16 {l : List UInt16} {a : UInt16}
    (h : a.toNat + (l.map UInt16.toNat).sum < UInt16.size) :
    (l.foldlM (addU16 overflowChecks) a : Except (Halt ε) UInt16) =
      .ok (UInt16.ofNat (a.toNat + (l.map UInt16.toNat).sum)) := by
  induction l generalizing a with
  | nil =>
    rw [List.map_nil, List.sum_nil, Nat.add_zero, UInt16.ofNat_toNat]
    rfl
  | cons b l ih =>
    rw [List.map_cons, List.sum_cons, ← Nat.add_assoc] at h ⊢
    have hadd : a.toNat + b.toNat < UInt16.size := Nat.lt_of_le_of_lt (Nat.le_add_right _ _) h
    have hsum : (a + b).toNat = a.toNat + b.toNat := by
      rw [UInt16.toNat_add]
      exact Nat.mod_eq_of_lt hadd
    rw [List.foldlM_cons, addU16_of_lt hadd, ok_bind, ih (by rwa [hsum]), hsum]

theorem divU64_of_pos (h : 0 < b.toNat) : (divU64 a b : Except (Halt ε) UInt64) = .ok (a / b) := by
  rw [divU64, if_neg]
  rintro rfl
  exact absurd h (Nat.lt_irrefl 0)

theorem toNat_add_of_lt (h : a.toNat + b.toNat < UInt64.size) :
    (a + b).toNat = a.toNat + b.toNat := by
  rw [UInt64.toNat_add]
  exact Nat.mod_eq_of_lt h

theorem toNat_mul_of_lt (h : a.toNat * b.toNat < UInt64.size) :
    (a * b).toNat = a.toNat * b.toNat := by
  rw [UInt64.toNat_mul]
  exact Nat.mod_eq_of_lt h

theorem toNat_sub_of_le (h : b ≤ a) : (a - b).toNat = a.toNat - b.toNat :=
  UInt64.toNat_sub_of_le _ _ h

theorem toNat_saturatingMulU64 (a b : UInt64) :
    (saturatingMulU64 a b).toNat = min (a.toNat * b.toNat) (UInt64.size - 1) := by
  unfold saturatingMulU64
  split
  · rename_i h
    rw [toNat_mul_of_lt h]
    omega
  · rename_i h
    rw [UInt64.toNat_ofNat_of_lt' (by decide)]
    omega

/-! ### No panic -/

/-- A computation that does not panic. -/
def NoPanic {α : Type} (x : Except (Halt ε) α) : Prop := ∀ message, x ≠ .error (.panic message)

namespace NoPanic

variable {α β : Type}

theorem ok (a : α) : NoPanic (.ok a : Except (Halt ε) α) := fun _ h => by cases h

theorem error (e : ε) : NoPanic (.error (.error e) : Except (Halt ε) α) := fun _ h => by cases h

/-- An error goes on. -/
theorem of_error {e : Halt ε} (h : NoPanic (.error e : Except (Halt ε) α)) :
    NoPanic (.error e : Except (Halt ε) β) := by
  intro message h'
  have he : e = .panic message := Except.error.inj h'
  exact h message (congrArg Except.error he)

/-- Two computations in a row. -/
theorem bind {x : Except (Halt ε) α} {f : α → Except (Halt ε) β} (hx : NoPanic x)
    (hf : ∀ a, x = .ok a → NoPanic (f a)) : NoPanic (x >>= f) := by
  cases x with
  | ok a => exact hf a rfl
  | error e => exact hx.of_error

theorem map {x : Except (Halt ε) α} (f : α → β) (hx : NoPanic x) : NoPanic (x.map f) := by
  cases x with
  | ok a => exact ok _
  | error e => exact hx.of_error

end NoPanic

end MonadServices
