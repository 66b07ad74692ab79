import Mathlib.Data.List.Basic
import Mathlib.Tactic

/-!
# Byte strings and big-endian numbers

A byte string is a list of bytes. This file gives the two big-endian codings a
storage format uses: the coding on a **fixed width** (`MonadServices.toBe`), whose
value is recovered as soon as the number fits (`MonadServices.ofBe_toBe`), and the
**minimal** coding (`MonadServices.minBe`), which is the fixed one without its
leading zero bytes. Nothing here knows what the numbers are for.
-/

namespace MonadServices

/-- A byte string. -/
abbrev Bytes := List UInt8

/-- A byte string of a given length. -/
abbrev FixedBytes (n : ℕ) := {b : Bytes // b.length = n}

/-! ### The value of a big-endian byte string -/

/-- The number a byte string spells, most significant byte first. -/
def ofBe (bs : Bytes) : ℕ := bs.foldl (fun acc b => acc * 256 + b.toNat) 0

@[simp] theorem ofBe_nil : ofBe [] = 0 := rfl

theorem ofBe_concat (bs : Bytes) (b : UInt8) : ofBe (bs ++ [b]) = ofBe bs * 256 + b.toNat := by
  simp [ofBe]

/-- A leading zero byte does not count. -/
theorem ofBe_zero_cons (bs : Bytes) : ofBe (0 :: bs) = ofBe bs := by
  simp [ofBe]

theorem ofBe_dropWhile_zero (bs : Bytes) : ofBe (bs.dropWhile (· == 0)) = ofBe bs := by
  induction bs with
  | nil => rfl
  | cons b bs ih =>
    by_cases hb : b = 0
    · subst hb
      rw [ofBe_zero_cons, ← ih]
      simp
    · simp [hb]

theorem ofBe_lt (bs : Bytes) : ofBe bs < 256 ^ bs.length := by
  induction bs using List.reverseRecOn with
  | nil => simp
  | append_singleton bs b ih =>
    have hb : b.toNat < 256 := b.toNat_lt
    rw [ofBe_concat, List.length_append, List.length_singleton, pow_succ]
    omega

/-! ### Coding on a fixed width -/

/-- The big-endian coding of a number on `w` bytes. -/
def toBe : ℕ → ℕ → Bytes
  | 0, _ => []
  | w + 1, n => toBe w (n / 256) ++ [UInt8.ofNat (n % 256)]

@[simp] theorem length_toBe (w n : ℕ) : (toBe w n).length = w := by
  induction w generalizing n with
  | zero => rfl
  | succ w ih => simp [toBe, ih]

/-- **A number that fits is read back.** -/
theorem ofBe_toBe {w n : ℕ} (h : n < 256 ^ w) : ofBe (toBe w n) = n := by
  induction w generalizing n with
  | zero =>
    have : n = 0 := by simpa using h
    simp [toBe, this]
  | succ w ih =>
    have hdiv : n / 256 < 256 ^ w := by
      rw [pow_succ] at h
      omega
    rw [toBe, ofBe_concat, ih hdiv]
    have hmod : (UInt8.ofNat (n % 256)).toNat = n % 256 := by
      rw [UInt8.toNat_ofNat']
      omega
    rw [hmod]
    omega

theorem toBe_injOn {w a b : ℕ} (ha : a < 256 ^ w) (hb : b < 256 ^ w)
    (h : toBe w a = toBe w b) : a = b := by
  rw [← ofBe_toBe ha, ← ofBe_toBe hb, h]

/-- Below `256 ^ w`, the width beyond `w` is filled with zero bytes. -/
theorem toBe_add {w n : ℕ} (h : n < 256 ^ w) (k : ℕ) :
    toBe (k + w) n = List.replicate k 0 ++ toBe w n := by
  induction w generalizing n with
  | zero =>
    have hn : n = 0 := by simpa using h
    subst hn
    induction k with
    | zero => rfl
    | succ k ih =>
      have hstep : toBe (k + 1 + 0) 0 = toBe (k + 0) 0 ++ [0] := rfl
      rw [hstep, ih]
      simp [toBe, List.replicate_succ']
  | succ w ih =>
    have hdiv : n / 256 < 256 ^ w := by
      rw [pow_succ] at h
      omega
    rw [show k + (w + 1) = (k + w) + 1 by omega, toBe, ih hdiv, toBe, List.append_assoc]

/-! ### The minimal coding -/

/-- The big-endian coding of a number below `2 ^ 256`, without leading zero bytes:
zero is coded by the empty string. -/
def minBe (n : ℕ) : Bytes := (toBe 32 n).dropWhile (· == 0)

theorem ofBe_minBe {n : ℕ} (h : n < 256 ^ 32) : ofBe (minBe n) = n := by
  rw [minBe, ofBe_dropWhile_zero, ofBe_toBe h]

theorem dropWhile_replicate_zero (k : ℕ) (bs : Bytes) :
    (List.replicate k (0 : UInt8) ++ bs).dropWhile (· == 0) = bs.dropWhile (· == 0) := by
  induction k with
  | zero => rfl
  | succ k ih => simp [List.replicate_succ, ih]

theorem minBe_ne_nil {n : ℕ} (hpos : 0 < n) (h : n < 256 ^ 32) : minBe n ≠ [] := by
  intro hnil
  have := ofBe_minBe h
  rw [hnil, ofBe_nil] at this
  omega

theorem head_dropWhile_zero_ne {l bs : Bytes} {b : UInt8}
    (h : l.dropWhile (· == 0) = b :: bs) : b ≠ 0 := by
  induction l with
  | nil => simp at h
  | cons a l ih =>
    by_cases ha : a = 0
    · subst ha
      exact ih (by simpa using h)
    · have hcons : a :: l = b :: bs := by simpa [ha] using h
      rw [← (List.cons.inj hcons).1]
      exact ha

/-- The minimal coding does not start with a zero byte. -/
theorem head_minBe_ne_zero {n : ℕ} {b : UInt8} {bs : Bytes} (h : minBe n = b :: bs) : b ≠ 0 :=
  head_dropWhile_zero_ne h

/-- A number below `256 ^ w` may be coded on `w` bytes first. -/
theorem minBe_eq {w n : ℕ} (hw : w ≤ 32) (h : n < 256 ^ w) :
    minBe n = (toBe w n).dropWhile (· == 0) := by
  have hsplit : toBe 32 n = List.replicate (32 - w) 0 ++ toBe w n := by
    rw [← toBe_add h, Nat.sub_add_cancel hw]
  rw [minBe, hsplit, dropWhile_replicate_zero]

theorem length_minBe_le {w n : ℕ} (hw : w ≤ 32) (h : n < 256 ^ w) : (minBe n).length ≤ w := by
  rw [minBe_eq hw h]
  exact (List.dropWhile_sublist _).length_le.trans_eq (length_toBe w n)

end MonadServices
