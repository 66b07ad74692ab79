import Mathlib.Data.List.Basic
import Mathlib.Tactic

/-!
# Hexadecimal digits

A digit is read in either case and written in lower case. A sequence of digits is read as a number,
digit by digit and as long as it is below a bound, or as bytes, two digits at a time. **What is
written is read back** (`MonadServices.Hex.value_toDigits`, `MonadServices.Hex.decode_pairs`), and
a number is read if and only if it is below the bound (`MonadServices.Hex.parse_eq_some`).
-/

namespace MonadServices

namespace Hex

/-! ### Digits -/

/-- The value of a digit. -/
def digit (c : Char) : Option ℕ :=
  if 48 ≤ c.toNat ∧ c.toNat ≤ 57 then some (c.toNat - 48)
  else if 97 ≤ c.toNat ∧ c.toNat ≤ 102 then some (c.toNat - 87)
  else if 65 ≤ c.toNat ∧ c.toNat ≤ 70 then some (c.toNat - 55)
  else none

/-- There are only digits. -/
def AllDigits (cs : List Char) : Prop := ∀ c ∈ cs, (digit c).isSome = true

variable {c : Char} {cs : List Char} {d n acc bound : ℕ}

theorem digit_digitChar (h : d < 16) : digit (Nat.digitChar d) = some d := by
  interval_cases d <;> rfl

/-- The only digit for zero. -/
theorem eq_of_digit_eq_zero (h : digit c = some 0) : c = '0' := by
  have hnat : c.toNat = 48 := by
    unfold digit at h
    split at h
    · have := Option.some.inj h
      omega
    · split at h
      · have := Option.some.inj h
        omega
      · split at h
        · have := Option.some.inj h
          omega
        · cases h
  exact (Char.ofNat_toNat c).symm.trans (congrArg Char.ofNat hnat)

/-- A digit takes one byte. -/
theorem utf8Size_of_digit (h : (digit c).isSome = true) : c.utf8Size = 1 := by
  have hle : c.toNat ≤ 102 := by
    by_contra hgt
    have hnone : digit c = none := by
      rw [digit, if_neg (by omega), if_neg (by omega), if_neg (by omega)]
    rw [hnone] at h
    cases h
  rw [Char.utf8Size_eq_one_iff]
  have hval : c.val.toNat = c.toNat := rfl
  rw [UInt32.le_iff_toNat_le, hval]
  exact hle.trans (by decide)

/-! ### Numbers -/

/-- The number of a sequence of digits that follow those of `acc`. -/
def valueFrom (acc : ℕ) (cs : List Char) : ℕ :=
  cs.foldl (fun acc c => acc * 16 + (digit c).getD 0) acc

/-- The number of a sequence of digits. -/
def value (cs : List Char) : ℕ := valueFrom 0 cs

/-- Reads digits as long as their number is below a bound. -/
def parse (bound : ℕ) : ℕ → List Char → Option ℕ
  | acc, [] => some acc
  | acc, c :: cs =>
    (digit c).bind fun d =>
      if acc * 16 + d < bound then parse bound (acc * 16 + d) cs else none

theorem valueFrom_append (acc : ℕ) (cs cs' : List Char) :
    valueFrom acc (cs ++ cs') = valueFrom (valueFrom acc cs) cs' :=
  List.foldl_append

/-- Every digit multiplies by the base. -/
theorem mul_pow_le_valueFrom (acc : ℕ) (cs : List Char) :
    acc * 16 ^ cs.length ≤ valueFrom acc cs := by
  induction cs generalizing acc with
  | nil => exact (Nat.mul_one acc).le
  | cons c cs ih =>
    calc acc * 16 ^ (cs.length + 1) = acc * 16 * 16 ^ cs.length := by rw [Nat.pow_succ']; ring
      _ ≤ (acc * 16 + (digit c).getD 0) * 16 ^ cs.length :=
        Nat.mul_le_mul_right _ (Nat.le_add_right _ _)
      _ ≤ _ := ih _

/-- **A number is read if and only if it is below the bound**, and there are only digits. -/
theorem parse_eq_some (hacc : acc < bound) :
    parse bound acc cs = some n ↔ AllDigits cs ∧ valueFrom acc cs = n ∧ n < bound := by
  induction cs generalizing acc with
  | nil =>
    simp only [parse, Option.some.injEq, AllDigits, List.not_mem_nil, IsEmpty.forall_iff,
      implies_true, true_and]
    exact ⟨fun h => ⟨h, h ▸ hacc⟩, fun h => h.1⟩
  | cons c cs ih =>
    simp only [parse, AllDigits, List.forall_mem_cons]
    cases hd : digit c with
    | none => simp
    | some d =>
      have hfrom : valueFrom acc (c :: cs) = valueFrom (acc * 16 + d) cs := by
        rw [valueFrom, List.foldl_cons, hd]
        rfl
      rw [Option.bind_some, hfrom, Option.isSome_some]
      by_cases hlt : acc * 16 + d < bound
      · rw [if_pos hlt, ih hlt, AllDigits]
        simp
      · rw [if_neg hlt]
        simp only [reduceCtorEq, true_and, false_iff, not_and, not_lt]
        intro _ hvalue
        have hle := mul_pow_le_valueFrom (acc * 16 + d) cs
        have hpow : 1 ≤ 16 ^ cs.length := Nat.one_le_pow _ _ (by decide)
        exact hvalue ▸ (Nat.le_of_not_lt hlt).trans ((Nat.le_mul_of_pos_right _ hpow).trans hle)

/-- The digits of a number are digits. -/
theorem allDigits_toDigits (n : ℕ) : AllDigits (Nat.toDigits 16 n) := by
  induction n using Nat.base_induction 16 (by decide) with
  | single m hm =>
    rw [Nat.toDigits_of_lt_base hm, AllDigits, List.forall_mem_singleton, digit_digitChar hm]
    rfl
  | digit m k hk hm ih =>
    rw [← Nat.toDigits_append_toDigits (by decide) hm hk, Nat.toDigits_of_lt_base hk, AllDigits,
      List.forall_mem_append, List.forall_mem_singleton, digit_digitChar hk]
    exact ⟨ih, rfl⟩

/-- **The number of the digits of a number.** -/
theorem value_toDigits (n : ℕ) : value (Nat.toDigits 16 n) = n := by
  induction n using Nat.base_induction 16 (by decide) with
  | single m hm =>
    rw [Nat.toDigits_of_lt_base hm, value, valueFrom, List.foldl_cons, digit_digitChar hm]
    exact (Nat.add_comm _ _).trans (Nat.add_zero m)
  | digit m k hk hm ih =>
    rw [← Nat.toDigits_append_toDigits (by decide) hm hk, Nat.toDigits_of_lt_base hk, value,
      valueFrom_append, ← value, ih, valueFrom, List.foldl_cons, digit_digitChar hk]
    exact congrArg (· + k) (Nat.mul_comm m 16)

/-- A number that is not zero does not begin with a zero. -/
theorem head_toDigits_ne_zero (h : 0 < n) : (Nat.toDigits 16 n).head? ≠ some '0' := by
  induction n using Nat.base_induction 16 (by decide) with
  | single m hm =>
    rw [Nat.toDigits_of_lt_base hm, List.head?_cons]
    intro hzero
    have hdigit := digit_digitChar hm
    rw [Option.some.inj hzero] at hdigit
    exact h.ne (Option.some.inj hdigit)
  | digit m k hk hm ih =>
    rw [← Nat.toDigits_append_toDigits (by decide) hm hk, List.head?_append_of_ne_nil]
    · exact ih hm
    · exact Nat.toDigits_ne_nil

/-! ### Bytes -/

/-- The digits of a byte. -/
def pair (b : UInt8) : List Char := [Nat.digitChar (b.toNat / 16), Nat.digitChar (b.toNat % 16)]

/-- Reads bytes of two digits. -/
def decode : List Char → Option (List UInt8)
  | [] => some []
  | c :: c' :: cs =>
    (digit c).bind fun d => (digit c').bind fun d' =>
      (decode cs).map fun bytes => UInt8.ofNat (d * 16 + d') :: bytes
  | [_] => none

/-- **Bytes that are written are read back.** -/
theorem decode_pairs (bytes : List UInt8) : decode (bytes.flatMap pair) = some bytes := by
  induction bytes with
  | nil => rfl
  | cons b bytes ih =>
    have hb : b.toNat < 256 := b.toNat_lt
    rw [List.flatMap_cons, pair, List.cons_append, List.singleton_append, decode,
      digit_digitChar (by omega), digit_digitChar (by omega), Option.bind_some, Option.bind_some,
      ih, Option.map_some, Nat.div_add_mod']
    rw [UInt8.ofNat_toNat]

theorem allDigits_pairs (bytes : List UInt8) : AllDigits (bytes.flatMap pair) := by
  intro c hc
  obtain ⟨b, -, hc⟩ := List.mem_flatMap.mp hc
  have hb : b.toNat < 256 := b.toNat_lt
  simp only [pair, List.mem_cons, List.not_mem_nil, or_false] at hc
  obtain rfl | rfl := hc
  · rw [digit_digitChar (by omega)]
    rfl
  · rw [digit_digitChar (by omega)]
    rfl

theorem length_pairs (bytes : List UInt8) : (bytes.flatMap pair).length = 2 * bytes.length := by
  induction bytes with
  | nil => rfl
  | cons b bytes ih =>
    rw [List.flatMap_cons, List.length_append, ih, List.length_cons]
    exact (Nat.add_comm _ _).trans (Nat.mul_succ 2 bytes.length).symm

/-- What is read as bytes are digits, two for each byte. -/
theorem allDigits_of_decode {bytes : List UInt8} (h : decode cs = some bytes) :
    AllDigits cs ∧ cs.length = 2 * bytes.length := by
  induction cs using decode.induct generalizing bytes with
  | case1 =>
    obtain rfl := Option.some.inj h
    exact ⟨fun c hc => (by cases hc), rfl⟩
  | case2 c c' cs ih =>
    rw [decode] at h
    obtain ⟨d, hd, h⟩ := Option.bind_eq_some_iff.mp h
    obtain ⟨d', hd', h⟩ := Option.bind_eq_some_iff.mp h
    obtain ⟨rest, hrest, rfl⟩ := Option.map_eq_some_iff.mp h
    obtain ⟨hall, hlen⟩ := ih hrest
    refine ⟨?_, ?_⟩
    · rw [AllDigits, List.forall_mem_cons, List.forall_mem_cons, hd, hd']
      exact ⟨rfl, rfl, hall⟩
    · rw [List.length_cons, List.length_cons, List.length_cons, hlen]
      omega
  | case3 c => cases h

/-- The length of digits in bytes. -/
theorem sum_utf8Size (h : AllDigits cs) : (cs.map Char.utf8Size).sum = cs.length := by
  induction cs with
  | nil => rfl
  | cons c cs ih =>
    obtain ⟨hc, hcs⟩ := List.forall_mem_cons.mp h
    rw [List.map_cons, List.sum_cons, utf8Size_of_digit hc, ih hcs, List.length_cons, Nat.add_comm]

end Hex

end MonadServices
