import MonadServices.Lib.Result
import MonadServices.Lib.Rlp

/-!
# Primitive values

The fixed-size byte strings and the block header that the services exchange. Of the
header the services read the fields below; the other ones only travel with it, and
are kept together in `MonadServices.Header.rest`.
-/

namespace MonadServices

/-- An account address. -/
abbrev Address := FixedBytes 20

theorem length_zeroAddress : (List.replicate 20 (0 : UInt8)).length = 20 := List.length_replicate

/-- `Address::ZERO`, which is `Address::default` too. -/
def zeroAddress : Address := ⟨List.replicate 20 0, length_zeroAddress⟩

/-- A 32-byte word: a hash or a log topic. -/
abbrev B256 := FixedBytes 32

/-- A word of equal bytes. -/
def word (b : UInt8) : B256 := ⟨List.replicate 32 b, List.length_replicate⟩

/-- The first four bytes of a call's input. -/
abbrev Selector := FixedBytes 4

/-- A block header. -/
structure Header where
  parentHash : B256
  beneficiary : Address
  number : UInt64
  timestamp : UInt64
  baseFeePerGas : Option UInt64
  /-- The fields no service reads. -/
  rest : Bytes
  deriving DecidableEq

/-- `u64::checked_add`. -/
def checkedAdd (a b : ℕ) : Option ℕ := if a + b < 2 ^ 64 then some (a + b) else none

theorem checkedAdd_eq_some {a b c : ℕ} : checkedAdd a b = some c ↔ a + b = c ∧ c < 2 ^ 64 := by
  unfold checkedAdd
  split
  · rw [Option.some.injEq]
    constructor
    · rintro rfl
      exact ⟨rfl, by assumption⟩
    · exact fun h => h.1
  · constructor
    · simp
    · rintro ⟨rfl, h⟩
      contradiction

/-- `u64::checked_sub`. -/
def checkedSub (a b : ℕ) : Option ℕ := if b ≤ a then some (a - b) else none

/-- `u64::saturating_add`. -/
def saturatingAdd (a b : ℕ) : ℕ := min (a + b) (2 ^ 64 - 1)

end MonadServices
