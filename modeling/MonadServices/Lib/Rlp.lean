import MonadServices.Lib.Bytes

/-!
# Recursive length prefix

The RLP coding of nested byte strings. An item is a byte string or a list of
items; its coding is a **head**, which gives the kind and the length of the
payload, followed by the payload. A single byte below `0x80` is its own coding
and has no head.

`MonadServices.Rlp.encode` is the canonical coding and `MonadServices.Rlp.decode` the
strict decoder, which reads one item from the front of a byte string and leaves
the rest. The decoder refuses every head that the coder does not write: a long
form where the short one fits, a length with a leading zero byte, a head in front
of a single small byte. The round trip is `MonadServices.Rlp.decode_encode`; it
needs the coding to be shorter than `2 ^ 64` bytes, because a length is written on
at most eight.

A type is coded through items: `MonadServices.RlpCodec` is a pair of conversions of
which the second undoes the first, and `MonadServices.RlpCodec.decode_encode` is
the round trip it inherits.
-/

namespace MonadServices

/-- An item: a byte string or a list of items. -/
inductive Rlp where
  /-- A byte string. -/
  | str : Bytes → Rlp
  /-- A list of items. -/
  | list : List Rlp → Rlp

namespace Rlp

/-! ### Coding -/

/-- The head of a payload of `n` bytes: `base` is `0x80` for a byte string and
`0xc0` for a list. -/
def head (base n : ℕ) : Bytes :=
  if n < 56 then [UInt8.ofNat (base + n)]
  else UInt8.ofNat (base + 55 + (minBe n).length) :: minBe n

/-- The coding of a byte string. -/
def encodeStr (b : Bytes) : Bytes :=
  match b with
  | [x] => if x.toNat < 0x80 then [x] else head 0x80 1 ++ [x]
  | b => head 0x80 b.length ++ b

mutual

/-- **The canonical coding** of an item. -/
def encode : Rlp → Bytes
  | .str b => encodeStr b
  | .list xs => head 0xc0 (encodeAll xs).length ++ encodeAll xs

/-- The codings of the items of a list, one after the other. -/
def encodeAll : List Rlp → Bytes
  | [] => []
  | x :: xs => encode x ++ encodeAll xs

end

@[simp] theorem encodeAll_nil : encodeAll [] = [] := by simp [encodeAll]

@[simp] theorem encodeAll_cons (x : Rlp) (xs : List Rlp) :
    encodeAll (x :: xs) = encode x ++ encodeAll xs := by simp [encodeAll]

theorem encode_str (b : Bytes) : encode (.str b) = encodeStr b := by simp [encode]

theorem encode_list (xs : List Rlp) :
    encode (.list xs) = head 0xc0 (encodeAll xs).length ++ encodeAll xs := by simp [encode]

theorem length_head_pos (base n : ℕ) : 0 < (head base n).length := by
  unfold head
  split <;> simp

/-- A byte string of one small byte is its own coding. -/
theorem encodeStr_small {x : UInt8} (h : x.toNat < 0x80) : encodeStr [x] = [x] := by
  simp [encodeStr, h]

/-- Any other byte string gets a head. -/
theorem encodeStr_eq {b : Bytes} (h : ∀ x, b = [x] → ¬x.toNat < 0x80) :
    encodeStr b = head 0x80 b.length ++ b := by
  unfold encodeStr
  split
  · rename_i x
    rw [if_neg (h x rfl)]
    rfl
  · rfl

theorem encodeStr_cases (b : Bytes) :
    (∃ x, b = [x] ∧ x.toNat < 0x80 ∧ encodeStr b = [x]) ∨
      ((∀ x, b = [x] → ¬x.toNat < 0x80) ∧ encodeStr b = head 0x80 b.length ++ b) := by
  by_cases h : ∃ x, b = [x] ∧ x.toNat < 0x80
  · obtain ⟨x, rfl, hx⟩ := h
    exact Or.inl ⟨x, rfl, hx, encodeStr_small hx⟩
  · have h' : ∀ x, b = [x] → ¬x.toNat < 0x80 := fun x hx hlt => h ⟨x, hx, hlt⟩
    exact Or.inr ⟨h', encodeStr_eq h'⟩

theorem length_encode_pos (x : Rlp) : 0 < (encode x).length := by
  cases x with
  | str b =>
    rw [encode_str]
    rcases encodeStr_cases b with ⟨y, -, -, h⟩ | ⟨-, h⟩
    · rw [h]
      simp
    · rw [h, List.length_append]
      exact Nat.add_pos_left (length_head_pos _ _) _
  | list xs =>
    rw [encode_list, List.length_append]
    exact Nat.add_pos_left (length_head_pos _ _) _

/-! ### Decoding -/

/-- What a head announces: whether the item is a list, its payload, and the bytes
after it. -/
structure Announced where
  isList : Bool
  payload : Bytes
  rest : Bytes

/-- Cuts `n` bytes off the front, if there are that many. -/
def cut (isList : Bool) (n : ℕ) (bs : Bytes) : Option Announced :=
  if n ≤ bs.length then some ⟨isList, bs.take n, bs.drop n⟩ else none

/-- The payload of a long head: the length on `k` bytes, then that many bytes. The
length has no leading zero byte and does not fit the short form. -/
def cutLong (isList : Bool) (k : ℕ) (bs : Bytes) : Option Announced :=
  if bs.length < k then none
  else if (bs.take k).head? = some 0 then none
  else if ofBe (bs.take k) < 56 then none
  else cut isList (ofBe (bs.take k)) (bs.drop k)

/-- **Reads the head** of the item at the front of a byte string. -/
def decodeHead : Bytes → Option Announced
  | [] => none
  | b :: bs =>
    if b.toNat < 0x80 then some ⟨false, [b], bs⟩
    else if b.toNat ≤ 0xb7 then
      -- a head in front of one small byte is not canonical
      if b.toNat = 0x81 ∧ bs.head?.all (·.toNat < 0x80) then none
      else cut false (b.toNat - 0x80) bs
    else if b.toNat ≤ 0xbf then cutLong false (b.toNat - 0xb7) bs
    else if b.toNat ≤ 0xf7 then cut true (b.toNat - 0xc0) bs
    else cutLong true (b.toNat - 0xf7) bs

mutual

/-- Reads one item from the front of a byte string; the first argument bounds the
number of heads read. -/
def decodeFuel : ℕ → Bytes → Option (Rlp × Bytes)
  | 0, _ => none
  | fuel + 1, bs =>
    match decodeHead bs with
    | none => none
    | some a =>
      if a.isList then (decodeAllFuel fuel a.payload).map fun xs => (.list xs, a.rest)
      else some (.str a.payload, a.rest)

/-- Reads items until the byte string is used up. -/
def decodeAllFuel : ℕ → Bytes → Option (List Rlp)
  | 0, _ => none
  | fuel + 1, bs =>
    if bs = [] then some []
    else
      match decodeFuel fuel bs with
      | none => none
      | some (x, rest) => (decodeAllFuel fuel rest).map fun xs => x :: xs

end

/-- **The strict decoder**: one item from the front of a byte string, and the rest.
A byte string has fewer heads than three times its length, so the bound on the
heads is never met. -/
def decode (bs : Bytes) : Option (Rlp × Bytes) := decodeFuel (3 * bs.length) bs

/-! ### A written head is read back -/

theorem cut_append (isList : Bool) (p rest : Bytes) :
    cut isList p.length (p ++ rest) = some ⟨isList, p, rest⟩ := by
  simp [cut]

theorem cutLong_minBe (isList : Bool) {p : Bytes} (rest : Bytes) (h56 : 56 ≤ p.length)
    (h64 : p.length < 2 ^ 64) :
    cutLong isList (minBe p.length).length (minBe p.length ++ (p ++ rest)) =
      some ⟨isList, p, rest⟩ := by
  have hval : ofBe (minBe p.length) = p.length :=
    ofBe_minBe (h64.trans_le (by norm_num))
  have hhead : (minBe p.length).head? ≠ some 0 := by
    intro h0
    obtain ⟨bs, hbs⟩ := List.head?_eq_some_iff.mp h0
    exact head_minBe_ne_zero hbs rfl
  have htake : (minBe p.length ++ (p ++ rest)).take (minBe p.length).length = minBe p.length := by
    simp
  rw [cutLong, htake, hval, List.drop_left, if_neg (by simp), if_neg hhead, if_neg (by omega),
    cut_append]

/-- The byte of a head, as a number. -/
theorem toNat_headByte {n : ℕ} (h : n < 256) : (UInt8.ofNat n).toNat = n := by
  rw [UInt8.toNat_ofNat']
  omega

theorem length_minBe_le_eight {n : ℕ} (h : n < 2 ^ 64) : (minBe n).length ≤ 8 :=
  length_minBe_le (by norm_num) (by norm_num; exact h)

theorem length_minBe_pos {n : ℕ} (hpos : 0 < n) (h : n < 2 ^ 64) : 0 < (minBe n).length :=
  List.length_pos_iff.mpr (minBe_ne_nil hpos (h.trans_le (by norm_num)))

theorem decodeHead_list {p : Bytes} (rest : Bytes) (h64 : p.length < 2 ^ 64) :
    decodeHead (head 0xc0 p.length ++ (p ++ rest)) = some ⟨true, p, rest⟩ := by
  by_cases h : p.length < 56
  · have hb : (UInt8.ofNat (0xc0 + p.length)).toNat = 0xc0 + p.length :=
      toNat_headByte (by omega)
    rw [head, if_pos h, List.singleton_append, decodeHead]
    rw [hb, if_neg (by omega), if_neg (by omega), if_neg (by omega), if_pos (by omega),
      Nat.add_sub_cancel_left, cut_append]
  · have hk := length_minBe_le_eight h64
    have hk0 := length_minBe_pos (by omega : 0 < p.length) h64
    have hb : (UInt8.ofNat (0xc0 + 55 + (minBe p.length).length)).toNat =
        0xc0 + 55 + (minBe p.length).length := toNat_headByte (by omega)
    rw [head, if_neg h, List.cons_append, decodeHead]
    rw [hb, if_neg (by omega), if_neg (by omega), if_neg (by omega), if_neg (by omega),
      Nat.add_sub_cancel_left, cutLong_minBe true rest (by omega) h64]

theorem decodeHead_str (b rest : Bytes) (h64 : b.length < 2 ^ 64) :
    decodeHead (encodeStr b ++ rest) = some ⟨false, b, rest⟩ := by
  rcases encodeStr_cases b with ⟨x, rfl, hx, h⟩ | ⟨hbig, h⟩
  · rw [h, List.singleton_append, decodeHead, if_pos hx]
  · rw [h, List.append_assoc]
    by_cases hlen : b.length < 56
    · have hb : (UInt8.ofNat (0x80 + b.length)).toNat = 0x80 + b.length :=
        toNat_headByte (by omega)
      have hnot : ¬(0x80 + b.length = 0x81 ∧ (b ++ rest).head?.all (·.toNat < 0x80)) := by
        rintro ⟨h81, hsmall⟩
        obtain ⟨x, rfl⟩ := List.length_eq_one_iff.mp (show b.length = 1 by omega)
        exact hbig x rfl (of_decide_eq_true hsmall)
      rw [head, if_pos hlen, List.singleton_append, decodeHead, hb, if_neg (by omega),
        if_pos (by omega), if_neg hnot, Nat.add_sub_cancel_left, cut_append]
    · have hk := length_minBe_le_eight h64
      have hk0 := length_minBe_pos (by omega : 0 < b.length) h64
      have hb : (UInt8.ofNat (0x80 + 55 + (minBe b.length).length)).toNat =
          0x80 + 55 + (minBe b.length).length := toNat_headByte (by omega)
      rw [head, if_neg hlen, List.cons_append, decodeHead]
      rw [hb, if_neg (by omega), if_neg (by omega), if_pos (by omega), Nat.add_sub_cancel_left,
        cutLong_minBe false rest (by omega) h64]

/-! ### The round trip -/

mutual

/-- The number of heads the decoder has to be allowed for an item. -/
def heads : Rlp → ℕ
  | .str _ => 1
  | .list xs => 1 + headsAll xs

/-- The number of heads the decoder has to be allowed for a list of items. -/
def headsAll : List Rlp → ℕ
  | [] => 1
  | x :: xs => 1 + heads x + headsAll xs

end

mutual

theorem heads_lt : ∀ x : Rlp, heads x < 3 * (encode x).length
  | .str b => by
    have h := length_encode_pos (.str b)
    rw [heads]
    omega
  | .list xs => by
    have h := headsAll_le xs
    have hh := length_head_pos 0xc0 (encodeAll xs).length
    rw [heads, encode_list, List.length_append]
    omega

theorem headsAll_le : ∀ xs : List Rlp, headsAll xs ≤ 3 * (encodeAll xs).length + 1
  | [] => by simp [headsAll]
  | x :: xs => by
    have h := heads_lt x
    have ih := headsAll_le xs
    rw [headsAll, encodeAll_cons, List.length_append]
    omega

end

mutual

theorem decodeFuel_encode : ∀ (x : Rlp) (fuel : ℕ) (rest : Bytes), heads x ≤ fuel →
    (encode x).length < 2 ^ 64 → decodeFuel fuel (encode x ++ rest) = some (x, rest)
  | .str b, fuel, rest, hf, h64 => by
    obtain ⟨fuel, rfl⟩ : ∃ k, fuel = k + 1 := ⟨fuel - 1, by rw [heads] at hf; omega⟩
    have hb : b.length < 2 ^ 64 := by
      refine lt_of_le_of_lt ?_ h64
      rw [encode_str]
      rcases encodeStr_cases b with ⟨x, rfl, -, h⟩ | ⟨-, h⟩
      · rw [h]
      · rw [h]
        simp
    rw [encode_str, decodeFuel, decodeHead_str b rest hb]
    rfl
  | .list xs, fuel, rest, hf, h64 => by
    rw [heads] at hf
    obtain ⟨fuel, rfl⟩ : ∃ k, fuel = k + 1 := ⟨fuel - 1, by omega⟩
    have hp : (encodeAll xs).length < 2 ^ 64 := by
      rw [encode_list, List.length_append] at h64
      omega
    rw [encode_list, List.append_assoc, decodeFuel, decodeHead_list rest hp]
    simp [decodeAllFuel_encodeAll xs fuel (by omega) hp]

theorem decodeAllFuel_encodeAll : ∀ (xs : List Rlp) (fuel : ℕ), headsAll xs ≤ fuel →
    (encodeAll xs).length < 2 ^ 64 → decodeAllFuel fuel (encodeAll xs) = some xs
  | [], fuel, hf, _ => by
    obtain ⟨fuel, rfl⟩ : ∃ k, fuel = k + 1 := ⟨fuel - 1, by rw [headsAll] at hf; omega⟩
    simp [decodeAllFuel]
  | x :: xs, fuel, hf, h64 => by
    rw [headsAll] at hf
    obtain ⟨fuel, rfl⟩ : ∃ k, fuel = k + 1 := ⟨fuel - 1, by omega⟩
    have hpos := length_encode_pos x
    rw [encodeAll_cons, List.length_append] at h64
    have hne : encode x ++ encodeAll xs ≠ [] := by
      intro h0
      rw [List.append_eq_nil_iff] at h0
      simp [h0.1] at hpos
    rw [encodeAll_cons, decodeAllFuel, if_neg hne,
      decodeFuel_encode x fuel (encodeAll xs) (by omega) (by omega)]
    simp [decodeAllFuel_encodeAll xs fuel (by omega) (by omega)]

end

/-- **The round trip**: an item is read back, and the bytes after it are left. -/
theorem decode_encode (x : Rlp) (rest : Bytes) (h64 : (encode x).length < 2 ^ 64) :
    decode (encode x ++ rest) = some (x, rest) := by
  refine decodeFuel_encode x _ rest ?_ h64
  have h := heads_lt x
  rw [List.length_append]
  omega

/-- The coding of a list starts with a byte from `0xc0` on. -/
theorem encode_list_head (xs : List Rlp) (h64 : (encodeAll xs).length < 2 ^ 64) :
    ∃ b bs, encode (.list xs) = b :: bs ∧ 0xc0 ≤ b.toNat := by
  rw [encode_list]
  by_cases h : (encodeAll xs).length < 56
  · rw [head, if_pos h]
    exact ⟨_, _, rfl, by rw [toNat_headByte (by omega)]; omega⟩
  · have hk := length_minBe_le_eight h64
    rw [head, if_neg h]
    exact ⟨_, _, rfl, by rw [toNat_headByte (by omega)]; omega⟩

/-! ### Lengths -/

/-- The length of the head of a payload. -/
def lengthOfLength (payloadLength : ℕ) : ℕ :=
  if payloadLength < 56 then 1 else 1 + 8 - (63 - Nat.log2 payloadLength) / 8

/-- The number of bytes of a number. -/
theorem length_minBe_eq {n : ℕ} (hpos : 0 < n) (h : n < 2 ^ 64) :
    (minBe n).length = Nat.log2 n / 8 + 1 := by
  have hne : n ≠ 0 := Nat.pos_iff_ne_zero.mp hpos
  have hlow : 2 ^ Nat.log2 n ≤ n := Nat.log2_self_le hne
  have hhigh : n < 2 ^ (Nat.log2 n + 1) := Nat.lt_log2_self
  have hpow : ∀ k, (256 : ℕ) ^ k = 2 ^ (8 * k) := fun k => (Nat.pow_mul 2 8 k).symm
  have hle : Nat.log2 n < 64 := (Nat.pow_lt_pow_iff_right (by decide)).mp (hlow.trans_lt h)
  refine Nat.le_antisymm ?_ ?_
  · refine length_minBe_le (by omega) ?_
    rw [hpow]
    exact hhigh.trans_le (Nat.pow_le_pow_right (by decide) (by omega))
  · have hbig : n < 256 ^ 32 := h.trans_le (by decide)
    have hlt := ofBe_lt (minBe n)
    rw [ofBe_minBe hbig, hpow] at hlt
    have hbits := (Nat.pow_lt_pow_iff_right (by decide)).mp (hlow.trans_lt hlt)
    omega

/-- The head of a payload has the length that is computed. -/
theorem length_head_eq (base : ℕ) {n : ℕ} (h : n < 2 ^ 64) :
    (head base n).length = lengthOfLength n := by
  rw [head, lengthOfLength]
  by_cases hshort : n < 56
  · rw [if_pos hshort, if_pos hshort]
    rfl
  · have hpos : 0 < n := by omega
    have hle : Nat.log2 n < 64 := (Nat.log2_lt (Nat.pos_iff_ne_zero.mp hpos)).mpr h
    rw [if_neg hshort, if_neg hshort, List.length_cons, length_minBe_eq hpos h]
    omega

/-- A coded list, as its payload says. -/
theorem length_encode_list_eq {xs : List Rlp} (h : (encodeAll xs).length < 2 ^ 64) :
    (encode (.list xs)).length =
      lengthOfLength (encodeAll xs).length + (encodeAll xs).length := by
  rw [encode_list, List.length_append, length_head_eq 0xc0 h]

theorem length_encodeAll_lt (xs : List Rlp) :
    (encodeAll xs).length < (encode (.list xs)).length := by
  rw [encode_list, List.length_append]
  exact Nat.lt_add_of_pos_left (length_head_pos _ _)

end Rlp

/-! ### Codecs -/

/-- A coding of a type through items: `ofRlp` undoes `toRlp`. -/
structure RlpCodec (α : Type) where
  /-- The item of a value. -/
  toRlp : α → Rlp
  /-- The value of an item, if it has one. -/
  ofRlp : Rlp → Option α
  /-- A value is recovered from its item. -/
  ofRlp_toRlp : ∀ a, ofRlp (toRlp a) = some a

namespace RlpCodec

variable {α : Type} (c : RlpCodec α)

/-- The bytes of a value. -/
def encode (a : α) : Bytes := (c.toRlp a).encode

/-- Reads a value from the front of a byte string; the bytes after it are not
looked at. -/
def decode (bs : Bytes) : Option α := (Rlp.decode bs).bind fun p => c.ofRlp p.1

/-- **The round trip** of a codec. -/
theorem decode_encode (a : α) (rest : Bytes) (h64 : (c.encode a).length < 2 ^ 64) :
    c.decode (c.encode a ++ rest) = some a := by
  rw [decode, encode, Rlp.decode_encode _ rest h64]
  exact c.ofRlp_toRlp a

theorem decode_encode_self (a : α) (h64 : (c.encode a).length < 2 ^ 64) :
    c.decode (c.encode a) = some a := by
  have h := c.decode_encode a [] h64
  rwa [List.append_nil] at h

/-- Byte strings are their own items. -/
def bytes : RlpCodec Bytes where
  toRlp b := .str b
  ofRlp
    | .str b => some b
    | .list _ => none
  ofRlp_toRlp _ := rfl

/-- Byte strings of length `n`. -/
def fixed (n : ℕ) : RlpCodec (FixedBytes n) where
  toRlp b := .str b.1
  ofRlp
    | .str b => if h : b.length = n then some ⟨b, h⟩ else none
    | .list _ => none
  ofRlp_toRlp b := by simp [b.2]

/-- The item of a number: its minimal coding. -/
def natToRlp (n : ℕ) : Rlp := .str (minBe n)

/-- The number of an item, on at most `w` bytes and without a leading zero. -/
def natOfRlp (w : ℕ) : Rlp → Option ℕ
  | .str b => if b.head? = some 0 then none else if b.length ≤ w then some (ofBe b) else none
  | .list _ => none

theorem natOfRlp_natToRlp {w n : ℕ} (hw : w ≤ 32) (h : n < 256 ^ w) :
    natOfRlp w (natToRlp n) = some n := by
  have hhead : (minBe n).head? ≠ some 0 := by
    intro h0
    obtain ⟨bs, hbs⟩ := List.head?_eq_some_iff.mp h0
    exact head_minBe_ne_zero hbs rfl
  have hn : n < 256 ^ 32 := h.trans_le (Nat.pow_le_pow_right (by omega) hw)
  rw [natToRlp, natOfRlp, if_neg hhead, if_pos (length_minBe_le hw h), ofBe_minBe hn]

/-- Numbers on one byte. -/
def uint8 : RlpCodec UInt8 where
  toRlp n := natToRlp n.toNat
  ofRlp i := (natOfRlp 1 i).map UInt8.ofNat
  ofRlp_toRlp n := by
    rw [natOfRlp_natToRlp (by omega) (by simpa using n.toNat_lt)]
    simp

/-- Numbers on four bytes. -/
def uint32 : RlpCodec UInt32 where
  toRlp n := natToRlp n.toNat
  ofRlp i := (natOfRlp 4 i).map UInt32.ofNat
  ofRlp_toRlp n := by
    rw [natOfRlp_natToRlp (by omega) (by simpa using n.toNat_lt)]
    simp

/-- Numbers on eight bytes. -/
def uint64 : RlpCodec UInt64 where
  toRlp n := natToRlp n.toNat
  ofRlp i := (natOfRlp 8 i).map UInt64.ofNat
  ofRlp_toRlp n := by
    rw [natOfRlp_natToRlp (by omega) (by simpa using n.toNat_lt)]
    simp

/-- Numbers on thirty-two bytes. -/
def uint256 : RlpCodec (BitVec 256) where
  toRlp n := natToRlp n.toNat
  ofRlp i := (natOfRlp 32 i).map (BitVec.ofNat 256)
  ofRlp_toRlp n := by
    rw [natOfRlp_natToRlp (by omega) (lt_of_lt_of_eq n.isLt (by norm_num))]
    simp

/-- Truth values, coded as the numbers one and zero. -/
def bool : RlpCodec Bool where
  toRlp b := natToRlp b.toNat
  ofRlp i := (natOfRlp 1 i).bind fun n =>
    if n = 0 then some false else if n = 1 then some true else none
  ofRlp_toRlp b := by
    cases b
    · rw [natOfRlp_natToRlp (by omega) (by decide)]
      rfl
    · rw [natOfRlp_natToRlp (by omega) (by decide)]
      rfl

theorem mapM_ofRlp_map_toRlp (as : List α) : (as.map c.toRlp).mapM c.ofRlp = some as := by
  induction as with
  | nil => rfl
  | cons a as ih => simp [ih, c.ofRlp_toRlp]

/-- Lists of values. -/
def vec : RlpCodec (List α) where
  toRlp as := .list (as.map c.toRlp)
  ofRlp
    | .list xs => xs.mapM c.ofRlp
    | .str _ => none
  ofRlp_toRlp as := c.mapM_ofRlp_map_toRlp as

/-- The codings of a list of values. -/
theorem length_encodeAll_map (as : List α) :
    (Rlp.encodeAll (as.map c.toRlp)).length =
      (as.map fun a => (c.encode a).length).sum := by
  induction as with
  | nil => rfl
  | cons a as ih =>
    rw [List.map_cons, Rlp.encodeAll_cons, List.length_append, ih]
    rfl

/-- The items of a trailing optional field: none if it is absent. -/
def trailing : Option α → List Rlp
  | none => []
  | some a => [c.toRlp a]

/-- Reads a trailing optional field. Nothing, or the empty string in its place, is an
absent field. -/
def ofTrailing : List Rlp → Option (Option α)
  | [] => some none
  | [.str []] => some none
  | [x] => (c.ofRlp x).map some
  | _ => none

theorem ofTrailing_some {a : α} (h : c.toRlp a ≠ .str []) :
    c.ofTrailing (c.trailing (some a)) = some (some a) := by
  have hread := c.ofRlp_toRlp a
  rw [trailing]
  generalize c.toRlp a = x at h hread
  rcases x with (_ | b) | xs
  · exact absurd rfl h
  · simp [ofTrailing, hread]
  · simp [ofTrailing, hread]

/-- **A trailing optional field is read back**, unless its value is coded by the empty
string. -/
theorem ofTrailing_trailing {o : Option α} (h : ∀ a ∈ o, c.toRlp a ≠ .str []) :
    c.ofTrailing (c.trailing o) = some o := by
  cases o with
  | none => rfl
  | some a => exact c.ofTrailing_some (h a rfl)

end RlpCodec

end MonadServices
