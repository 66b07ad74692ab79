import MonadServices.Lib.Hex
import MonadServices.Rpc.JsonSerializedLen

/-!
# References to blocks

A request names a block by a tag, by its number or by its hash; as a string, or as an object with a
field for numbers and tags and another one for hashes. Numbers and hashes share the prefix `0x` and
the digits, and a string is first read as a tag or a number and then as a hash.

**No string is both**: a number has no leading zeros and fits in 64 bits, a hash has 64 digits
(`MonadServices.Rpc.BlockTags.fromStr_of_hash`). What is written for a number or a hash is read as
this, and an object is read like the string in it
(`MonadServices.Rpc.BlockReference.unambiguous`).
-/

namespace MonadServices

namespace Rpc

/-! ### Hexadecimal strings -/

namespace Ethhex

inductive EthHexDecodeError where
  | invalidLen
  | parseErr
  deriving DecidableEq

/-- `str::strip_prefix` for `0x`. -/
def stripPrefix (s : String) : Option (List Char) :=
  match s.toList with
  | '0' :: 'x' :: cs => some cs
  | _ => none

/-- `ethhex::decode_bytes`. The length is that in bytes: what is not a digit may take several. -/
def decodeBytes (s : String) : Except EthHexDecodeError Bytes :=
  if s.isEmpty then .error .invalidLen
  else match stripPrefix s with
    | none => .error .parseErr
    | some digits =>
      if (digits.map Char.utf8Size).sum % 2 = 1 then .error .invalidLen
      else match Hex.decode digits with
        | none => .error .parseErr
        | some bytes => .ok bytes

/-- `u64::from_str_radix` in base 16. A sign may come first. -/
def fromStrRadix : List Char → Option UInt64
  | [] => none
  | ['+'] | ['-'] => none
  | '+' :: cs | cs => (Hex.parse UInt64.size 0 cs).map UInt64.ofNat

/-- `ethhex::decode_quantity`. -/
def decodeQuantity (s : String) : Except EthHexDecodeError UInt64 :=
  if s.isEmpty then .error .invalidLen
  else match stripPrefix s with
    | none => .error .parseErr
    | some [] => .error .parseErr
    | some (c :: cs) =>
      if c = '0' then
        match cs with
        | [] => .ok 0
        | _ :: _ => .error .parseErr
      else if c = '+' ∨ c = '-' then .error .parseErr
      else match fromStrRadix (c :: cs) with
        | none => .error .parseErr
        | some n => .ok n

/-! ### What is accepted -/

section Accepted

variable {s : String} {n : UInt64} {cs : List Char} {bytes : Bytes}

theorem stripPrefix_eq_some : stripPrefix s = some cs ↔ s.toList = '0' :: 'x' :: cs := by
  unfold stripPrefix
  split
  · rename_i cs' h
    rw [h, Option.some.injEq]
    exact ⟨fun heq => heq ▸ rfl, fun heq => (List.cons.inj (List.cons.inj heq).2).2⟩
  · rename_i h
    exact ⟨fun heq => (by cases heq), fun heq => absurd heq (h cs)⟩

theorem isEmpty_of_stripPrefix (h : stripPrefix s = some cs) : s.isEmpty = false := by
  rw [stripPrefix_eq_some] at h
  rw [← Bool.not_eq_true, String.isEmpty_iff]
  rintro rfl
  cases h

/-- The strings for the number `n`: `0x0`, or digits of which the first one is not zero. -/
def IsQuantity (s : String) (n : UInt64) : Prop :=
  (s = "0x0" ∧ n = 0) ∨
    ∃ c cs, s.toList = '0' :: 'x' :: c :: cs ∧ c ≠ '0' ∧ Hex.AllDigits (c :: cs) ∧
      Hex.value (c :: cs) = n.toNat

/-- Digits that are read. -/
theorem fromStrRadix_eq_some {c : Char} (hplus : c ≠ '+') (hminus : c ≠ '-') :
    fromStrRadix (c :: cs) = some n ↔
      Hex.AllDigits (c :: cs) ∧ Hex.value (c :: cs) = n.toNat := by
  have hparse : fromStrRadix (c :: cs) =
      (Hex.parse UInt64.size 0 (c :: cs)).map UInt64.ofNat := by
    unfold fromStrRadix
    split
    · rename_i h
      cases h
    · rename_i h
      exact absurd (List.cons.inj h).1 hplus
    · rename_i h
      exact absurd (List.cons.inj h).1 hminus
    · rename_i h
      exact absurd (List.cons.inj h).1 hplus
    · rfl
  rw [hparse, Option.map_eq_some_iff]
  constructor
  · rintro ⟨k, hk, rfl⟩
    obtain ⟨hall, hvalue, hlt⟩ := (Hex.parse_eq_some (by decide)).mp hk
    exact ⟨hall, hvalue.trans (UInt64.toNat_ofNat_of_lt' hlt).symm⟩
  · rintro ⟨hall, hvalue⟩
    exact ⟨n.toNat, (Hex.parse_eq_some (by decide)).mpr ⟨hall, hvalue, n.toNat_lt⟩,
      UInt64.ofNat_toNat⟩

/-- What `IsQuantity` says of the characters after the prefix. -/
theorem isQuantity_iff (h : stripPrefix s = some cs) :
    IsQuantity s n ↔ (cs = ['0'] ∧ n = 0) ∨
      ∃ c cs', cs = c :: cs' ∧ c ≠ '0' ∧ Hex.AllDigits (c :: cs') ∧
        Hex.value (c :: cs') = n.toNat := by
  rw [stripPrefix_eq_some] at h
  have hzero : s = "0x0" ↔ cs = ['0'] := by
    rw [← String.toList_inj, h]
    exact ⟨fun heq => (List.cons.inj (List.cons.inj heq).2).2, fun heq => heq ▸ rfl⟩
  have hcons : ∀ c cs', s.toList = '0' :: 'x' :: c :: cs' ↔ cs = c :: cs' := by
    intro c cs'
    rw [h]
    exact ⟨fun heq => (List.cons.inj (List.cons.inj heq).2).2, fun heq => heq ▸ rfl⟩
  simp only [IsQuantity, hzero, hcons]

theorem exists_stripPrefix_of_isQuantity (h : IsQuantity s n) : ∃ cs, stripPrefix s = some cs := by
  obtain ⟨rfl, -⟩ | ⟨c, cs, hs, -⟩ := h
  · exact ⟨['0'], rfl⟩
  · exact ⟨c :: cs, stripPrefix_eq_some.mpr hs⟩

/-- **The numbers that are accepted.** -/
theorem decodeQuantity_eq_ok : decodeQuantity s = .ok n ↔ IsQuantity s n := by
  rcases hprefix : stripPrefix s with _ | _ | ⟨c, cs⟩
  · have hnot : ¬IsQuantity s n := fun h => by
      obtain ⟨cs, hcs⟩ := exists_stripPrefix_of_isQuantity h
      cases hprefix.symm.trans hcs
    rw [decodeQuantity, hprefix, iff_false_right hnot]
    split <;> exact fun h => (by cases h)
  · rw [isQuantity_iff hprefix, decodeQuantity, isEmpty_of_stripPrefix hprefix, hprefix]
    simp
  · rw [isQuantity_iff hprefix, decodeQuantity, isEmpty_of_stripPrefix hprefix, hprefix,
      if_neg Bool.false_ne_true]
    simp only [List.cons.injEq]
    by_cases hzero : c = '0'
    · subst hzero
      rw [if_pos rfl]
      cases cs with
      | nil => simp [eq_comm]
      | cons d cs => simp
    · rw [if_neg hzero]
      by_cases hsign : c = '+' ∨ c = '-'
      · -- A sign is not a digit.
        have hdigit : Hex.digit c = none := by
          obtain rfl | rfl := hsign <;> rfl
        rw [if_pos hsign]
        simp [hzero, Hex.AllDigits, hdigit]
      · obtain ⟨hplus, hminus⟩ := not_or.mp hsign
        have hread := @fromStrRadix_eq_some n cs c hplus hminus
        rw [if_neg hsign]
        cases hradix : fromStrRadix (c :: cs) with
        | none =>
          rw [hradix] at hread
          simpa [hzero] using hread
        | some m =>
          rw [hradix, Option.some.injEq] at hread
          simpa [hzero] using hread

theorem decodeQuantity_hexNumber (n : UInt64) : decodeQuantity (hexNumber n.toNat) = .ok n := by
  have hprefix : stripPrefix (hexNumber n.toNat) = some (Nat.toDigits 16 n.toNat) := by
    rw [stripPrefix_eq_some, hexNumber, String.toList_ofList]
  rw [decodeQuantity_eq_ok, isQuantity_iff hprefix]
  obtain hzero | hpos := Nat.eq_zero_or_pos n.toNat
  · refine .inl ⟨by rw [hzero]; rfl, ?_⟩
    exact UInt64.toNat_inj.mp hzero
  · obtain ⟨c, cs, hcons⟩ := List.exists_cons_of_ne_nil (@Nat.toDigits_ne_nil n.toNat 16)
    refine .inr ⟨c, cs, hcons, fun hc => ?_, ?_, ?_⟩
    · have hhead := Hex.head_toDigits_ne_zero hpos
      rw [hcons, hc] at hhead
      exact hhead rfl
    · exact hcons ▸ Hex.allDigits_toDigits n.toNat
    · rw [← hcons]
      exact Hex.value_toDigits n.toNat

/-- **Bytes that are written are read back.** -/
theorem decodeBytes_encodeBytes (bytes : Bytes) : decodeBytes (encodeBytes bytes) = .ok bytes := by
  have hprefix : stripPrefix (encodeBytes bytes) = some (bytes.flatMap Hex.pair) := by
    rw [stripPrefix_eq_some, encodeBytes, String.toList_ofList]
    rfl
  have heven : ((bytes.flatMap Hex.pair).map Char.utf8Size).sum % 2 ≠ 1 := by
    rw [Hex.sum_utf8Size (Hex.allDigits_pairs bytes), Hex.length_pairs]
    omega
  rw [decodeBytes, isEmpty_of_stripPrefix hprefix, hprefix, if_neg Bool.false_ne_true]
  simp only [if_neg heven, Hex.decode_pairs]

/-- What is read as bytes has two digits for each byte. -/
theorem exists_stripPrefix_of_decodeBytes (h : decodeBytes s = .ok bytes) :
    ∃ cs, stripPrefix s = some cs ∧ Hex.AllDigits cs ∧ cs.length = 2 * bytes.length := by
  unfold decodeBytes at h
  split at h
  · cases h
  · split at h
    · cases h
    · rename_i cs hprefix
      split at h
      · cases h
      · split at h
        · cases h
        · rename_i bytes' hdecode
          obtain rfl := Except.ok.inj h
          exact ⟨cs, hprefix, Hex.allDigits_of_decode hdecode⟩

/-- **What is read as more than eight bytes is not a number.** -/
theorem decodeQuantity_ne_ok (h : decodeBytes s = .ok bytes) (hlen : 8 < bytes.length) :
    decodeQuantity s ≠ .ok n := by
  obtain ⟨cs, hprefix, hall, hdigits⟩ := exists_stripPrefix_of_decodeBytes h
  rw [Ne, decodeQuantity_eq_ok, isQuantity_iff hprefix]
  rintro (⟨rfl, -⟩ | ⟨c, cs, rfl, hc, -, hvalue⟩)
  · rw [List.length_singleton] at hdigits
    omega
  · obtain ⟨d, hd⟩ := Option.isSome_iff_exists.mp (hall c List.mem_cons_self)
    have hpos : 1 ≤ d := Nat.pos_of_ne_zero fun hzero => hc (Hex.eq_of_digit_eq_zero (hzero ▸ hd))
    rw [List.length_cons] at hdigits
    have hfrom : Hex.value (c :: cs) = Hex.valueFrom d cs := by
      rw [Hex.value, Hex.valueFrom, List.foldl_cons, hd]
      exact congrArg (Hex.valueFrom · cs) (Nat.zero_add d)
    have hle : 16 ^ 17 ≤ n.toNat :=
      calc 16 ^ 17 ≤ 16 ^ cs.length := Nat.pow_le_pow_right (by decide) (by omega)
        _ ≤ d * 16 ^ cs.length := Nat.le_mul_of_pos_left _ hpos
        _ ≤ Hex.valueFrom d cs := Hex.mul_pow_le_valueFrom d cs
        _ = n.toNat := hfrom ▸ hvalue
    exact absurd (hle.trans_lt n.toNat_lt) (by decide)

end Accepted

end Ethhex

/-! ### Tags, numbers and hashes -/

open Ethhex

/-- `FixedData::from_str`. -/
def FixedData.fromStr {n : ℕ} (s : String) : Except EthHexDecodeError (FixedData n) :=
  match decodeBytes s with
  | .error e => .error e
  | .ok d => if h : d.length = n then .ok ⟨⟨d, h⟩⟩ else .error .invalidLen

inductive BlockTags where
  | number (n : Quantity)
  | latest
  | safe
  | finalized

/-- `BlockTags::from_str`. -/
def BlockTags.fromStr (s : String) : Except EthHexDecodeError BlockTags :=
  if s = "earliest" then .ok (.number ⟨0⟩)
  else if s = "latest" then .ok .latest
  else if s = "safe" then .ok .safe
  else if s = "finalized" then .ok .finalized
  else if s = "pending" then .ok .latest
  else match decodeQuantity s with
    | .error e => .error e
    | .ok q => .ok (.number ⟨q⟩)

abbrev EthHash := FixedData 32

inductive BlockTagOrHash where
  | blockTags (tags : BlockTags)
  | hash (hash : EthHash)

/-- What begins with the prefix is not a tag. -/
theorem BlockTags.fromStr_of_stripPrefix {s : String} {cs : List Char}
    (h : stripPrefix s = some cs) :
    BlockTags.fromStr s =
      match decodeQuantity s with
      | .error e => .error e
      | .ok q => .ok (.number ⟨q⟩) := by
  have hne : ∀ tag : String, stripPrefix tag = none → s ≠ tag := fun tag htag heq => by
    cases (heq ▸ htag).symm.trans h
  rw [BlockTags.fromStr, if_neg (hne _ rfl), if_neg (hne _ rfl), if_neg (hne _ rfl),
    if_neg (hne _ rfl), if_neg (hne _ rfl)]

theorem BlockTags.fromStr_hexNumber (n : UInt64) :
    BlockTags.fromStr (hexNumber n.toNat) = .ok (.number ⟨n⟩) := by
  have hprefix : stripPrefix (hexNumber n.toNat) = some (Nat.toDigits 16 n.toNat) := by
    rw [stripPrefix_eq_some, hexNumber, String.toList_ofList]
  rw [BlockTags.fromStr_of_stripPrefix hprefix, decodeQuantity_hexNumber]

theorem FixedData.fromStr_encodeBytes {n : ℕ} (data : FixedData n) :
    FixedData.fromStr (encodeBytes data.data.1) = .ok data := by
  rw [FixedData.fromStr, decodeBytes_encodeBytes]
  exact dif_pos data.data.2

/-- The bytes of what is read. -/
theorem FixedData.decodeBytes_of_fromStr {n : ℕ} {s : String} {data : FixedData n}
    (h : FixedData.fromStr s = .ok data) : decodeBytes s = .ok data.data.1 := by
  unfold FixedData.fromStr at h
  split at h
  · cases h
  · rename_i d hd
    split at h
    · obtain rfl := Except.ok.inj h
      exact hd
    · cases h

/-- **What is read as a hash is neither a tag nor a number.** -/
theorem BlockTags.fromStr_of_hash {s : String} {hash : EthHash}
    (h : FixedData.fromStr s = .ok hash) : ∃ e, BlockTags.fromStr s = .error e := by
  have hbytes := FixedData.decodeBytes_of_fromStr h
  obtain ⟨cs, hprefix, -⟩ := exists_stripPrefix_of_decodeBytes hbytes
  have hlen : 8 < hash.data.1.length := by
    rw [hash.data.2]
    decide
  rw [BlockTags.fromStr_of_stripPrefix hprefix]
  cases hq : decodeQuantity s with
  | error e => exact ⟨e, rfl⟩
  | ok n => exact absurd hq (decodeQuantity_ne_ok hbytes hlen)

namespace BlockReference

/-! ### Reading a reference -/

/-- Reads a tag or a number. -/
def deserializeTags : Json → Option BlockTags
  | .str s => (BlockTags.fromStr s).toOption
  | _ => none

/-- Reads a hash. -/
def deserializeHash : Json → Option EthHash
  | .str s => (FixedData.fromStr s).toOption
  | _ => none

/-- Reads a value that may be `null`. -/
def deserializeOption {α : Type} (deserialize : Json → Option α) : Json → Option (Option α)
  | .null => some none
  | value => (deserialize value).map some

/-- A field that may be left out, but that does not occur twice. -/
def readField {α : Type} (fields : List (String × Json)) (name : String) (missing : α)
    (deserialize : Json → Option α) : Option α :=
  match fields.filter fun field => field.1 = name with
  | [] => some missing
  | [field] => deserialize field.2
  | _ => none

def deserializeBool : Json → Option Bool
  | .bool value => some value
  | _ => none

/-- `BlockTagOrHashHelper`. -/
inductive BlockTagOrHashHelper where
  | blockTags (tags : BlockTags)
  | hash (hash : EthHash)
  | object (tags : Option BlockTags) (hash : Option EthHash) (requireCanonical : Bool)

/-- The fields of the object. -/
def deserializeObject : Json → Option BlockTagOrHashHelper
  | .obj fields => do
    let tags ← readField fields "blockNumber" none (deserializeOption deserializeTags)
    let hash ← readField fields "blockHash" none (deserializeOption deserializeHash)
    let requireCanonical ← readField fields "requireCanonical" false deserializeBool
    return .object tags hash requireCanonical
  | _ => none

/-- The first variant that can be read. -/
def deserializeHelper (json : Json) : Option BlockTagOrHashHelper :=
  ((deserializeTags json).map .blockTags).or
    (((deserializeHash json).map .hash).or (deserializeObject json))

/-- `BlockTagOrHash::deserialize`. -/
def deserialize (json : Json) : Except String BlockTagOrHash :=
  match deserializeHelper json with
  | none => .error "data did not match any variant of untagged enum BlockTagOrHashHelper"
  | some (.blockTags tags) => .ok (.blockTags tags)
  | some (.hash hash) => .ok (.hash hash)
  | some (.object (some tags) none _) => .ok (.blockTags tags)
  | some (.object none (some hash) _) => .ok (.hash hash)
  | some (.object (some _) (some _) _) => .error "cannot specify both blockNumber and blockHash"
  | some (.object none none _) => .error "expected blockNumber or blockHash"

/-! ### Strings -/

section Strings

variable {s : String} {tags : BlockTags} {hash : EthHash}

/-- A string is read as a tag or a number if it can be. -/
theorem deserialize_str_tags (h : BlockTags.fromStr s = .ok tags) :
    deserialize (.str s) = .ok (.blockTags tags) := by
  have htags : deserializeTags (.str s) = some tags := congrArg Except.toOption h
  rw [deserialize, deserializeHelper, htags]
  rfl

/-- A string is read as a hash if it can be. -/
theorem deserialize_str_hash (h : FixedData.fromStr s = .ok hash) :
    deserialize (.str s) = .ok (.hash hash) := by
  obtain ⟨e, he⟩ := BlockTags.fromStr_of_hash h
  have htags : deserializeTags (.str s) = none := congrArg Except.toOption he
  have hhash : deserializeHash (.str s) = some hash := congrArg Except.toOption h
  rw [deserialize, deserializeHelper, htags, hhash]
  rfl

/-- No other string is read. -/
theorem deserialize_str_iff {r : BlockTagOrHash} :
    deserialize (.str s) = .ok r ↔
      (∃ tags, BlockTags.fromStr s = .ok tags ∧ r = .blockTags tags) ∨
        ∃ hash, FixedData.fromStr s = .ok hash ∧ r = .hash hash := by
  constructor
  · intro h
    cases htags : BlockTags.fromStr s with
    | ok tags =>
      exact .inl ⟨tags, rfl, (Except.ok.inj ((deserialize_str_tags htags).symm.trans h)).symm⟩
    | error e =>
      cases hhash : FixedData.fromStr (n := 32) s with
      | ok hash =>
        exact .inr ⟨hash, rfl, (Except.ok.inj ((deserialize_str_hash hhash).symm.trans h)).symm⟩
      | error e' =>
        have hnotags : deserializeTags (.str s) = none := congrArg Except.toOption htags
        have hnohash : deserializeHash (.str s) = none := congrArg Except.toOption hhash
        rw [deserialize, deserializeHelper, hnotags, hnohash] at h
        cases h
  · rintro (⟨tags, h, rfl⟩ | ⟨hash, h, rfl⟩)
    · exact deserialize_str_tags h
    · exact deserialize_str_hash h

end Strings

/-! ### Objects -/

section Objects

variable {fields : List (String × Json)} {s : String} {r : BlockTagOrHash}

/-- The field `name` is not given: it is not there, or it is `null`. -/
def NotGiven (fields : List (String × Json)) (name : String) : Prop :=
  ∀ field ∈ fields, field.1 = name → field.2 = .null

/-- The field `name` has the value `value`, and occurs once. -/
def Field (fields : List (String × Json)) (name : String) (value : Json) : Prop :=
  (fields.filter fun field => field.1 = name) = [(name, value)]

/-- **An object with a string for the field `name` only.** The field `requireCanonical` may be
there, and so may others that are not known. -/
structure Only (fields : List (String × Json)) (name other : String) (s : String) : Prop where
  field : Field fields name (.str s)
  other : (fields.filter fun field => field.1 = other) = [] ∨ Field fields other .null
  canonical : (readField fields "requireCanonical" false deserializeBool).isSome = true

theorem mem_filter_name {name : String} {field : String × Json} :
    field ∈ (fields.filter fun field => field.1 = name) ↔ field ∈ fields ∧ field.1 = name := by
  rw [List.mem_filter, decide_eq_true_eq]

/-- What a field is read as that may be `null`. -/
theorem readField_option {α : Type} {f : Json → Option α} {name : String} {a : Option α}
    (h : readField fields name none (deserializeOption f) = some a) :
    (a = none ∧ NotGiven fields name) ∨
      ∃ value x, Field fields name value ∧ value ≠ .null ∧ a = some x := by
  unfold readField at h
  split at h
  · rename_i hnone
    refine .inl ⟨(Option.some.inj h).symm, fun field hfield hname => ?_⟩
    have hmem : field ∈ (fields.filter fun field => field.1 = name) :=
      mem_filter_name.mpr ⟨hfield, hname⟩
    rw [hnone] at hmem
    cases hmem
  · rename_i field hone
    have hname : field.1 = name := by
      have hmem : field ∈ (fields.filter fun field => field.1 = name) := by
        rw [hone]
        exact List.mem_singleton_self field
      exact (mem_filter_name.mp hmem).2
    by_cases hnull : field.2 = .null
    · rw [hnull] at h
      refine .inl ⟨(Option.some.inj h).symm, fun field' hfield' hname' => ?_⟩
      have hmem : field' ∈ (fields.filter fun field => field.1 = name) :=
        mem_filter_name.mpr ⟨hfield', hname'⟩
      rw [hone, List.mem_singleton] at hmem
      rw [hmem, hnull]
    · refine .inr ⟨field.2, ?_⟩
      have hmap : deserializeOption f field.2 = (f field.2).map some := by
        unfold deserializeOption
        split
        · rename_i heq
          exact absurd heq hnull
        · rfl
      rw [hmap] at h
      obtain ⟨x, -, rfl⟩ := Option.map_eq_some_iff.mp h
      refine ⟨x, ?_, hnull, rfl⟩
      rw [Field, hone, ← hname]
  · cases h

theorem readField_of_only {α : Type} {f : Json → Option α} {name other : String}
    (h : Only fields name other s) :
    readField fields name none (deserializeOption f) = (f (.str s)).map some := by
  rw [readField, show (fields.filter fun field => field.1 = name) = _ from h.field]
  rfl

theorem readField_other_of_only {α : Type} {f : Json → Option α} {name other : String}
    (h : Only fields name other s) :
    readField fields other none (deserializeOption f) = some none := by
  obtain hother | hother := h.other
  · rw [readField, hother]
  · rw [readField, show (fields.filter fun field => field.1 = other) = _ from hother]
    rfl

/-- An object is read by its fields. -/
theorem deserialize_obj :
    deserialize (.obj fields) =
      match deserializeObject (.obj fields) with
      | none => .error "data did not match any variant of untagged enum BlockTagOrHashHelper"
      | some (.object (some tags) none _) => .ok (.blockTags tags)
      | some (.object none (some hash) _) => .ok (.hash hash)
      | some (.object (some _) (some _) _) =>
        .error "cannot specify both blockNumber and blockHash"
      | some (.object none none _) => .error "expected blockNumber or blockHash"
      | some (.blockTags tags) => .ok (.blockTags tags)
      | some (.hash hash) => .ok (.hash hash) := by
  have hhelper : deserializeHelper (.obj fields) = deserializeObject (.obj fields) := rfl
  rw [deserialize, hhelper]
  rcases deserializeObject (.obj fields) with _ | _ | _ | ⟨_ | _, _ | _, _⟩ <;> rfl

/-- **An object with a number or a tag is read like the string.** -/
theorem deserialize_obj_number (h : Only fields "blockNumber" "blockHash" s) :
    deserialize (.obj fields) = .ok r ↔
      deserialize (.str s) = .ok r ∧ ∃ tags, r = .blockTags tags := by
  obtain ⟨canonical, hcanonical⟩ := Option.isSome_iff_exists.mp h.canonical
  have hobject : deserializeObject (.obj fields) =
      (deserializeTags (.str s)).map fun tags => .object (some tags) none canonical := by
    rw [deserializeObject, readField_of_only h, readField_other_of_only h, hcanonical]
    cases deserializeTags (.str s) <;> rfl
  rw [deserialize_obj, hobject, deserialize_str_iff]
  cases htags : BlockTags.fromStr s with
  | ok tags =>
    have hsome : deserializeTags (.str s) = some tags := congrArg Except.toOption htags
    rw [hsome]
    constructor
    · intro hr
      obtain rfl := Except.ok.inj hr
      exact ⟨.inl ⟨tags, rfl, rfl⟩, tags, rfl⟩
    · rintro ⟨⟨tags', htags', rfl⟩ | ⟨hash, hhash, rfl⟩, tags'', heq⟩
      · obtain rfl := Except.ok.inj htags'
        rfl
      · cases heq
  | error e =>
    have hnone : deserializeTags (.str s) = none := congrArg Except.toOption htags
    rw [hnone]
    constructor
    · intro hr
      cases hr
    · rintro ⟨⟨tags', htags', rfl⟩ | ⟨hash, hhash, rfl⟩, tags'', heq⟩
      · cases htags'
      · cases heq

/-- **An object with a hash is read like the string.** -/
theorem deserialize_obj_hash (h : Only fields "blockHash" "blockNumber" s) :
    deserialize (.obj fields) = .ok r ↔
      deserialize (.str s) = .ok r ∧ ∃ hash, r = .hash hash := by
  obtain ⟨canonical, hcanonical⟩ := Option.isSome_iff_exists.mp h.canonical
  have hobject : deserializeObject (.obj fields) =
      (deserializeHash (.str s)).map fun hash => .object none (some hash) canonical := by
    rw [deserializeObject, readField_of_only h, readField_other_of_only h, hcanonical]
    cases deserializeHash (.str s) <;> rfl
  rw [deserialize_obj, hobject, deserialize_str_iff]
  cases hhash : FixedData.fromStr (n := 32) s with
  | ok hash =>
    have hsome : deserializeHash (.str s) = some hash := congrArg Except.toOption hhash
    rw [hsome]
    constructor
    · intro hr
      obtain rfl := Except.ok.inj hr
      exact ⟨.inr ⟨hash, rfl, rfl⟩, hash, rfl⟩
    · rintro ⟨⟨tags, htags, rfl⟩ | ⟨hash', hhash', rfl⟩, hash'', heq⟩
      · cases heq
      · obtain rfl := Except.ok.inj hhash'
        rfl
  | error e =>
    have hnone : deserializeHash (.str s) = none := congrArg Except.toOption hhash
    rw [hnone]
    constructor
    · intro hr
      cases hr
    · rintro ⟨⟨tags, htags, rfl⟩ | ⟨hash', hhash', rfl⟩, hash'', heq⟩
      · cases heq
      · cases hhash'

/-- What an object that is read has been read as. -/
theorem deserializeObject_eq_some {helper : BlockTagOrHashHelper}
    (h : deserializeObject (.obj fields) = some helper) :
    ∃ tags hash canonical, helper = .object tags hash canonical ∧
      readField fields "blockNumber" none (deserializeOption deserializeTags) = some tags ∧
      readField fields "blockHash" none (deserializeOption deserializeHash) = some hash := by
  unfold deserializeObject at h
  obtain ⟨tags, htags, h⟩ := Option.bind_eq_some_iff.mp h
  obtain ⟨hash, hhash, h⟩ := Option.bind_eq_some_iff.mp h
  obtain ⟨canonical, -, h⟩ := Option.bind_eq_some_iff.mp h
  exact ⟨tags, hash, canonical, (Option.some.inj h).symm, htags, hhash⟩

/-- Only a field that is given has a value. -/
theorem isNone_iff_notGiven {α : Type} {f : Json → Option α} {name : String} {a : Option α}
    (h : readField fields name none (deserializeOption f) = some a) :
    a = none ↔ NotGiven fields name := by
  obtain ⟨rfl, hnot⟩ | ⟨value, x, hfield, hnull, rfl⟩ := readField_option h
  · exact iff_of_true rfl hnot
  · refine iff_of_false (Option.some_ne_none x) fun hnot => hnull ?_
    have hmem : (name, value) ∈ (fields.filter fun field => field.1 = name) := by
      rw [show (fields.filter fun field => field.1 = name) = _ from hfield]
      exact List.mem_singleton_self _
    exact hnot _ (mem_filter_name.mp hmem).1 rfl

/-- **An object with both fields, or with neither, is rejected.** -/
theorem deserialize_obj_error
    (h : NotGiven fields "blockNumber" ↔ NotGiven fields "blockHash") :
    ∃ e, deserialize (.obj fields) = .error e := by
  rw [deserialize_obj]
  cases hobject : deserializeObject (.obj fields) with
  | none => exact ⟨_, rfl⟩
  | some helper =>
    obtain ⟨tags, hash, canonical, rfl, htags, hhash⟩ := deserializeObject_eq_some hobject
    rw [← isNone_iff_notGiven htags, ← isNone_iff_notGiven hhash] at h
    cases tags <;> cases hash
    · exact ⟨_, rfl⟩
    · exact absurd (h.mp rfl) (Option.some_ne_none _)
    · exact absurd (h.mpr rfl) (Option.some_ne_none _)
    · exact ⟨_, rfl⟩

end Objects

/-- **References to blocks are unambiguous.** The numbers that are accepted are exactly those in
`IsQuantity`. What is written for a number or a hash is read as this, and a hash is not a tag or a
number. An object with one field is read like the string in it, if this is of the kind that belongs
to the field; with both fields or none it is rejected. Bytes that are written are read back. -/
theorem unambiguous :
    (∀ s n, decodeQuantity s = .ok n ↔ IsQuantity s n) ∧
    (∀ n : Quantity, deserialize (toJson n) = .ok (.blockTags (.number n))) ∧
    (∀ hash : EthHash, deserialize (toJson hash) = .ok (.hash hash) ∧
      ∃ e, BlockTags.fromStr (encodeBytes hash.data.1) = .error e) ∧
    (∀ fields s r, Only fields "blockNumber" "blockHash" s → (deserialize (.obj fields) = .ok r ↔
      deserialize (.str s) = .ok r ∧ ∃ tags, r = .blockTags tags)) ∧
    (∀ fields s r, Only fields "blockHash" "blockNumber" s → (deserialize (.obj fields) = .ok r ↔
      deserialize (.str s) = .ok r ∧ ∃ hash, r = .hash hash)) ∧
    (∀ fields, (NotGiven fields "blockNumber" ↔ NotGiven fields "blockHash") →
      ∃ e, deserialize (.obj fields) = .error e) ∧
    ∀ bytes, decodeBytes (encodeBytes bytes) = .ok bytes := by
  refine ⟨fun s n => decodeQuantity_eq_ok, fun n => ?_, fun hash => ⟨?_, ?_⟩,
    fun fields s r => deserialize_obj_number, fun fields s r => deserialize_obj_hash,
    fun fields => deserialize_obj_error, decodeBytes_encodeBytes⟩
  · exact deserialize_str_tags (BlockTags.fromStr_hexNumber n.value)
  · exact deserialize_str_hash (FixedData.fromStr_encodeBytes hash)
  · exact BlockTags.fromStr_of_hash (FixedData.fromStr_encodeBytes hash)

/-- The number 1 in an object, with a field that is not known. -/
def sampleFields : List (String × Json) :=
  [("other", .null), ("blockNumber", .str "0x1"), ("requireCanonical", .bool true)]

theorem deserialize_sampleFields :
    deserialize (.obj sampleFields) = .ok (.blockTags (.number ⟨1⟩)) := by
  have honly : Only sampleFields "blockNumber" "blockHash" "0x1" := ⟨rfl, .inl rfl, rfl⟩
  exact (unambiguous.2.2.2.1 _ _ _ honly).mpr ⟨unambiguous.2.1 ⟨1⟩, _, rfl⟩

end BlockReference

end Rpc

end MonadServices
