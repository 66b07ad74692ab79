import Mathlib.Data.Nat.Size
import Mathlib.Data.Nat.Log
import Mathlib.Tactic

/-!
# Compact JSON

A value is written as JSON without any space: the elements of an array and the fields of an object
are separated by commas. In a string the quotation mark, the backslash and the characters below
the space are escaped, some of them by a letter and the others by their number; every other
character is written as it is. A raw text is written unchanged.

The length of what is written is counted in bytes of UTF-8. **It is the sum of the lengths of the
parts**, and of the brackets, commas and colons (`MonadServices.Json.size_arr`,
`MonadServices.Json.size_obj`), that of a string being the sum of the lengths of its escaped
characters (`MonadServices.Json.size_str`).
-/

namespace MonadServices

/-- A value to be written. -/
inductive Json where
  | null
  | bool (value : Bool)
  | int (value : ℤ)
  | str (value : String)
  | raw (text : String)
  | arr (elements : List Json)
  | obj (fields : List (String × Json))

namespace Json

/-! ### Writing -/

/-- A character of a string. -/
def escapeChar (c : Char) : String :=
  if c = '"' then "\\\""
  else if c = '\\' then "\\\\"
  else if c.toNat = 0x08 then "\\b"
  else if c.toNat = 0x09 then "\\t"
  else if c.toNat = 0x0a then "\\n"
  else if c.toNat = 0x0c then "\\f"
  else if c.toNat = 0x0d then "\\r"
  else if c.toNat < 0x20 then
    "\\u00" ++ (String.singleton (Nat.digitChar (c.toNat / 16)) ++
      String.singleton (Nat.digitChar (c.toNat % 16)))
  else String.singleton c

/-- The characters of a string. -/
def escapeChars : List Char → String
  | [] => ""
  | c :: cs => escapeChar c ++ escapeChars cs

/-- A string in quotation marks. -/
def quote (s : String) : String := "\"" ++ escapeChars s.toList ++ "\""

mutual

/-- **The text of a value.** -/
def compact : Json → String
  | .null => "null"
  | .bool true => "true"
  | .bool false => "false"
  | .int value => value.repr
  | .str value => quote value
  | .raw text => text
  | .arr elements => "[" ++ ",".intercalate (compactElements elements) ++ "]"
  | .obj fields => "\x7b" ++ ",".intercalate (compactFields fields) ++ "\x7d"

/-- The texts of the elements of an array. -/
def compactElements : List Json → List String
  | [] => []
  | element :: elements => compact element :: compactElements elements

/-- The texts of the fields of an object. -/
def compactFields : List (String × Json) → List String
  | [] => []
  | (key, value) :: fields => (quote key ++ ":" ++ compact value) :: compactFields fields

end

/-- The length of the text of a value, in bytes. -/
def size (j : Json) : ℕ := j.compact.utf8ByteSize

example : (arr [.bool true, .obj [("a", .int (-3)), ("\n", .null)], .str "é"]).compact =
    "[true,\x7b\"a\":-3,\"\\n\":null\x7d,\"é\"]" := by decide

/-! ### Lengths of texts -/

theorem utf8ByteSize_ofList (cs : List Char) :
    (String.ofList cs).utf8ByteSize = (cs.map Char.utf8Size).sum := by
  induction cs with
  | nil => rfl
  | cons c cs ih =>
    rw [String.ofList_cons, String.utf8ByteSize_append, String.utf8ByteSize_singleton, ih,
      List.map_cons, List.sum_cons]

/-- The digits of a number are as many as the powers of the base up to it. -/
theorem length_toDigits {b : ℕ} (hb : 1 < b) (n : ℕ) :
    (Nat.toDigits b n).length = Nat.log b n + 1 := by
  have hle : ∀ k, 0 < k → ((Nat.toDigits b n).length ≤ k ↔ Nat.log b n + 1 ≤ k) := by
    intro k hk
    rw [Nat.length_toDigits_le_iff hb hk, Nat.succ_le_iff]
    exact ⟨Nat.log_lt_of_lt_pow' hk.ne', Nat.lt_pow_of_log_lt hb⟩
  exact le_antisymm ((hle _ (Nat.succ_pos _)).mpr le_rfl)
    ((hle _ Nat.length_toDigits_pos).mp le_rfl)

/-- The hexadecimal digits of a number are as many as the groups of four of its bits. -/
theorem length_toDigits_sixteen (n : ℕ) :
    (Nat.toDigits 16 n).length = max ((n.size + 3) / 4) 1 := by
  have hle : ∀ k, 0 < k → ((Nat.toDigits 16 n).length ≤ k ↔ max ((n.size + 3) / 4) 1 ≤ k) := by
    intro k hk
    have hsize : n.size ≤ 4 * k ↔ n < 16 ^ k := by
      rw [Nat.size_le, Nat.pow_mul]
    rw [Nat.length_toDigits_le_iff (by decide) hk, ← hsize]
    omega
  exact le_antisymm ((hle _ (by omega)).mpr le_rfl) ((hle _ Nat.length_toDigits_pos).mp le_rfl)

/-- **A character that is written as it is**, as one byte. -/
def Plain (c : Char) : Prop := c ≠ '"' ∧ c ≠ '\\' ∧ 0x20 ≤ c.toNat ∧ c.toNat < 0x80

instance (c : Char) : Decidable (Plain c) :=
  inferInstanceAs (Decidable (c ≠ '"' ∧ c ≠ '\\' ∧ 0x20 ≤ c.toNat ∧ c.toNat < 0x80))

/-- One character is looked at after the other. -/
theorem plain_of_all {cs : List Char} (h : cs.all (fun c => decide (Plain c)) = true) :
    ∀ c ∈ cs, Plain c :=
  fun c hc => of_decide_eq_true (List.all_eq_true.mp h c hc)

theorem Plain.utf8Size {c : Char} (h : Plain c) : c.utf8Size = 1 := by
  rw [Char.utf8Size_eq_one_iff, UInt32.le_iff_toNat_le]
  exact Nat.lt_succ_iff.mp h.2.2.2

theorem plain_digitChar (d : ℕ) : Plain (Nat.digitChar d) := by
  rcases Nat.lt_or_ge d 16 with hlt | hge
  · interval_cases d <;> decide
  · rw [Nat.digitChar_eq_star.mpr hge]
    decide

/-- The digits of a number are plain. -/
theorem plain_toDigits {b : ℕ} (hb : 1 < b) (n : ℕ) : ∀ c ∈ Nat.toDigits b n, Plain c := by
  induction n using Nat.strong_induction_on with
  | _ n ih =>
    rw [Nat.toDigits_eq_if hb]
    split_ifs with hlt
    · rw [List.forall_mem_singleton]
      exact plain_digitChar n
    · rw [List.forall_mem_append, List.forall_mem_singleton]
      exact ⟨ih (n / b) (Nat.div_lt_self (by omega) hb), plain_digitChar _⟩

theorem utf8ByteSize_of_plain {cs : List Char} (h : ∀ c ∈ cs, Plain c) :
    (String.ofList cs).utf8ByteSize = cs.length := by
  rw [utf8ByteSize_ofList]
  induction cs with
  | nil => rfl
  | cons c cs ih =>
    rw [List.forall_mem_cons] at h
    rw [List.map_cons, List.sum_cons, h.1.utf8Size, ih h.2, List.length_cons, Nat.add_comm]

/-- The length of a number. -/
theorem utf8ByteSize_repr (n : ℕ) : n.repr.utf8ByteSize = Nat.log 10 n + 1 := by
  rw [Nat.repr_eq_ofList_toDigits, utf8ByteSize_of_plain (plain_toDigits (by decide) n),
    length_toDigits (by decide)]

/-- Commas are one fewer than what they separate. -/
theorem utf8ByteSize_intercalate (l : List String) :
    (",".intercalate l).utf8ByteSize = (l.map String.utf8ByteSize).sum + (l.length - 1) := by
  induction l with
  | nil => rfl
  | cons s l ih =>
    rcases eq_or_ne l [] with rfl | hl
    · rw [String.intercalate_singleton]
      simp
    · have hpos := List.length_pos_iff.mpr hl
      have hcomma : ",".utf8ByteSize = 1 := rfl
      rw [String.intercalate_cons_of_ne_nil hl, String.utf8ByteSize_append,
        String.utf8ByteSize_append, ih, List.map_cons, List.sum_cons, List.length_cons, hcomma]
      omega

/-! ### Lengths of values -/

/-- The length of a character of a string. -/
def escapedSize (c : Char) : ℕ := (escapeChar c).utf8ByteSize

theorem utf8ByteSize_escapeChars (cs : List Char) :
    (escapeChars cs).utf8ByteSize = (cs.map escapedSize).sum := by
  induction cs with
  | nil => rfl
  | cons c cs ih =>
    rw [escapeChars, String.utf8ByteSize_append, ih, List.map_cons, List.sum_cons, escapedSize]

theorem utf8ByteSize_quote (s : String) :
    (quote s).utf8ByteSize = 2 + (s.toList.map escapedSize).sum := by
  have hmark : "\"".utf8ByteSize = 1 := rfl
  rw [quote, String.utf8ByteSize_append, String.utf8ByteSize_append, utf8ByteSize_escapeChars,
    hmark]
  omega

theorem Plain.escapedSize {c : Char} (h : Plain c) : Json.escapedSize c = 1 := by
  have hsize := h.utf8Size
  obtain ⟨hmark, hback, hspace, -⟩ := h
  rw [Json.escapedSize, escapeChar, if_neg hmark, if_neg hback, if_neg (by omega),
    if_neg (by omega), if_neg (by omega), if_neg (by omega), if_neg (by omega), if_neg (by omega),
    String.utf8ByteSize_singleton, hsize]

theorem sum_escapedSize {cs : List Char} (h : ∀ c ∈ cs, Plain c) :
    (cs.map escapedSize).sum = cs.length := by
  induction cs with
  | nil => rfl
  | cons c cs ih =>
    rw [List.forall_mem_cons] at h
    rw [List.map_cons, List.sum_cons, h.1.escapedSize, ih h.2, List.length_cons, Nat.add_comm]

/-- **The length of a string.** -/
theorem size_str (s : String) : size (.str s) = 2 + (s.toList.map escapedSize).sum :=
  utf8ByteSize_quote s

/-- The length of a string that needs no escapes. -/
theorem size_str_of_plain {s : String} (h : ∀ c ∈ s.toList, Plain c) :
    size (.str s) = 2 + s.toList.length := by
  rw [size_str, sum_escapedSize h]

/-- **The length of a number**: its digits, and its sign. -/
theorem size_int (n : ℤ) :
    size (.int n) = (if n < 0 then 1 else 0) + 1 + Nat.log 10 n.natAbs := by
  change n.repr.utf8ByteSize = _
  cases n with
  | ofNat n =>
    change n.repr.utf8ByteSize = _
    rw [utf8ByteSize_repr, if_neg (by simp)]
    simp [Nat.add_comm]
  | negSucc n =>
    have hsign : "-".utf8ByteSize = 1 := rfl
    change ("-" ++ (n + 1).repr).utf8ByteSize = _
    rw [String.utf8ByteSize_append, utf8ByteSize_repr, hsign, if_pos (Int.negSucc_lt_zero n),
      Int.natAbs_negSucc, Nat.succ_eq_add_one]
    omega

theorem compactElements_eq (elements : List Json) :
    compactElements elements = elements.map compact := by
  induction elements with
  | nil => rfl
  | cons element elements ih => rw [compactElements, ih, List.map_cons]

theorem compactFields_eq (fields : List (String × Json)) : compactFields fields =
    fields.map fun field => quote field.1 ++ ":" ++ compact field.2 := by
  induction fields with
  | nil => rfl
  | cons field fields ih =>
    obtain ⟨key, value⟩ := field
    rw [compactFields, ih, List.map_cons]

/-- **The length of an array**: its elements, the commas and the brackets. -/
theorem size_arr (elements : List Json) :
    size (.arr elements) = 2 + (elements.map size).sum + (elements.length - 1) := by
  have hopen : "[".utf8ByteSize = 1 := rfl
  have hclose : "]".utf8ByteSize = 1 := rfl
  rw [size, compact, String.utf8ByteSize_append, String.utf8ByteSize_append,
    utf8ByteSize_intercalate, compactElements_eq, List.map_map, List.length_map, hopen, hclose]
  change 1 + ((elements.map size).sum + (elements.length - 1)) + 1 = _
  omega

/-- The length of a key, with its colon and a comma. -/
def keySize (key : String) : ℕ := (quote key).utf8ByteSize + 2

/-- The length of a field, with a comma. -/
def fieldSize (field : String × Json) : ℕ := keySize field.1 + size field.2

/-- **The length of an object**: its fields, one of them without the comma, and the braces. -/
theorem size_obj {fields : List (String × Json)} (h : fields ≠ []) :
    size (.obj fields) = 1 + (fields.map fieldSize).sum := by
  have hopen : "\x7b".utf8ByteSize = 1 := rfl
  have hclose : "\x7d".utf8ByteSize = 1 := rfl
  have hlength : (compactFields fields).length = fields.length := by
    rw [compactFields_eq, List.length_map]
  have hfields : ((compactFields fields).map String.utf8ByteSize).sum + fields.length =
      (fields.map fieldSize).sum := by
    clear h hlength
    induction fields with
    | nil => rfl
    | cons field fields ih =>
      have hcolon : ":".utf8ByteSize = 1 := rfl
      obtain ⟨key, value⟩ := field
      rw [List.map_cons, List.sum_cons, ← ih, compactFields, List.map_cons, List.sum_cons,
        String.utf8ByteSize_append, String.utf8ByteSize_append, hcolon, fieldSize, keySize, size,
        List.length_cons]
      dsimp only
      omega
  have hpos := List.length_pos_iff.mpr h
  rw [size, compact, String.utf8ByteSize_append, String.utf8ByteSize_append,
    utf8ByteSize_intercalate, hlength, hopen, hclose]
  omega

/-- The length of a key that needs no escapes. -/
theorem keySize_of_plain {key : String} (h : ∀ c ∈ key.toList, Plain c) :
    keySize key = key.utf8ByteSize + 4 := by
  have hkey : key.utf8ByteSize = key.toList.length := by
    conv_lhs => rw [← String.ofList_toList (s := key)]
    exact utf8ByteSize_of_plain h
  rw [keySize, utf8ByteSize_quote, sum_escapedSize h, hkey]
  omega

end Json

end MonadServices
