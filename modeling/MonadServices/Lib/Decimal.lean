import Mathlib.Tactic

/-!
# Decimal texts

Numbers as they are written and read in text. A number is written without a superfluous zero and
without a plus sign, but both are read: an unsigned number is a sequence of digits after an
optional plus sign (`MonadServices.parseUnsigned`), and a signed one may have a minus sign
instead (`MonadServices.parseSigned`). Each of the types has a bound, beyond which a text is not
a number of the type.

What is written is read back (`MonadServices.parseUnsigned_repr`), and **a text that is read is
the written one** if and only if it has neither a plus sign nor a superfluous zero
(`MonadServices.repr_eq_iff`).
-/

namespace MonadServices

/-! ### Digits -/

/-- The number of a sequence of digits, of which there has to be one. -/
def ofDigits (ds : List Char) : Option ℕ :=
  if ds ≠ [] ∧ ds.all Char.isDigit then some (Nat.ofDigitChars 10 ds 0) else none

/-- A sequence of digits is that of a number, unless it has a superfluous zero. -/
def NoLeadingZero (ds : List Char) : Prop := ds.head? = some '0' → ds.length = 1

theorem digitChar_sub {c : Char} (h : c.isDigit = true) :
    Nat.digitChar (c.toNat - '0'.toNat) = c ∧ c.toNat - '0'.toNat < 10 := by
  obtain ⟨hle, hge⟩ : 48 ≤ c.toNat ∧ c.toNat ≤ 57 := by
    simp only [Char.isDigit, Bool.and_eq_true, decide_eq_true_eq] at h
    exact ⟨h.1, h.2⟩
  have hzero : '0'.toNat = 48 := rfl
  refine ⟨?_, by omega⟩
  obtain ⟨n, hn⟩ : ∃ n, c = Char.ofNat n ∧ 48 ≤ n ∧ n ≤ 57 :=
    ⟨c.toNat, (Char.ofNat_toNat c).symm, hle, hge⟩
  obtain ⟨rfl, hn1, hn2⟩ := hn
  interval_cases n <;> rfl

/-- **The digits of the number of a sequence of digits** are the sequence, unless it has a
superfluous zero. -/
theorem toDigits_ofDigitChars {ds : List Char} (hne : ds ≠ []) (hdigits : ds.all Char.isDigit)
    (hzero : NoLeadingZero ds) : Nat.toDigits 10 (Nat.ofDigitChars 10 ds 0) = ds := by
  induction ds using List.reverseRecOn with
  | nil => exact absurd rfl hne
  | append_singleton ds c ih =>
    rw [List.all_append, Bool.and_eq_true, List.all_cons, Bool.and_eq_true] at hdigits
    obtain ⟨hds, hc, -⟩ := hdigits
    obtain ⟨hchar, hlt⟩ := digitChar_sub hc
    rw [Nat.ofDigitChars_append, Nat.ofDigitChars_cons, Nat.ofDigitChars_nil]
    rcases eq_or_ne ds [] with rfl | hds0
    · rw [Nat.ofDigitChars_nil, Nat.mul_zero, Nat.zero_add, Nat.toDigits_of_lt_base hlt, hchar]
      rfl
    · -- The first digit is not a zero, so that the number of the others is not zero.
      obtain ⟨d, ds, rfl⟩ := List.exists_cons_of_ne_nil hds0
      have hhead : d ≠ '0' := by
        rintro rfl
        have := hzero rfl
        simp at this
      have hrec := ih hds0 hds fun h => absurd (Option.some.inj h) hhead
      have hpos : 0 < Nat.ofDigitChars 10 (d :: ds) 0 := by
        refine Nat.pos_of_ne_zero fun h0 => hhead ?_
        rw [h0, Nat.toDigits_zero] at hrec
        exact (List.cons.inj hrec).1.symm
      rw [← Nat.toDigits_append_toDigits (by decide) hpos hlt, hrec, Nat.toDigits_of_lt_base hlt,
        hchar]

/-- A number has no superfluous zero. -/
theorem noLeadingZero_toDigits (n : ℕ) : NoLeadingZero (Nat.toDigits 10 n) := by
  induction n using Nat.strong_induction_on with
  | _ n ih =>
    rcases Nat.lt_or_ge n 10 with hlt | hge
    · rw [Nat.toDigits_of_lt_base hlt]
      exact fun _ => rfl
    · intro hzero
      rw [Nat.toDigits_of_base_le (by decide) hge, List.head?_append_of_ne_nil _
        Nat.toDigits_ne_nil] at hzero
      have hlen := ih (n / 10) (by omega) hzero
      obtain ⟨c, hc⟩ := List.length_eq_one_iff.mp hlen
      rw [hc] at hzero
      obtain rfl := Option.some.inj hzero
      -- The number of the digits before the last one is zero.
      have hval := congrArg (fun ds => Nat.ofDigitChars 10 ds 0) hc
      simp only [Nat.ofDigitChars_ten_toDigits] at hval
      have hnum : Nat.ofDigitChars 10 ['0'] 0 = 0 := rfl
      omega

theorem ofDigits_toDigits (n : ℕ) : ofDigits (Nat.toDigits 10 n) = some n := by
  have hdigits : (Nat.toDigits 10 n).all Char.isDigit := by
    rw [List.all_eq_true]
    exact fun c hc => Nat.isDigit_of_mem_toDigits (by decide) (by decide) hc
  rw [ofDigits, if_pos ⟨Nat.toDigits_ne_nil, hdigits⟩, Nat.ofDigitChars_ten_toDigits]

theorem ofDigits_eq_some {ds : List Char} {n : ℕ} (h : ofDigits ds = some n) :
    ds ≠ [] ∧ ds.all Char.isDigit ∧ Nat.ofDigitChars 10 ds 0 = n := by
  unfold ofDigits at h
  split_ifs at h with hds
  exact ⟨hds.1, hds.2, Option.some.inj h⟩

/-- The first character of a number is a digit. -/
theorem exists_toDigits_eq_cons (n : ℕ) :
    ∃ c cs, Nat.toDigits 10 n = c :: cs ∧ c.isDigit = true := by
  obtain ⟨c, cs, h⟩ := List.exists_cons_of_ne_nil (Nat.toDigits_ne_nil (n := n) (b := 10))
  refine ⟨c, cs, h, Nat.isDigit_of_mem_toDigits (by decide) (by decide) (b := 10) (n := n) ?_⟩
  rw [h]
  exact List.mem_cons_self

/-! ### Leading digits -/

/-- All digits but the last few are those of a quotient. -/
theorem exists_toDigits_append {n j : ℕ} (h : j < (Nat.toDigits 10 n).length) :
    ∃ ds : List Char, ds.length = j ∧
      Nat.toDigits 10 n = Nat.toDigits 10 (n / 10 ^ j) ++ ds := by
  induction j generalizing n with
  | zero => exact ⟨[], rfl, by rw [pow_zero, Nat.div_one, List.append_nil]⟩
  | succ j ih =>
    have hge : 10 ≤ n := by
      by_contra hlt
      rw [Nat.toDigits_of_lt_base (by omega)] at h
      simp at h
    have hsplit := Nat.toDigits_of_base_le (by decide) hge
    rw [hsplit, List.length_append, List.length_singleton] at h
    obtain ⟨ds, hlength, hds⟩ := ih (Nat.lt_of_succ_lt_succ h)
    refine ⟨ds ++ [Nat.digitChar (n % 10)], by rw [List.length_append, hlength]; rfl, ?_⟩
    rw [hsplit, hds, List.append_assoc, Nat.div_div_eq_div_mul, ← pow_succ']

theorem toDigits_injective {a b : ℕ} (h : Nat.toDigits 10 a = Nat.toDigits 10 b) : a = b := by
  have hread := congrArg (fun ds => Nat.ofDigitChars 10 ds 0) h
  simpa only [Nat.ofDigitChars_ten_toDigits] using hread

/-- A larger number does not have fewer digits. -/
theorem length_toDigits_mono {a b : ℕ} (h : a ≤ b) :
    (Nat.toDigits 10 a).length ≤ (Nat.toDigits 10 b).length := by
  have hpos : 0 < (Nat.toDigits 10 b).length := List.length_pos_iff.mpr Nat.toDigits_ne_nil
  rw [Nat.length_toDigits_le_iff (by decide) hpos]
  exact Nat.lt_of_le_of_lt h ((Nat.length_toDigits_le_iff (by decide) hpos).mp le_rfl)

/-- **The leading digits of two numbers with the same number of digits** are those of the numbers
between them. -/
theorem prefix_toDigits_of_le {a b c : ℕ} {ds : List Char} (hac : a ≤ c) (hcb : c ≤ b)
    (hlength : (Nat.toDigits 10 a).length = (Nat.toDigits 10 b).length)
    (ha : ds <+: Nat.toDigits 10 a) (hb : ds <+: Nat.toDigits 10 b) :
    ds <+: Nat.toDigits 10 c := by
  rcases eq_or_ne ds [] with rfl | hne
  · exact List.nil_prefix
  have hlength' : (Nat.toDigits 10 c).length = (Nat.toDigits 10 a).length :=
    le_antisymm ((length_toDigits_mono hcb).trans_eq hlength.symm) (length_toDigits_mono hac)
  have hpos := List.length_pos_iff.mpr hne
  have hle := ha.length_le
  -- The numbers agree up to their last `j` digits.
  obtain ⟨j, hj⟩ := Nat.exists_eq_add_of_le hle
  have hquot : ∀ n, (Nat.toDigits 10 n).length = (Nat.toDigits 10 a).length →
      ∃ rest, Nat.toDigits 10 n = Nat.toDigits 10 (n / 10 ^ j) ++ rest ∧
        (Nat.toDigits 10 (n / 10 ^ j)).length = ds.length := by
    intro n hn
    obtain ⟨rest, hrest, heq⟩ := exists_toDigits_append (n := n) (j := j) (by omega)
    refine ⟨rest, heq, ?_⟩
    have := congrArg List.length heq
    rw [List.length_append] at this
    omega
  have hlead : ∀ n, (Nat.toDigits 10 n).length = (Nat.toDigits 10 a).length →
      ds <+: Nat.toDigits 10 n → ds = Nat.toDigits 10 (n / 10 ^ j) := by
    intro n hn hprefix
    obtain ⟨rest, heq, hlen⟩ := hquot n hn
    have hprefix' : Nat.toDigits 10 (n / 10 ^ j) <+: Nat.toDigits 10 n := ⟨rest, heq.symm⟩
    exact (List.prefix_of_prefix_length_le hprefix hprefix' hlen.ge).eq_of_length hlen.symm
  have hquots : a / 10 ^ j = b / 10 ^ j :=
    toDigits_injective ((hlead a rfl ha).symm.trans (hlead b hlength.symm hb))
  have hc : c / 10 ^ j = a / 10 ^ j :=
    le_antisymm ((Nat.div_le_div_right hcb).trans_eq hquots.symm) (Nat.div_le_div_right hac)
  obtain ⟨rest, heq, -⟩ := hquot c hlength'
  rw [hlead a rfl ha, ← hc]
  exact ⟨rest, heq.symm⟩

/-! ### Texts -/

/-- Removes a plus sign. -/
def dropPlus : List Char → List Char
  | '+' :: cs => cs
  | cs => cs

/-- Reads an unsigned number below a bound. -/
def parseUnsigned (bound : ℕ) (s : String) : Option ℕ :=
  (ofDigits (dropPlus s.toList)).filter (· < bound)

/-- Reads a signed number, at least `-bound` and below `bound`. -/
def parseSigned (bound : ℕ) (s : String) : Option ℤ :=
  match s.toList with
  | '-' :: cs => ((ofDigits cs).filter (· ≤ bound)).map fun n : ℕ => -(n : ℤ)
  | cs => ((ofDigits (dropPlus cs)).filter (· < bound)).map fun n : ℕ => (n : ℤ)

/-- **A text as numbers are written**: without a plus sign and without a superfluous zero. -/
def Canonical (s : String) : Prop := s.toList.head? ≠ some '+' ∧ NoLeadingZero s.toList

instance (ds : List Char) : Decidable (NoLeadingZero ds) :=
  inferInstanceAs (Decidable (ds.head? = some '0' → ds.length = 1))

instance (s : String) : Decidable (Canonical s) :=
  inferInstanceAs (Decidable (s.toList.head? ≠ some '+' ∧ NoLeadingZero s.toList))

theorem dropPlus_of_head_ne {cs : List Char} (h : cs.head? ≠ some '+') : dropPlus cs = cs := by
  unfold dropPlus
  split
  · simp at h
  · rfl

theorem canonical_repr (n : ℕ) : Canonical n.repr := by
  rw [Canonical, Nat.toList_repr]
  refine ⟨fun h => ?_, noLeadingZero_toDigits n⟩
  obtain ⟨c, cs, hcons, hdigit⟩ := exists_toDigits_eq_cons n
  rw [hcons] at h
  obtain rfl := Option.some.inj h
  exact absurd hdigit (by decide)

/-- **A number is read back.** -/
theorem parseUnsigned_repr {bound n : ℕ} (h : n < bound) : parseUnsigned bound n.repr = some n := by
  rw [parseUnsigned, dropPlus_of_head_ne (canonical_repr n).1, Nat.toList_repr, ofDigits_toDigits,
    Option.filter_some, if_pos (by simpa using h)]

theorem parseUnsigned_lt {bound n : ℕ} {s : String} (h : parseUnsigned bound s = some n) :
    n < bound := by
  simpa using (Option.filter_eq_some_iff.mp h).2

/-- **A text that is read is the written one**, if it is as numbers are written. -/
theorem repr_eq_iff {bound n : ℕ} {s : String} (h : parseUnsigned bound s = some n) :
    n.repr = s ↔ Canonical s := by
  constructor
  · rintro rfl
    exact canonical_repr n
  · rintro ⟨hplus, hzero⟩
    have hread := (Option.filter_eq_some_iff.mp h).1
    rw [dropPlus_of_head_ne hplus] at hread
    obtain ⟨hne, hdigits, rfl⟩ := ofDigits_eq_some hread
    rw [← String.toList_inj, Nat.toList_repr, toDigits_ofDigitChars hne hdigits hzero]

/-- A number is read back as a signed one, if it is below the bound. -/
theorem parseSigned_repr (bound n : ℕ) :
    parseSigned bound n.repr = if n < bound then some (n : ℤ) else none := by
  obtain ⟨c, cs, hcons, hdigit⟩ := exists_toDigits_eq_cons n
  have hminus : c ≠ '-' := by
    rintro rfl
    exact absurd hdigit (by decide)
  have hplus : (c :: cs).head? ≠ some '+' := by
    rw [← hcons, ← Nat.toList_repr]
    exact (canonical_repr n).1
  unfold parseSigned
  rw [Nat.toList_repr, hcons]
  split
  · rename_i heq
    exact absurd (List.cons.inj heq).1 hminus
  · rw [dropPlus_of_head_ne hplus, ← hcons, ofDigits_toDigits, Option.filter_some]
    by_cases h : n < bound
    · rw [if_pos h, if_pos (by simpa using h), Option.map_some]
    · rw [if_neg h, if_neg (by simpa using h), Option.map_none]

/-! ### Texts as bytes -/

theorem toList_loop (bs : ByteArray) (i : ℕ) (r : List UInt8) :
    ByteArray.toList.loop bs i r = r.reverse ++ bs.data.toList.drop i := by
  induction i, r using ByteArray.toList.loop.induct bs with
  | case1 i r hlt ih =>
    have hlen : i < bs.data.toList.length := hlt
    have hget : bs.get! i = bs.data.toList[i] := by
      show bs.data[i]! = _
      rw [getElem!_pos bs.data i hlen, Array.getElem_toList]
    rw [ByteArray.toList.loop, if_pos hlt, ih, hget, List.reverse_cons, List.append_assoc,
      List.singleton_append, List.cons_getElem_drop_succ]
  | case2 i r hle =>
    rw [ByteArray.toList.loop, if_neg hle, List.drop_eq_nil_of_le (Nat.not_lt.mp hle),
      List.append_nil]

/-- **The bytes of a text are read as the text.** -/
theorem fromUTF8?_toList_toUTF8 (s : String) :
    String.fromUTF8? ⟨s.toUTF8.toList.toArray⟩ = some s := by
  have hbytes : (⟨s.toUTF8.toList.toArray⟩ : ByteArray) = s.toUTF8 := by
    rw [ByteArray.toList, toList_loop]
    rfl
  rw [hbytes]
  exact dif_pos s.isValidUTF8

end MonadServices
