import MonadServices.Lib.Rlp

/-!
# Walking the items of a coded list

A reader that is after the place of an item and not after its contents reads heads only.
A head declares the length of its payload and with it the length of the whole item
(`MonadServices.Rlp.extent`), and the next item starts where this one is declared to end.
`MonadServices.Rlp.Walk` is what such a reader does, with no regard to the bytes that are
there and no bound on the numbers: a declared length may lead past the end of the list, or
past the end of the byte string.

On a canonical coding every declared length is the true one
(`MonadServices.Rlp.extent_encode`).
-/

namespace MonadServices

namespace Rlp

/-! ### What a head declares -/

/-- The lengths a long head declares: the length of the payload stands on `k` bytes, the
first of which is not zero unless it is alone. -/
def extentLong (k : ℕ) (bs : Bytes) : Option (ℕ × ℕ) :=
  if bs.length < k then none
  else if (bs.take k).head? = some 0 ∧ 1 < k then none
  else some (ofBe (bs.take k), 1 + k + ofBe (bs.take k))

/-- **The lengths the head at the front of a byte string declares**: that of the payload,
and that of the whole item. -/
def extent : Bytes → Option (ℕ × ℕ)
  | [] => none
  | b :: bs =>
    if b.toNat < 0x80 then some (1, 1)
    else if b.toNat ≤ 0xb7 then some (b.toNat - 0x80, b.toNat - 0x80 + 1)
    else if b.toNat ≤ 0xbf then extentLong (b.toNat - 0xb7) bs
    else if b.toNat ≤ 0xf7 then some (b.toNat - 0xc0, b.toNat - 0xc0 + 1)
    else extentLong (b.toNat - 0xf7) bs

theorem extentLong_eq_some {k c t : ℕ} {bs : Bytes} (h : extentLong k bs = some (c, t)) :
    k ≤ bs.length ∧ c = ofBe (bs.take k) ∧ t = 1 + k + c := by
  unfold extentLong at h
  split at h
  · cases h
  · split at h
    · cases h
    · cases h
      exact ⟨by omega, rfl, rfl⟩

/-- A first byte announces a short head, which is all there is to read, or a long one. -/
theorem extent_cons (b : UInt8) :
    (∃ c t, c ≤ t ∧ 0 < t ∧ t ≤ c + 1 ∧ ∀ bs, extent (b :: bs) = some (c, t)) ∨
      ∃ k, ∀ bs, extent (b :: bs) = extentLong k bs := by
  by_cases h1 : b.toNat < 0x80
  · exact .inl ⟨1, 1, by omega, by omega, by omega, fun bs => by rw [extent, if_pos h1]⟩
  by_cases h2 : b.toNat ≤ 0xb7
  · exact .inl ⟨b.toNat - 0x80, b.toNat - 0x80 + 1, by omega, by omega, by omega, fun bs => by
      rw [extent, if_neg h1, if_pos h2]⟩
  by_cases h3 : b.toNat ≤ 0xbf
  · exact .inr ⟨_, fun bs => by rw [extent, if_neg h1, if_neg h2, if_pos h3]⟩
  by_cases h4 : b.toNat ≤ 0xf7
  · exact .inl ⟨b.toNat - 0xc0, b.toNat - 0xc0 + 1, by omega, by omega, by omega, fun bs => by
      rw [extent, if_neg h1, if_neg h2, if_neg h3, if_pos h4]⟩
  · exact .inr ⟨_, fun bs => by rw [extent, if_neg h1, if_neg h2, if_neg h3, if_neg h4]⟩

/-- **A head lies in the byte string**, and the item it declares is not empty. -/
theorem extent_bounds {bs : Bytes} {c t : ℕ} (h : extent bs = some (c, t)) :
    c ≤ t ∧ 0 < t ∧ t - c ≤ bs.length := by
  cases bs with
  | nil => cases h
  | cons b bs =>
    rw [List.length_cons]
    rcases extent_cons b with ⟨c', t', hle, hpos, hshort, heq⟩ | ⟨k, heq⟩
    · rw [heq] at h
      cases h
      omega
    · rw [heq] at h
      obtain ⟨hlen, -, ht⟩ := extentLong_eq_some h
      omega

/-- What a head declares does not depend on the bytes after the head. -/
theorem extent_append {bs : Bytes} {c t : ℕ} (h : extent bs = some (c, t)) (post : Bytes) :
    extent (bs ++ post) = some (c, t) := by
  cases bs with
  | nil => cases h
  | cons b bs =>
    rcases extent_cons b with ⟨c', t', -, -, -, heq⟩ | ⟨k, heq⟩
    · rw [List.cons_append, heq, ← h, heq]
    · rw [heq] at h
      have hlen := (extentLong_eq_some h).1
      rw [List.cons_append, heq, extentLong, List.take_append_of_le_length hlen,
        List.length_append, if_neg (by omega : ¬bs.length + post.length < k)]
      rw [extentLong, if_neg (by omega : ¬bs.length < k)] at h
      exact h

/-- An item that ends before `post` is declared by the bytes before `post`. -/
theorem extent_of_append {bs post : Bytes} {c t : ℕ} (h : extent (bs ++ post) = some (c, t))
    (ht : t ≤ bs.length) : extent bs = some (c, t) := by
  have hpos := (extent_bounds h).2.1
  cases bs with
  | nil => exact absurd ht (by simpa using Nat.pos_iff_ne_zero.mp hpos)
  | cons b bs =>
    rw [List.cons_append] at h
    rcases extent_cons b with ⟨c', t', -, -, -, heq⟩ | ⟨k, heq⟩
    · rw [heq] at h ⊢
      exact h
    · rw [heq] at h ⊢
      obtain ⟨-, -, htotal⟩ := extentLong_eq_some h
      rw [List.length_cons] at ht
      have hlen : k ≤ bs.length := by omega
      rw [extentLong, List.take_append_of_le_length hlen, List.length_append,
        if_neg (by omega : ¬bs.length + post.length < k)] at h
      rw [extentLong, if_neg (by omega : ¬bs.length < k)]
      exact h

/-- There is a byte where a head is. -/
theorem lt_of_extent {d : Bytes} {p c t : ℕ} (h : extent (d.drop p) = some (c, t)) :
    p < d.length := by
  by_contra hle
  rw [List.drop_eq_nil_of_le (by omega)] at h
  cases h

/-! ### A canonical head declares the true lengths -/

theorem extentLong_minBe {n : ℕ} (rest : Bytes) (h : n < 2 ^ 64) :
    extentLong (minBe n).length (minBe n ++ rest) = some (n, 1 + (minBe n).length + n) := by
  have hhead : (minBe n).head? ≠ some 0 := by
    intro h0
    obtain ⟨bs, hbs⟩ := List.head?_eq_some_iff.mp h0
    exact head_minBe_ne_zero hbs rfl
  have hval : ofBe (minBe n) = n := ofBe_minBe (h.trans_le (by norm_num))
  rw [extentLong, List.take_left, hval, if_neg (by simp), if_neg fun h' => hhead h'.1]

theorem extent_head_list {n : ℕ} (rest : Bytes) (h : n < 2 ^ 64) :
    extent (head 0xc0 n ++ rest) = some (n, (head 0xc0 n).length + n) := by
  by_cases hn : n < 56
  · have hb : (UInt8.ofNat (0xc0 + n)).toNat = 0xc0 + n := toNat_headByte (by omega)
    rw [head, if_pos hn, List.singleton_append, extent, hb, if_neg (by omega), if_neg (by omega),
      if_neg (by omega), if_pos (by omega), Nat.add_sub_cancel_left, List.length_singleton,
      Nat.add_comm n 1]
  · have hk := length_minBe_le_eight h
    have hk0 := length_minBe_pos (by omega : 0 < n) h
    have hb : (UInt8.ofNat (0xc0 + 55 + (minBe n).length)).toNat =
        0xc0 + 55 + (minBe n).length := toNat_headByte (by omega)
    rw [head, if_neg hn, List.cons_append, extent, hb, if_neg (by omega), if_neg (by omega),
      if_neg (by omega), if_neg (by omega), Nat.add_sub_cancel_left, extentLong_minBe rest h,
      List.length_cons, Nat.add_comm 1]

theorem extent_head_str {n : ℕ} (rest : Bytes) (h : n < 2 ^ 64) :
    extent (head 0x80 n ++ rest) = some (n, (head 0x80 n).length + n) := by
  by_cases hn : n < 56
  · have hb : (UInt8.ofNat (0x80 + n)).toNat = 0x80 + n := toNat_headByte (by omega)
    rw [head, if_pos hn, List.singleton_append, extent, hb, if_neg (by omega), if_pos (by omega),
      Nat.add_sub_cancel_left, List.length_singleton, Nat.add_comm n 1]
  · have hk := length_minBe_le_eight h
    have hk0 := length_minBe_pos (by omega : 0 < n) h
    have hb : (UInt8.ofNat (0x80 + 55 + (minBe n).length)).toNat =
        0x80 + 55 + (minBe n).length := toNat_headByte (by omega)
    rw [head, if_neg hn, List.cons_append, extent, hb, if_neg (by omega), if_neg (by omega),
      if_pos (by omega), Nat.add_sub_cancel_left, extentLong_minBe rest h, List.length_cons,
      Nat.add_comm 1]

/-- The head of a coded list declares the length of the codings of its items. -/
theorem extent_list (xs : List Rlp) (rest : Bytes) (h : (encode (.list xs)).length < 2 ^ 64) :
    extent (encode (.list xs) ++ rest) =
      some ((encodeAll xs).length, (encode (.list xs)).length) := by
  rw [encode_list, List.length_append] at h ⊢
  rw [List.append_assoc, extent_head_list _ (by omega)]

/-- **The head of a coded item declares its length.** -/
theorem extent_encode (x : Rlp) (rest : Bytes) (h : (encode x).length < 2 ^ 64) :
    ∃ c, extent (encode x ++ rest) = some (c, (encode x).length) := by
  cases x with
  | list xs => exact ⟨_, extent_list xs rest h⟩
  | str b =>
    rw [encode_str] at h ⊢
    rcases encodeStr_cases b with ⟨y, rfl, hy, heq⟩ | ⟨-, heq⟩
    · rw [heq, List.singleton_append, extent, if_pos hy]
      exact ⟨1, rfl⟩
    · rw [heq, List.length_append] at h
      rw [heq, List.append_assoc, extent_head_str _ (by omega), List.length_append]
      exact ⟨b.length, rfl⟩

/-! ### Walks -/

/-- **A walk over heads**: from the position `p`, going from an item to the next as long as
the position is below `stop`, one reaches `q` after `n` items. -/
inductive Walk (d : Bytes) (stop : ℕ) : ℕ → ℕ → ℕ → Prop where
  /-- The walk that has not begun. -/
  | here (p : ℕ) : Walk d stop p 0 p
  /-- One item, and the walk from where it is declared to end. -/
  | next {p c t n q : ℕ} : p < stop → extent (d.drop p) = some (c, t) →
      Walk d stop (p + t) n q → Walk d stop p (n + 1) q

namespace Walk

variable {d : Bytes} {stop p q q' n n' : ℕ}

theorem le (h : Walk d stop p n q) : p ≤ q := by
  induction h with
  | here p => exact le_rfl
  | next _ _ _ ih => omega

/-- A walk has a single place where it passes `stop`. -/
theorem landing_unique (h : Walk d stop p n q) (hq : stop ≤ q) (h' : Walk d stop p n' q')
    (hq' : stop ≤ q') : n = n' ∧ q = q' := by
  induction h generalizing n' q' with
  | here p =>
    cases h' with
    | here => exact ⟨rfl, rfl⟩
    | next hlt _ _ => omega
  | next hlt hext _ ih =>
    cases h' with
    | here => omega
    | next _ hext' h' =>
      rw [hext] at hext'
      cases hext'
      obtain ⟨rfl, rfl⟩ := ih hq h' hq'
      exact ⟨rfl, rfl⟩

theorem drop_within {pre s post : Bytes} {a : ℕ} (ha : a ≤ s.length) :
    (pre ++ (s ++ post)).drop (pre.length + a) = s.drop a ++ post := by
  rw [List.drop_length_add_append, List.drop_append_of_le_length ha]

/-- A walk in a part of a byte string is a walk in the whole. -/
theorem within {s : Bytes} (h : Walk s stop p n q) (pre post : Bytes) :
    Walk (pre ++ (s ++ post)) (pre.length + stop) (pre.length + p) n (pre.length + q) := by
  induction h with
  | here p => exact .here _
  | next hlt hext _ ih =>
    have hext' := extent_append hext post
    rw [← drop_within (lt_of_extent hext).le] at hext'
    exact .next (Nat.add_lt_add_left hlt _) hext' (by rw [Nat.add_assoc]; exact ih)

/-- A walk that does not leave a part of a byte string is a walk in that part. -/
theorem restrict {pre s post : Bytes} {a : ℕ}
    (h : Walk (pre ++ (s ++ post)) (pre.length + stop) p n q) (hp : p = pre.length + a)
    (hq : q ≤ pre.length + s.length) : Walk s stop a n (q - pre.length) := by
  induction h generalizing a with
  | here p =>
    subst hp
    rw [Nat.add_sub_cancel_left]
    exact .here a
  | @next p c t n q hlt hext hw ih =>
    subst hp
    have hle := hw.le
    rw [drop_within (by omega)] at hext
    refine .next (by omega) (extent_of_append hext ?_) (ih (Nat.add_assoc _ _ _) hq)
    rw [List.length_drop]
    omega

end Walk

end Rlp

end MonadServices
