import Mathlib

/-!
# Bit fields of a number

Memory is a natural number: byte `k` of it are the bits `8 * k` to `8 * k + 7`, in little-endian order, so that every
access to an aligned object of `n` bits at index `i` is the field of `n` bits at position `n * i`.

`field m p n` are the `n` bits of `m` at position `p`; `put m p n v` replaces them.  Both are known by their bits
(`testBit_field`, `testBit_put`), and from that follow the rules a program over such a memory is verified with:
`field_put_self`, `field_put_of_disjoint`, `field_field` (a field of a field) and `field_ext`.  `load` and `store` are
the accesses to an object of a given width at an index. `respread` converts an array of fields to wider ones in place,
and `copy` moves a range.
-/

set_option autoImplicit false

namespace Fields

variable {m m' p q n k v i j : Nat}

/-- The `n` bits of `m` at position `p`. -/
def field (m p n : Nat) : Nat := (m >>> p) % 2 ^ n

/-- The `n` bits of `m` at position `p` are replaced by those of `v`. -/
def put (m p n v : Nat) : Nat := m % 2 ^ p + 2 ^ p * (v % 2 ^ n + 2 ^ n * (m >>> (p + n)))

theorem testBit_field (m p n i : Nat) : (field m p n).testBit i = (decide (i < n) && m.testBit (p + i)) := by
  rw [field, Nat.testBit_mod_two_pow, Nat.testBit_shiftRight]

theorem field_lt (m p n : Nat) : field m p n < 2 ^ n := Nat.mod_lt _ (Nat.two_pow_pos n)

@[simp] theorem field_zero_length (m p : Nat) : field m p 0 = 0 := by rw [field, Nat.pow_zero, Nat.mod_one]

theorem field_add (m p n k : Nat) : field m p (n + k) = field m p n + 2 ^ n * field m (p + n) k := by
  rw [field, field, field, Nat.pow_add, Nat.mod_mul, Nat.shiftRight_add, Nat.shiftRight_eq_div_pow (m >>> p) n]

theorem field_ext (h : ∀ i, i < n → m.testBit (p + i) = m'.testBit (q + i)) : field m p n = field m' q n := by
  refine Nat.eq_of_testBit_eq fun i => ?_
  rw [testBit_field, testBit_field]
  by_cases hi : i < n
  · rw [h i hi]
  · rw [decide_eq_false hi, Bool.false_and, Bool.false_and]

theorem testBit_put (m p n v i : Nat) :
    (put m p n v).testBit i = if p ≤ i ∧ i < p + n then v.testBit (i - p) else m.testBit i := by
  have hlow : m % 2 ^ p < 2 ^ p := Nat.mod_lt _ (Nat.two_pow_pos p)
  have hmid : v % 2 ^ n < 2 ^ n := Nat.mod_lt _ (Nat.two_pow_pos n)
  rw [put, Nat.add_comm, Nat.testBit_two_pow_mul_add _ hlow, Nat.add_comm (v % 2 ^ n),
    Nat.testBit_two_pow_mul_add _ hmid]
  by_cases hp : i < p
  · rw [if_pos hp, if_neg (by omega), Nat.testBit_mod_two_pow, decide_eq_true hp, Bool.true_and]
  · rw [if_neg hp]
    by_cases hn : i - p < n
    · rw [if_pos hn, if_pos (by omega), Nat.testBit_mod_two_pow, decide_eq_true hn, Bool.true_and]
    · rw [if_neg hn, if_neg (by omega), Nat.testBit_shiftRight]
      congr 1
      omega

theorem field_put_self (m p n v : Nat) : field (put m p n v) p n = v % 2 ^ n := by
  refine Nat.eq_of_testBit_eq fun i => ?_
  rw [testBit_field, testBit_put, Nat.testBit_mod_two_pow]
  by_cases hi : i < n
  · rw [if_pos (by omega), Nat.add_sub_cancel_left]
  · rw [decide_eq_false hi, Bool.false_and, Bool.false_and]

theorem field_put_of_disjoint (v : Nat) (h : q + k ≤ p ∨ p + n ≤ q) : field (put m p n v) q k = field m q k := by
  refine field_ext fun i hi => ?_
  rw [testBit_put, if_neg (by omega)]

theorem field_put_within (m p v : Nat) (h : i + j ≤ n) : field (put m p n v) (p + i) j = field v i j := by
  refine field_ext fun b hb => ?_
  rw [testBit_put, if_pos (by omega), Nat.add_assoc, Nat.add_sub_cancel_left]

theorem field_field (m p : Nat) (h : i + j ≤ n) : field (field m p n) i j = field m (p + i) j := by
  refine field_ext fun b hb => ?_
  rw [testBit_field, decide_eq_true (by omega), Bool.true_and, Nat.add_assoc]

theorem put_put_field (m p v : Nat) (h : i + j ≤ n) : put m p n (put (field m p n) i j v) = put m (p + i) j v := by
  refine Nat.eq_of_testBit_eq fun b => ?_
  rw [testBit_put, testBit_put, testBit_put, testBit_field]
  by_cases hout : p ≤ b ∧ b < p + n
  · rw [if_pos hout]
    by_cases hin : i ≤ b - p ∧ b - p < i + j
    · rw [if_pos hin, if_pos (by omega), Nat.sub_sub]
    · rw [if_neg hin, if_neg (by omega), decide_eq_true (by omega), Bool.true_and, Nat.add_sub_cancel' hout.1]
  · rw [if_neg hout, if_neg (by omega)]

theorem put_mod (m p n v : Nat) : put m p n (v % 2 ^ n) = put m p n v := by rw [put, put, Nat.mod_mod]

@[simp] theorem put_zero_length (m p v : Nat) : put m p 0 v = m := by
  refine Nat.eq_of_testBit_eq fun b => ?_
  rw [testBit_put, if_neg (by omega)]

/-! ## Typed access -/

/-- The object of `bits` bits at index `i`. -/
def load (m bits i : Nat) : BitVec bits := BitVec.ofNat bits (m >>> (bits * i))

/-- The object at index `i` becomes `x`. -/
def store {bits : Nat} (m i : Nat) (x : BitVec bits) : Nat := put m (bits * i) bits x.toNat

variable {bits : Nat}

theorem toNat_load (m bits i : Nat) : (load m bits i).toNat = field m (bits * i) bits := BitVec.toNat_ofNat _ _

theorem getLsbD_load (m bits i j : Nat) :
    (load m bits i).getLsbD j = (decide (j < bits) && m.testBit (bits * i + j)) := by
  rw [← BitVec.testBit_toNat, toNat_load, testBit_field]

theorem testBit_store (m i b : Nat) (x : BitVec bits) :
    (store m i x).testBit b = if bits * i ≤ b ∧ b < bits * i + bits then x.getLsbD (b - bits * i) else m.testBit b := by
  rw [store, testBit_put, BitVec.testBit_toNat]

@[simp] theorem load_store_self (m i : Nat) (x : BitVec bits) : load (store m i x) bits i = x := by
  refine BitVec.eq_of_toNat_eq ?_
  rw [toNat_load, store, field_put_self, Nat.mod_eq_of_lt x.isLt]

theorem load_store_of_ne (m : Nat) (x : BitVec bits) (h : i ≠ j) : load (store m i x) bits j = load m bits j := by
  refine BitVec.eq_of_toNat_eq ?_
  rw [toNat_load, toNat_load, store]
  refine field_put_of_disjoint _ ?_
  rcases Nat.lt_or_gt_of_ne h with h | h
  · exact Or.inr (Nat.mul_succ bits i ▸ Nat.mul_le_mul_left bits h)
  · exact Or.inl (Nat.mul_succ bits j ▸ Nat.mul_le_mul_left bits h)

/-! ## Arrays of fields -/

theorem mul_succ_le {a b w w' : Nat} (hab : a < b) (hw : w ≤ w') : w * a + w ≤ w' * b := by
  calc w * a + w = w * (a + 1) := (Nat.mul_succ w a).symm
    _ ≤ w' * b := Nat.mul_le_mul hw hab

/-- From the top down, the `k` fields of width `w` from index `lo` on are converted to fields of width `w'`, `shift`
places further up. -/
def respread (f : Nat → Nat) (w w' lo shift : Nat) : (k m : Nat) → Nat
  | 0, m => m
  | k + 1, m => respread f w w' lo shift k (put m (w' * (lo + k + shift)) w' (f (field m (w * (lo + k)) w)))

section Respread

variable {f : Nat → Nat} {w w' lo shift : Nat}

theorem field_respread_of_disjoint : ∀ {k : Nat} (m : Nat), (q + n ≤ w' * (lo + shift) ∨ w' * (lo + shift + k) ≤ q) →
    field (respread f w w' lo shift k m) q n = field m q n
  | 0, m, _ => rfl
  | k + 1, m, h => by
    have hstart : w' * (lo + shift) ≤ w' * (lo + k + shift) := Nat.mul_le_mul_left w' (by omega)
    have hend : w' * (lo + k + shift) + w' = w' * (lo + shift + (k + 1)) := by ring
    rw [respread, field_respread_of_disjoint, field_put_of_disjoint]
    · omega
    · have : w' * (lo + shift + k) ≤ w' * (lo + shift + (k + 1)) := Nat.mul_le_mul_left w' (by omega)
      omega

theorem field_respread (hle : w ≤ w') : ∀ {k : Nat} (m : Nat), j < k →
    field (respread f w w' lo shift k m) (w' * (lo + shift + j)) w' = f (field m (w * (lo + j)) w) % 2 ^ w'
  | k + 1, m, hj => by
    rw [respread]
    rcases Nat.lt_succ_iff_lt_or_eq.mp hj with hlt | rfl
    · rw [field_respread hle _ hlt, field_put_of_disjoint _ (Or.inl (mul_succ_le (by omega) hle))]
    · rw [field_respread_of_disjoint _ (Or.inr (Nat.le_refl _)), Nat.add_right_comm, field_put_self]

theorem field_respread_insert {ndx size c : Nat} (hle : w ≤ w') (m : Nat) (hc : c < 2 ^ w') :
    (∀ i, i < ndx → field (respread f w w' 0 0 ndx (put (respread f w w' ndx 1 (size - ndx) m) (w' * ndx) w' c))
      (w' * i) w' =
      f (field m (w * i) w) % 2 ^ w') ∧
    field (respread f w w' 0 0 ndx (put (respread f w w' ndx 1 (size - ndx) m) (w' * ndx) w' c)) (w' * ndx) w' = c ∧
    ∀ i, ndx ≤ i → i < size → field
      (respread f w w' 0 0 ndx (put (respread f w w' ndx 1 (size - ndx) m) (w' * ndx) w' c))
      (w' * (i + 1)) w' = f (field m (w * i) w) % 2 ^ w' := by
  refine ⟨fun i hi => ?_, ?_, fun i hndx hi => ?_⟩
  · -- below the new field nothing has been written until the second pass
    have hbelow := @field_respread i f w w' 0 0 hle ndx (put (respread f w w' ndx 1 (size - ndx) m) (w' * ndx) w' c) hi
    rw [Nat.add_zero, Nat.zero_add] at hbelow
    rw [hbelow, field_put_of_disjoint _ (Or.inl (mul_succ_le hi hle)),
      field_respread_of_disjoint _ (Or.inl (mul_succ_le (by omega) hle))]
  · rw [field_respread_of_disjoint _ (Or.inr (by simp)), field_put_self, Nat.mod_eq_of_lt hc]
  · have habove := @field_respread (i - ndx) f w w' ndx 1 hle (size - ndx) m (by omega)
    rw [(by omega : ndx + 1 + (i - ndx) = i + 1), Nat.add_sub_cancel' hndx] at habove
    rw [field_respread_of_disjoint _ (Or.inr (Nat.mul_le_mul_left _ (by omega))),
      field_put_of_disjoint _ (Or.inr (mul_succ_le (by omega) (Nat.le_refl _))), habove]

end Respread

/-- The `n` bits at `src` over those at `dst`, as if they had been read at once. -/
def copy (m src dst n : Nat) : Nat := put m dst n (field m src n)

theorem field_copy {w src dst : Nat} (m : Nat) : field (copy m (w * src) (w * dst) (w * n)) (w * i) w =
    if dst ≤ i ∧ i < dst + n then field m (w * (src + (i - dst))) w else field m (w * i) w := by
  split
  · rename_i hin
    obtain ⟨j, rfl⟩ := Nat.exists_eq_add_of_le hin.1
    have hle : w * j + w ≤ w * n := mul_succ_le (by omega) (Nat.le_refl w)
    rw [copy, Nat.mul_add, field_put_within _ _ _ hle, field_field _ _ hle, Nat.add_sub_cancel_left, Nat.mul_add]
  · rename_i hout
    rw [copy, field_put_of_disjoint]
    rcases Nat.lt_or_ge i dst with hlt | hge
    · exact Or.inl (mul_succ_le hlt (Nat.le_refl w))
    · exact Or.inr (by rw [← Nat.mul_add]; exact Nat.mul_le_mul_left w (by omega))

end Fields
