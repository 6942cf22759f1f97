import Llbt.Node.Alloc

/-!
# Packed integers

An element of width `w` at index `i` takes the `w` bits at position `w * i` of the payload.  Elements of 1, 2 and 4 bits
are read and written through the byte they lie in, the others as integers of their own size.

* `getDirect_eq`, `setDirect_eq` — both accesses in terms of bit fields: `decode` of the field, and the field replaced
  by `encode`;
* `decode_encode`, `decode_mem` — every width stores the values between its bounds, and no others;
* `getDirect_setDirect_self`, `getDirect_setDirect_of_ne`, `getDirect_setDirect_of_disjoint` — the laws of memory that
  the rest uses, the last one for two widths over the same bytes.
-/

set_option autoImplicit false

namespace Llbt.IntArray

open Fields Node

variable {data w w' i j : Nat} {v : Int}

/-! ## Access -/

/-- `(data[offset] >> shift) & mask`: the byte is a signed `char`, promoted to `int`. -/
def getBits (data offset shift : Nat) (mask : BitVec 32) : Int :=
  (((load data 8 offset).signExtend 32).sshiftRight shift &&& mask).toInt

/-- `get_direct<w>` -/
def getDirect (data w ndx : Nat) : Int :=
  if w = 0 then 0
  else if w = 1 then getBits data (ndx >>> 3) (ndx &&& 7) 0x01#32
  else if w = 2 then getBits data (ndx >>> 2) ((ndx &&& 3) <<< 1) 0x03#32
  else if w = 4 then getBits data (ndx >>> 1) ((ndx &&& 1) <<< 2) 0x0f#32
  else if w = 8 then (load data 8 ndx).toInt
  else if w = 16 then (load data 16 ndx).toInt
  else if w = 32 then (load data 32 ndx).toInt
  else if w = 64 then (load data 64 ndx).toInt
  else -1

/-- `*p = uchar((*p & ~(mask << bit_ndx)) | (int(value) & mask) << bit_ndx)` -/
def setBits (data byteNdx bitNdx : Nat) (mask : BitVec 32) (value : Int) : Nat :=
  let p := (load data 8 byteNdx).setWidth 32
  store data byteNdx (((p &&& ~~~(mask <<< bitNdx)) ||| ((BitVec.ofInt 32 value &&& mask) <<< bitNdx)).setWidth 8)

/-- `set_direct<w>` -/
def setDirect (data w ndx : Nat) (value : Int) : Nat :=
  if w = 0 then data
  else if w = 1 then setBits data (ndx / 8) (ndx % 8) 0x01#32 value
  else if w = 2 then setBits data (ndx / 4) (ndx % 4 * 2) 0x03#32 value
  else if w = 4 then setBits data (ndx / 2) (ndx % 2 * 4) 0x0f#32 value
  else if w = 8 then store data ndx (BitVec.ofInt 8 value)
  else if w = 16 then store data ndx (BitVec.ofInt 16 value)
  else if w = 32 then store data ndx (BitVec.ofInt 32 value)
  else if w = 64 then store data ndx (BitVec.ofInt 64 value)
  else data

/-- `lbound_for_width` -/
def lboundForWidth (width : Nat) : Int :=
  if width = 32 then -0x80000000
  else if width = 16 then -0x8000
  else if width < 8 then 0
  else if width = 8 then -0x80
  else -0x8000000000000000

/-- `ubound_for_width` -/
def uboundForWidth (width : Nat) : Int :=
  if width = 32 then 0x7fffffff
  else if width = 16 then 0x7fff
  else if width = 0 then 0
  else if width = 1 then 1
  else if width = 2 then 3
  else if width = 4 then 15
  else if width = 8 then 0x7f
  else 0x7fffffffffffffff

/-- `value` can be stored at a width. -/
def InBounds (w : Nat) (value : Int) : Prop := lboundForWidth w ≤ value ∧ value ≤ uboundForWidth w

instance (w : Nat) (value : Int) : Decidable (InBounds w value) := inferInstanceAs (Decidable (_ ∧ _))

/-! ## Bits and values -/

/-- The value of the `w` bits `n`: unsigned below a byte, in two's complement from a byte on. -/
def decode (w n : Nat) : Int := if w < 8 then n else (n : Int).bmod (2 ^ w)

/-- The low `w` bits of a value. -/
def encode (w : Nat) (value : Int) : Nat := (value % 2 ^ w).toNat

theorem encode_lt (w : Nat) (value : Int) : encode w value < 2 ^ w := by
  have h := Int.emod_lt_of_pos value (by positivity : (0 : Int) < 2 ^ w)
  have h' := Int.emod_nonneg value (by positivity : (2 ^ w : Int) ≠ 0)
  rw [encode]
  zify
  omega

theorem encode_cast (w : Nat) (value : Int) : (encode w value : Int) = value % 2 ^ w := by
  rw [encode, Int.toNat_of_nonneg (Int.emod_nonneg value (by positivity))]

theorem bounds_of_lt (hw : IsWidth w) (h : w < 8) : lboundForWidth w = 0 ∧ uboundForWidth w = 2 ^ w - 1 := by
  rw [IsWidth] at hw
  fin_cases hw <;> first | decide | (exfalso; revert h; decide)

theorem bounds_of_le (hw : IsWidth w) (h : 8 ≤ w) : lboundForWidth w = -2 ^ (w - 1) ∧
    uboundForWidth w = 2 ^ (w - 1) - 1 := by
  rw [IsWidth] at hw
  fin_cases hw <;> first | decide | (exfalso; revert h; decide)

theorem two_pow_pred (h : 8 ≤ w) : (2 : Int) ^ w = 2 * 2 ^ (w - 1) := by
  rw [← pow_succ']
  congr 1
  omega

theorem decode_encode (hw : IsWidth w) (h : InBounds w v) : decode w (encode w v) = v := by
  obtain ⟨hl, hu⟩ := h
  rw [decode]
  split
  · rename_i hlt
    rw [(bounds_of_lt hw hlt).1] at hl
    rw [(bounds_of_lt hw hlt).2] at hu
    rw [encode_cast, Int.emod_eq_of_lt hl (by omega)]
  · rename_i hlt
    have hpow := two_pow_pred (Nat.not_lt.mp hlt)
    rw [(bounds_of_le hw (Nat.not_lt.mp hlt)).1] at hl
    rw [(bounds_of_le hw (Nat.not_lt.mp hlt)).2] at hu
    rw [encode_cast]
    have hmod : (v % 2 ^ w).bmod (2 ^ w) = v.bmod (2 ^ w) := by
      have := @Int.emod_bmod v (2 ^ w)
      push_cast at this
      exact this
    rw [hmod]
    exact Int.bmod_eq_of_le_mul_two (by push_cast; omega) (by push_cast; omega)

theorem decode_mem {n : Nat} (hw : IsWidth w) (hn : n < 2 ^ w) : InBounds w (decode w n) := by
  rw [InBounds, decode]
  split
  · rename_i hlt
    rw [(bounds_of_lt hw hlt).1, (bounds_of_lt hw hlt).2]
    zify at hn
    omega
  · rename_i hlt
    have hpow := two_pow_pred (Nat.not_lt.mp hlt)
    rw [(bounds_of_le hw (Nat.not_lt.mp hlt)).1, (bounds_of_le hw (Nat.not_lt.mp hlt)).2]
    have hle := @Int.le_bmod (n : Int) (2 ^ w) (by positivity)
    have hlt := @Int.bmod_lt (n : Int) (2 ^ w) (by positivity)
    push_cast at hle hlt
    omega

theorem InBounds.mono (hw : IsWidth w) (hw' : IsWidth w') (hle : w ≤ w') (h : InBounds w v) : InBounds w' v := by
  obtain ⟨hl, hu⟩ := h
  rw [InBounds]
  rcases Nat.lt_or_ge w' 8 with hlt' | hge'
  · have hpow : (2 : Int) ^ w ≤ 2 ^ w' := pow_le_pow_right₀ (by decide) hle
    rw [(bounds_of_lt hw (by omega)).1] at hl
    rw [(bounds_of_lt hw (by omega)).2] at hu
    rw [(bounds_of_lt hw' hlt').1, (bounds_of_lt hw' hlt').2]
    omega
  · rw [(bounds_of_le hw' hge').1, (bounds_of_le hw' hge').2]
    rcases Nat.lt_or_ge w 8 with hlt | hge
    · have hw4 : w ≤ w' - 1 := by omega
      have hpow : (2 : Int) ^ w ≤ 2 ^ (w' - 1) := pow_le_pow_right₀ (by decide) hw4
      rw [(bounds_of_lt hw hlt).1] at hl
      rw [(bounds_of_lt hw hlt).2] at hu
      have hpos : (0 : Int) < 2 ^ (w' - 1) := by positivity
      omega
    · have hpow : (2 : Int) ^ (w - 1) ≤ 2 ^ (w' - 1) := pow_le_pow_right₀ (by decide) (by omega)
      rw [(bounds_of_le hw hge).1] at hl
      rw [(bounds_of_le hw hge).2] at hu
      omega

/-! ## Access in terms of fields -/

theorem getLsbD_mask {n : Nat} (h : n ≤ 32) (b : Nat) : (BitVec.ofNat 32 (2 ^ n - 1)).getLsbD b = decide (b < n) := by
  have hlt : 2 ^ n - 1 < 2 ^ 32 :=
    Nat.lt_of_lt_of_le (Nat.sub_lt (Nat.two_pow_pos n) Nat.one_pos) (Nat.pow_le_pow_right (by decide) h)
  rw [← BitVec.testBit_toNat, BitVec.toNat_ofNat, Nat.mod_eq_of_lt hlt, Nat.testBit_two_pow_sub_one]

theorem toNat_ofInt (bits : Nat) (value : Int) : (BitVec.ofInt bits value).toNat = encode bits value := by
  rw [BitVec.toNat_ofInt, encode]
  push_cast
  rfl

theorem encode_mod {n k : Nat} (h : n ≤ k) (value : Int) : encode k value % 2 ^ n = encode n value := by
  zify
  rw [encode_cast, encode_cast]
  exact Int.emod_emod_of_dvd value (pow_dvd_pow 2 h)

theorem getBits_eq (data offset : Nat) {shift n : Nat} (h : shift + n ≤ 8) :
    getBits data offset shift (BitVec.ofNat 32 (2 ^ n - 1)) = field data (8 * offset + shift) n := by
  have hnat : (((load data 8 offset).signExtend 32).sshiftRight shift &&& BitVec.ofNat 32 (2 ^ n - 1)).toNat =
      field data (8 * offset + shift) n := by
    refine Nat.eq_of_testBit_eq fun b => ?_
    rw [BitVec.testBit_toNat, BitVec.getLsbD_and, getLsbD_mask (by omega), testBit_field]
    by_cases hb : b < n
    · rw [decide_eq_true hb, Bool.and_true, Bool.true_and, BitVec.getLsbD_sshiftRight, decide_eq_false (by omega),
        Bool.not_false,
        Bool.true_and, if_pos (by omega), BitVec.getLsbD_signExtend, decide_eq_true (by omega), Bool.true_and,
        if_pos (by omega), getLsbD_load, decide_eq_true (by omega), Bool.true_and, Nat.add_assoc]
    · rw [decide_eq_false hb, Bool.and_false, Bool.false_and]
  have hlt : field data (8 * offset + shift) n < 2 ^ 8 :=
    Nat.lt_of_lt_of_le (field_lt _ _ _) (Nat.pow_le_pow_right (by decide) (by omega))
  rw [getBits, BitVec.toInt_eq_toNat_of_lt (by rw [hnat]; omega), hnat]

theorem setBits_eq (data byteNdx : Nat) {bitNdx n : Nat} (value : Int) (h : bitNdx + n ≤ 8) :
    setBits data byteNdx bitNdx (BitVec.ofNat 32 (2 ^ n - 1)) value =
      put data (8 * byteNdx + bitNdx) n (encode n value) := by
  have hbyte : ((((load data 8 byteNdx).setWidth 32 &&& ~~~(BitVec.ofNat 32 (2 ^ n - 1) <<< bitNdx)) |||
      ((BitVec.ofInt 32 value &&& BitVec.ofNat 32 (2 ^ n - 1)) <<< bitNdx)).setWidth 8).toNat =
      put (field data (8 * byteNdx) 8) bitNdx n (encode n value) := by
    refine Nat.eq_of_testBit_eq fun b => ?_
    rw [BitVec.testBit_toNat, BitVec.getLsbD_setWidth, BitVec.getLsbD_or, BitVec.getLsbD_and, BitVec.getLsbD_not,
      BitVec.getLsbD_shiftLeft, BitVec.getLsbD_shiftLeft, BitVec.getLsbD_and, getLsbD_mask (by omega),
        BitVec.getLsbD_setWidth,
      getLsbD_load, testBit_put, testBit_field, ← encode_mod (by omega : n ≤ 32) value, Nat.testBit_mod_two_pow,
      ← toNat_ofInt, BitVec.testBit_toNat]
    by_cases h8 : b < 8
    · by_cases hin : bitNdx ≤ b ∧ b < bitNdx + n
      · rw [if_pos hin, decide_eq_true (by omega : b - bitNdx < n), decide_eq_false (by omega : ¬ b < bitNdx)]
        simp [h8, (by omega : b < 32)]
      · rw [if_neg hin]
        by_cases hlow : b < bitNdx
        · simp [h8, hlow, (by omega : b < 32)]
        · rw [decide_eq_false (by omega : ¬ b - bitNdx < n)]
          simp [h8, (by omega : b < 32)]
    · rw [if_neg (by omega), decide_eq_false h8, Bool.false_and, Bool.false_and]
  rw [setBits, store, hbyte, put_put_field _ _ _ h]

theorem byte_and_bit {per : Nat} (hper : per * w = 8) (ndx : Nat) : 8 * (ndx / per) + ndx % per * w = w * ndx := by
  rw [← hper]
  calc per * w * (ndx / per) + ndx % per * w = w * (per * (ndx / per) + ndx % per) := by ring
    _ = w * ndx := by rw [Nat.div_add_mod]

theorem getDirect_eq (data : Nat) (hw : IsWidth w) (ndx : Nat) :
    getDirect data w ndx = decode w (field data (w * ndx) w) := by
  have hload : ∀ {bits : Nat}, 8 ≤ bits → (load data bits ndx).toInt = decode bits (field data (bits * ndx) bits) := by
    intro bits hbits
    rw [decode, if_neg (by omega), ← toNat_load, BitVec.toInt_eq_toNat_bmod]
  rw [IsWidth] at hw
  fin_cases hw
  · rw [field_zero_length]
    rfl
  · have := getBits_eq data (ndx / 8) (by omega : ndx % 8 * 1 + 1 ≤ 8)
    rw [byte_and_bit (by decide)] at this
    rw [getDirect, if_neg (by decide), if_pos rfl, decode, if_pos (by decide), ← this,
      Nat.shiftRight_eq_div_pow, Nat.mul_one, Nat.and_two_pow_sub_one_eq_mod ndx 3]
    rfl
  · have := getBits_eq data (ndx / 4) (by omega : ndx % 4 * 2 + 2 ≤ 8)
    rw [byte_and_bit (by decide)] at this
    rw [getDirect, if_neg (by decide), if_neg (by decide), if_pos rfl, decode, if_pos (by decide), ← this,
      Nat.shiftRight_eq_div_pow, Nat.and_two_pow_sub_one_eq_mod ndx 2, Nat.shiftLeft_eq]
    rfl
  · have := getBits_eq data (ndx / 2) (by omega : ndx % 2 * 4 + 4 ≤ 8)
    rw [byte_and_bit (by decide)] at this
    rw [getDirect, if_neg (by decide), if_neg (by decide), if_neg (by decide), if_pos rfl, decode,
      if_pos (by decide), ← this, Nat.shiftRight_eq_div_pow, Nat.and_two_pow_sub_one_eq_mod ndx 1, Nat.shiftLeft_eq]
    rfl
  · exact hload (by decide)
  · exact hload (by decide)
  · exact hload (by decide)
  · exact hload (by decide)

theorem setDirect_eq (data : Nat) (hw : IsWidth w) (ndx : Nat) (value : Int) :
    setDirect data w ndx value = put data (w * ndx) w (encode w value) := by
  have hstore : ∀ (bits : Nat), store data ndx (BitVec.ofInt bits value) =
    put data (bits * ndx) bits (encode bits value) := by
    intro bits
    rw [store, toNat_ofInt]
  rw [IsWidth] at hw
  fin_cases hw
  · exact (put_zero_length _ _ _).symm
  · have := setBits_eq data (ndx / 8) value (by omega : ndx % 8 * 1 + 1 ≤ 8)
    rw [byte_and_bit (by decide)] at this
    rw [setDirect, if_neg (by decide), if_pos rfl, ← this, Nat.mul_one]
    rfl
  · have := setBits_eq data (ndx / 4) value (by omega : ndx % 4 * 2 + 2 ≤ 8)
    rw [byte_and_bit (by decide)] at this
    rw [setDirect, if_neg (by decide), if_neg (by decide), if_pos rfl, ← this]
    rfl
  · have := setBits_eq data (ndx / 2) value (by omega : ndx % 2 * 4 + 4 ≤ 8)
    rw [byte_and_bit (by decide)] at this
    rw [setDirect, if_neg (by decide), if_neg (by decide), if_neg (by decide), if_pos rfl, ← this]
    rfl
  · exact hstore 8
  · exact hstore 16
  · exact hstore 32
  · exact hstore 64

/-! ## The laws of memory -/

@[simp] theorem getDirect_width_zero (data ndx : Nat) : getDirect data 0 ndx = 0 := if_pos rfl

theorem inBounds_getDirect (data : Nat) (hw : IsWidth w) (ndx : Nat) : InBounds w (getDirect data w ndx) := by
  rw [getDirect_eq data hw]
  exact decode_mem hw (field_lt _ _ _)

theorem getDirect_setDirect_self (data ndx : Nat) (hw : IsWidth w) (h : InBounds w v) :
    getDirect (setDirect data w ndx v) w ndx = v := by
  rw [setDirect_eq data hw, getDirect_eq _ hw, field_put_self, Nat.mod_eq_of_lt (encode_lt w v), decode_encode hw h]

theorem getDirect_setDirect_of_disjoint (data : Nat) (hw : IsWidth w) (hw' : IsWidth w') (value : Int)
    (h : w' * j + w' ≤ w * i ∨ w * i + w ≤ w' * j) :
    getDirect (setDirect data w i value) w' j = getDirect data w' j := by
  rw [setDirect_eq data hw, getDirect_eq _ hw', getDirect_eq _ hw', field_put_of_disjoint _ h]

theorem getDirect_setDirect_of_ne (data : Nat) (hw : IsWidth w) (value : Int) (h : i ≠ j) :
    getDirect (setDirect data w i value) w j = getDirect data w j := by
  refine getDirect_setDirect_of_disjoint data hw hw value ?_
  rcases Nat.lt_or_gt_of_ne h with h | h
  · exact Or.inr (Nat.mul_succ w i ▸ Nat.mul_le_mul_left w h)
  · exact Or.inl (Nat.mul_succ w j ▸ Nat.mul_le_mul_left w h)

/-! ## The elements -/

/-- The integers that a payload holds. -/
def elements (data w size : Nat) : List Int := (List.range size).map (getDirect data w)

@[simp] theorem length_elements (data w size : Nat) : (elements data w size).length = size := by
  rw [elements, List.length_map, List.length_range]

theorem getElem?_elements (data w : Nat) {size : Nat} (h : i < size) :
    (elements data w size)[i]? = some (getDirect data w i) := by
  rw [elements, List.getElem?_map, List.getElem?_range h, Option.map_some]

end Llbt.IntArray
