import Llbt.Lib.Bytes

/-!
# CRC-32C checksums

The portable, table-driven path of `Crc32c::compute` (`src/llbt/core/crc32c.cpp`): every
entry of `g_table` is eight reflected shift steps of its index, and every byte of the input
is folded into the running remainder through one table entry.  The other paths fold words of eight bytes with an
instruction.

* `compute_paths` — all paths compute the remainder bit by bit, and tell strings apart that differ within 32 consecutive
  bits.
* `compute_ne_of_parity` — and strings that differ in an odd number of bits.
-/

set_option autoImplicit false

namespace Llbt.Crc32c

/-- One bit of `make_table`: `(crc >> 1) ^ (0x82f63b78u & (0u - (crc & 1u)))`. -/
def shiftBit (crc : UInt32) : UInt32 := (crc >>> 1) ^^^ (0x82f63b78 &&& (0 - (crc &&& 1)))

/-- `g_table[i]`. -/
def gTable (i : UInt32) : UInt32 :=
  shiftBit (shiftBit (shiftBit (shiftBit (shiftBit (shiftBit (shiftBit (shiftBit i)))))))

/-- The loop body of the portable path. -/
def foldByte (crc : UInt32) (byte : UInt8) : UInt32 :=
  gTable ((crc ^^^ byte.toUInt32) &&& 0xff) ^^^ (crc >>> 8)

/-- `Crc32c::compute`, as a number below `2 ^ 32`. -/
def compute (data : List UInt8) : Nat := (~~~ (data.foldl foldByte 0xffffffff)).toNat

theorem compute_lt (data : List UInt8) : compute data < 2 ^ 32 := UInt32.toNat_lt _

-- the published check value of CRC-32C over the ASCII digits 1 to 9
example : compute [0x31, 0x32, 0x33, 0x34, 0x35, 0x36, 0x37, 0x38, 0x39] = 0xe3069283 := by
  decide +kernel

/-! ## The paths with intrinsics -/

/-- The reflected remainder, one bit of the input. -/
def stepBit (crc : BitVec 32) (bit : Bool) : BitVec 32 :=
  if crc.getLsbD 0 ^^ bit then (crc >>> 1) ^^^ 0x82f63b78#32 else crc >>> 1

/-- The least significant bit of a byte comes first. -/
def bitsOf (byte : UInt8) : List Bool := (List.range 8).map byte.toBitVec.getLsbD

def bits (data : List UInt8) : List Bool := data.flatMap bitsOf

/-- The bitwise reflected CRC-32C. -/
def bitwise (data : List UInt8) : Nat := (~~~ ((bits data).foldl stepBit 0xffffffff#32)).toNat

/-- `_mm_crc32_u8`, `__crc32cb` and the instruction `crc32cb`. -/
def crc32U8 (crc : UInt32) (byte : UInt8) : UInt32 := ⟨(bitsOf byte).foldl stepBit crc.toBitVec⟩

/-- `__crc32cd` and the instruction `crc32cx`: the bytes of the word in little-endian order. -/
def crc32U64 (crc : UInt32) (word : UInt64) : UInt32 := (ByteImage.putLE 8 word.toNat).foldl crc32U8 crc

/-- `_mm_crc32_u64`, which takes and returns the remainder in a register of 64 bits. -/
def mmCrc32U64 (crc word : UInt64) : UInt64 := (crc32U64 crc.toUInt32 word).toUInt64

/-- `while (size >= sizeof(uint64_t))`: `memcpy` into a word and one instruction. -/
def foldWords {C : Type} (instruction : C → UInt64 → C) (crc : C) (data : List UInt8) : C × List UInt8 :=
  if 8 ≤ data.length then foldWords instruction (instruction crc (.ofNat (ByteImage.leVal (data.take 8)))) (data.drop 8)
  else (crc, data)
termination_by data.length

/-- `compute` with `__ARM_FEATURE_CRC32`, and `compute_apple_arm64`. -/
def computeArm64 (data : List UInt8) : Nat :=
  let (crc, data) := foldWords crc32U64 0xffffffff data
  (~~~ (data.foldl crc32U8 crc)).toNat

/-- `compute_sse42`; the words are folded on `x86_64` only. -/
def computeSse42 (x86_64 : Bool) (data : List UInt8) : Nat :=
  let (crc, data) := if x86_64 then foldWords mmCrc32U64 0xffffffff data else (0xffffffff, data)
  (~~~ (data.foldl crc32U8 crc.toUInt32)).toNat

/-! ## Remainders -/

theorem stepBit_xor (r s : BitVec 32) (a b : Bool) : stepBit (r ^^^ s) (a ^^ b) = stepBit r a ^^^ stepBit s b := by
  have hcond : ((r ^^^ s).getLsbD 0 ^^ (a ^^ b)) = ((r.getLsbD 0 ^^ a) ^^ (s.getLsbD 0 ^^ b)) := by
    rw [BitVec.getLsbD_xor, Bool.xor_assoc, Bool.xor_assoc, Bool.xor_left_comm a]
  rw [stepBit, hcond, BitVec.ushiftRight_xor_distrib, stepBit, stepBit]
  cases r.getLsbD 0 ^^ a <;> cases s.getLsbD 0 ^^ b
  · rfl
  · exact BitVec.xor_assoc ..
  · exact (BitVec.xor_assoc ..).trans ((congrArg _ (BitVec.xor_comm ..)).trans (BitVec.xor_assoc ..).symm)
  · change r >>> 1 ^^^ s >>> 1 = r >>> 1 ^^^ _ ^^^ (s >>> 1 ^^^ _)
    rw [BitVec.xor_comm (s >>> 1), ← BitVec.xor_assoc, BitVec.xor_assoc (r >>> 1), BitVec.xor_self, BitVec.xor_zero]

theorem stepBit_agree {r : BitVec 32} {a : Bool} (h : r.getLsbD 0 = a) : stepBit r a = r >>> 1 := by
  rw [stepBit, h, Bool.xor_self]
  rfl

theorem stepBit_high (r : BitVec 32) (a : Bool) : (stepBit r a).getLsbD 31 = (r.getLsbD 0 ^^ a) := by
  unfold stepBit
  cases r.getLsbD 0 ^^ a <;> simp

theorem foldl_xor : ∀ {u v : List Bool}, u.length = v.length → ∀ r s : BitVec 32,
    (List.zipWith xor u v).foldl stepBit (r ^^^ s) = u.foldl stepBit r ^^^ v.foldl stepBit s
  | [], [], _, _, _ => rfl
  | a :: u, b :: v, h, r, s => by
    simp only [List.zipWith_cons_cons, List.foldl_cons, stepBit_xor]
    exact foldl_xor (by simpa using h) _ _

theorem foldl_agree : ∀ (u : List Bool) (r : BitVec 32), (∀ i < u.length, u.getD i false = r.getLsbD i) →
    u.foldl stepBit r = r >>> u.length
  | [], r, _ => by simp
  | a :: u, r, h => by
    rw [List.foldl_cons, stepBit_agree (a := a) (h 0 (by simp)).symm, foldl_agree u]
    · rw [← BitVec.shiftRight_add, List.length_cons, Nat.add_comm]
    · intro i hi
      have := h (i + 1) (by simpa using hi)
      simpa [Nat.add_comm] using this

theorem agree_of_foldl_eq_zero : ∀ {u : List Bool} {r : BitVec 32}, u.length ≤ 32 → u.foldl stepBit r = 0#32 →
    ∀ i, u.getD i false = r.getLsbD i
  | [], r, _, h, i => by
    have : r = 0#32 := h
    simp [this]
  | a :: u, r, hlen, h, i => by
    have hlen' : u.length < 32 := hlen
    have ih := agree_of_foldl_eq_zero (by omega) (List.foldl_cons (f := stepBit) .. ▸ h)
    have hagree : r.getLsbD 0 = a := by
      have := ih 31
      rw [List.getD_eq_default _ _ (by omega), stepBit_high] at this
      simpa using this.symm
    rw [stepBit_agree hagree] at ih
    cases i with
    | zero => exact hagree.symm
    | succ i => simpa [Nat.add_comm] using ih i

theorem foldl_injective : ∀ (u : List Bool) {r s : BitVec 32}, u.foldl stepBit r = u.foldl stepBit s → r = s
  | [], _, _, h => h
  | a :: u, r, s, h => by
    have hstep : stepBit r a = stepBit s a := foldl_injective u h
    have hzero : [false].foldl stepBit (r ^^^ s) = 0#32 := by
      have := stepBit_xor r s a a
      rw [Bool.xor_self, hstep, BitVec.xor_self] at this
      exact this
    apply BitVec.eq_of_getLsbD_eq
    intro i _
    have hagree := agree_of_foldl_eq_zero (by simp) hzero i
    have hfalse : [false].getD i false = false := by cases i <;> rfl
    rw [hfalse, BitVec.getLsbD_xor] at hagree
    simpa using hagree.symm

theorem window_injective {u v : List Bool} (hlen : u.length = v.length) (h32 : u.length ≤ 32) {r : BitVec 32}
    (h : u.foldl stepBit r = v.foldl stepBit r) : u = v := by
  have hzero := foldl_xor hlen r r
  rw [h, BitVec.xor_self, BitVec.xor_self] at hzero
  have hagree := agree_of_foldl_eq_zero (by simp; omega) hzero
  apply List.ext_getElem hlen
  intro i hu hv
  have := hagree i
  simpa [hu, hv] using this

theorem shiftBit_eq (crc : UInt32) : (shiftBit crc).toBitVec = stepBit crc.toBitVec false := by
  have hone : crc.toBitVec &&& UInt32.toBitVec 1 = BitVec.setWidth 32 (BitVec.ofBool (crc.toBitVec.getLsbD 0)) :=
    BitVec.and_one_eq_setWidth_ofBool_getLsbD
  have hshift : (crc >>> 1).toBitVec = crc.toBitVec >>> 1 := rfl
  simp only [shiftBit, stepBit, UInt32.toBitVec_xor, UInt32.toBitVec_and, UInt32.toBitVec_sub, Bool.xor_false,
    hone, hshift]
  cases crc.toBitVec.getLsbD 0
  · exact BitVec.xor_zero
  · rfl

theorem foldByte_eq (crc : UInt32) (byte : UInt8) : foldByte crc byte = crc32U8 crc byte := by
  let low := (crc ^^^ byte.toUInt32) &&& 0xff
  have hmask : ∀ i, (255#32).getLsbD i = decide (i < 8) := fun i => by
    rw [BitVec.getLsbD_ofNat, show 255 = 2 ^ 8 - 1 from rfl, Nat.testBit_two_pow_sub_one]
    simp
    omega
  have hlow : ∀ i, low.toBitVec.getLsbD i = (decide (i < 8) && (crc.toBitVec.getLsbD i ^^ byte.toBitVec.getLsbD i)) :=
    fun i => by
    simp only [low, UInt32.toBitVec_and, UInt32.toBitVec_xor, BitVec.getLsbD_and, BitVec.getLsbD_xor,
      UInt8.toBitVec_toUInt32, BitVec.getLsbD_setWidth]
    rw [show UInt32.toBitVec 0xff = 255#32 from rfl, hmask, Bool.and_comm]
    by_cases hi : i < 8
    · have : i < 32 := by omega
      simp [hi, this]
    · simp [hi]
  have htable : (gTable low).toBitVec = (List.replicate 8 false).foldl stepBit low.toBitVec := by
    simp [gTable, shiftBit_eq]
  -- without the bits of the table index, the remainder agrees with the byte and is only shifted
  have hrest : (bitsOf byte).foldl stepBit (low.toBitVec ^^^ crc.toBitVec) = crc.toBitVec >>> 8 := by
    rw [foldl_agree]
    · apply BitVec.eq_of_getLsbD_eq
      intro i _
      simp [bitsOf, hlow]
    · intro i hi
      have hi : i < 8 := by simpa [bitsOf] using hi
      simp [bitsOf, hlow, hi]
      cases crc.toBitVec.getLsbD i <;> simp
  have hsplit := foldl_xor (u := List.replicate 8 false) (v := bitsOf byte)
    (by simp [bitsOf]) low.toBitVec (low.toBitVec ^^^ crc.toBitVec)
  have hzip : List.zipWith xor (List.replicate 8 false) (bitsOf byte) = bitsOf byte := by
    simp [bitsOf, List.range_succ]
  rw [hzip, hrest, ← BitVec.xor_assoc, BitVec.xor_self, BitVec.zero_xor, ← htable] at hsplit
  exact UInt32.toBitVec_inj.mp hsplit.symm

theorem foldWords_eq {C : Type} {instruction : C → UInt64 → C} {remainder : C → UInt32}
    (h : ∀ crc word, remainder (instruction crc word) = crc32U64 (remainder crc) word) (crc : C) (data : List UInt8) :
    (foldWords instruction crc data).2.foldl crc32U8 (remainder (foldWords instruction crc data).1) =
      data.foldl crc32U8 (remainder crc) := by
  fun_induction foldWords instruction crc data with
  | case1 crc data hlen ih =>
    have hlen8 : (data.take 8).length = 8 := by simpa using hlen
    have hword : ByteImage.putLE 8 (UInt64.ofNat (ByteImage.leVal (data.take 8))).toNat = data.take 8 := by
      apply ByteImage.leVal_injective (by simp [hlen8])
      have hlt := ByteImage.leVal_lt (data.take 8)
      rw [hlen8] at hlt
      rw [ByteImage.leVal_putLE, UInt64.toNat_ofNat']
      omega
    rw [ih, h, crc32U64, hword, ← List.foldl_append, List.take_append_drop]
  | case2 crc data hlen => rfl

theorem foldl_bits : ∀ (data : List UInt8) (crc : UInt32), (data.foldl crc32U8 crc).toBitVec =
    (bits data).foldl stepBit crc.toBitVec
  | [], _ => rfl
  | byte :: data, crc => by
    rw [List.foldl_cons, foldl_bits data, show bits (byte :: data) = bitsOf byte ++ bits data from rfl,
      List.foldl_append]
    rfl

theorem bitwise_eq (data : List UInt8) : bitwise data = (~~~ (data.foldl crc32U8 0xffffffff)).toNat := by
  rw [bitwise, ← UInt32.toNat_toBitVec, UInt32.toBitVec_not, foldl_bits]
  rfl

theorem compute_eq (data : List UInt8) : compute data = bitwise data := by
  rw [compute, bitwise_eq, show foldByte = crc32U8 from funext fun crc => funext (foldByte_eq crc)]

theorem computeArm64_eq (data : List UInt8) : computeArm64 data = bitwise data := by
  have hwords := @foldWords_eq UInt32 crc32U64 id (fun _ _ => by simp only [id]) 0xffffffff data
  simp only [id] at hwords
  rw [bitwise_eq]
  show (~~~ ((foldWords crc32U64 0xffffffff data).2.foldl crc32U8 (foldWords crc32U64 0xffffffff data).1)).toNat = _
  rw [hwords]

theorem computeSse42_eq (x86_64 : Bool) (data : List UInt8) : computeSse42 x86_64 data = bitwise data := by
  rw [bitwise_eq]
  cases x86_64 with
  | false => rfl
  | true =>
    have hwords := @foldWords_eq UInt64 mmCrc32U64 UInt64.toUInt32
      (fun crc word => by simp [mmCrc32U64]) 0xffffffff data
    show (~~~ ((foldWords mmCrc32U64 0xffffffff data).2.foldl crc32U8
      (foldWords mmCrc32U64 0xffffffff data).1.toUInt32)).toNat = _
    rw [hwords]
    rfl

/-! ## Bursts -/

theorem length_bits : ∀ data : List UInt8, (bits data).length = 8 * data.length
  | [] => rfl
  | byte :: data => by
    have := length_bits data
    simp only [bits, List.flatMap_cons, List.length_append, List.length_cons] at this ⊢
    simp only [this, bitsOf, List.length_map, List.length_range]
    omega

theorem bits_injective : ∀ {a b : List UInt8}, bits a = bits b → a = b
  | [], [], _ => rfl
  | [], b :: bs, h => by
    have := congrArg List.length h
    simp [length_bits] at this
  | a :: as, [], h => by
    have := congrArg List.length h
    simp [length_bits] at this
  | a :: as, b :: bs, h => by
    obtain ⟨hfirst, hrest⟩ := List.append_inj (show bitsOf a ++ bits as = bitsOf b ++ bits bs from h) (by simp [bitsOf])
    have hbyte : a = b := by
      apply UInt8.toBitVec_inj.mp
      apply BitVec.eq_of_getLsbD_eq
      intro i hi
      exact List.map_inj_left.mp hfirst i (List.mem_range.mpr hi)
    rw [hbyte, bits_injective hrest]

theorem foldl_eq_of_compute_eq {a b : List UInt8} (h : compute a = compute b) :
    (bits a).foldl stepBit 0xffffffff#32 = (bits b).foldl stepBit 0xffffffff#32 := by
  rw [compute_eq, compute_eq, bitwise, bitwise] at h
  simpa using BitVec.eq_of_toNat_eq h

theorem compute_ne_of_burst {a b : List UInt8} (hlen : a.length = b.length) (hne : a ≠ b) {k : Nat}
    (hsame : ∀ i, i < k ∨ k + 32 ≤ i → (bits a)[i]? = (bits b)[i]?) : compute a ≠ compute b := by
  intro heq
  have hfold := foldl_eq_of_compute_eq heq
  have hbefore : (bits a).take k = (bits b).take k := by
    apply List.ext_getElem?
    intro i
    simp only [List.getElem?_take]
    split
    · exact hsame i (.inl ‹_›)
    · rfl
  have hbehind : ((bits a).drop k).drop 32 = ((bits b).drop k).drop 32 := by
    apply List.ext_getElem?
    intro i
    simpa [Nat.add_assoc] using hsame (k + 32 + i) (.inr (by omega))
  have hsplit : ∀ l : List Bool, l = l.take k ++ ((l.drop k).take 32 ++ (l.drop k).drop 32) := fun l => by simp
  apply hne
  apply bits_injective
  rw [hsplit (bits a), hsplit (bits b), List.foldl_append, List.foldl_append, List.foldl_append, List.foldl_append,
    hbefore, hbehind] at hfold
  have hwindow := window_injective (by simp [length_bits, hlen]) (by simp) (foldl_injective _ hfold)
  rw [hsplit (bits a), hsplit (bits b), hbefore, hbehind, hwindow]

/-- **Checksums.**  Every path computes the bitwise reflected CRC-32C; and if two strings of one length differ, but only
within 32 consecutive bits (in the order in which the remainder takes them), so do their checksums. -/
theorem compute_paths :
    (∀ data, compute data = bitwise data ∧ computeArm64 data = bitwise data ∧ ∀ x86_64, computeSse42 x86_64 data =
      bitwise data) ∧
    ∀ a b : List UInt8, a.length = b.length → a ≠ b → (∃ k, ∀ i, i < k ∨ k + 32 ≤ i → (bits a)[i]? = (bits b)[i]?) →
      compute a ≠ compute b := by
  constructor
  · exact fun data => ⟨compute_eq data, computeArm64_eq data, fun x86_64 => computeSse42_eq x86_64 data⟩
  · rintro a b hlen hne ⟨k, hsame⟩
    exact compute_ne_of_burst hlen hne hsame

/-! ## Parity -/

/-- The exclusive or of the first `n` bits. -/
def xorBits (f : Nat → Bool) : Nat → Bool
  | 0 => false
  | n + 1 => xorBits f n ^^ f n

theorem xorBits_xor (f g : Nat → Bool) : ∀ n, xorBits (fun i => f i ^^ g i) n = (xorBits f n ^^ xorBits g n)
  | 0 => rfl
  | n + 1 => by
    rw [xorBits, xorBits_xor f g n, xorBits, xorBits]
    simp only [Bool.xor_assoc, Bool.xor_left_comm]

theorem xorBits_succ (f : Nat → Bool) : ∀ n, xorBits f (n + 1) = (f 0 ^^ xorBits (fun i => f (i + 1)) n)
  | 0 => by simp [xorBits]
  | n + 1 => by rw [xorBits, xorBits_succ f n, xorBits, Bool.xor_assoc]

/-- The constant has an odd number of ones, so a step changes the parity exactly if the bit is one. -/
theorem parity_stepBit (r : BitVec 32) (a : Bool) : xorBits (stepBit r a).getLsbD 32 = (xorBits r.getLsbD 32 ^^ a) := by
  have hstep : (stepBit r a).getLsbD = fun i =>
    r.getLsbD (i + 1) ^^ ((r.getLsbD 0 ^^ a) && (0x82f63b78#32).getLsbD i) := by
    funext i
    unfold stepBit
    cases r.getLsbD 0 ^^ a <;> simp [Nat.add_comm]
  have hpoly : ∀ c : Bool, xorBits (fun i => c && (0x82f63b78#32).getLsbD i) 32 = c := by decide
  have hshift := xorBits_succ r.getLsbD 32
  rw [xorBits, BitVec.getLsbD_of_ge r 32 le_rfl, Bool.xor_false] at hshift
  rw [hstep, xorBits_xor, hpoly, hshift]
  cases r.getLsbD 0 <;> cases a <;> simp

theorem parity_foldl : ∀ (u : List Bool) (r : BitVec 32),
    xorBits (u.foldl stepBit r).getLsbD 32 = (xorBits r.getLsbD 32 ^^ decide (u.count true % 2 = 1))
  | [], r => by simp
  | a :: u, r => by
    rw [List.foldl_cons, parity_foldl u, parity_stepBit, Bool.xor_assoc, List.count_cons]
    rcases Nat.mod_two_eq_zero_or_one (u.count true) with h | h <;> cases a <;> simp [h, Nat.add_mod]

/-- **Every odd number of wrong bits is detected.**  Strings of any lengths have different checksums if one has an odd
number of ones and the other an even number. -/
theorem compute_ne_of_parity {a b : List UInt8} (h : (bits a).count true % 2 ≠ (bits b).count true % 2) :
    compute a ≠ compute b := by
  intro heq
  have hparity := congrArg (fun r => xorBits r.getLsbD 32) (foldl_eq_of_compute_eq heq)
  rw [parity_foldl, parity_foldl, Bool.xor_right_inj, decide_eq_decide] at hparity
  omega

/-- One wrong bit, and a byte of zeros appended. -/
theorem compute_ne_of_parity_appended :
    (bits [7]).count true % 2 ≠ (bits [5, 0]).count true % 2 ∧ compute [7] ≠ compute [5, 0] :=
  have h : (bits [7]).count true % 2 ≠ (bits [5, 0]).count true % 2 := by decide
  ⟨h, compute_ne_of_parity h⟩

end Llbt.Crc32c
