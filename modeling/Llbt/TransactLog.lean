import Mathlib

/-!
# Integers in the transaction log (`transact_log.hpp`)

`encode_int` writes the seven lowest bits of a value first and marks every byte but the last with its
eighth bit.  The last byte holds six bits of the value, and the sign.  A negative value `w` is written as
`-(w + 1)`.

`read_int` may read with another type than the value was written with, and from an input that arrives
block by block.

* `read_int_encode_iff` — the value is read, or refused if it is out of range, exactly if it is not a
  negative value other than `-1` that an unsigned type has room for; and no input whatsoever makes
  `read_int` shift past the width of its type.
* `negative_read_as_unsigned` — `-2`, written as `int8_t`, is read as 254.
-/

set_option autoImplicit false

namespace Llbt.TransactLog

/-! ## Integer types -/

inductive Width where
  | w8
  | w16
  | w32
  | w64
  deriving DecidableEq

def Width.bits : Width → Nat
  | w8 => 8
  | w16 => 16
  | w32 => 32
  | w64 => 64

/-- One of `int8_t`, `uint8_t`, …, `uint64_t`. -/
structure IntType where
  signed : Bool
  width : Width
  deriving DecidableEq

namespace IntType

def digits (T : IntType) : Nat := if T.signed then T.width.bits - 1 else T.width.bits

def max (T : IntType) : Nat := 2 ^ T.digits - 1

def min (T : IntType) : Int := if T.signed then -2 ^ T.digits else 0

def InRange (T : IntType) (x : Int) : Prop := T.min ≤ x ∧ x < 2 ^ T.digits

instance (T : IntType) (x : Int) : Decidable (T.InRange x) := inferInstanceAs (Decidable (_ ∧ _))

/-- The conversion of a negated value to the type, where unsigned arithmetic wraps. -/
def ofNegated (T : IntType) (x : Int) : Int := if T.signed then x else x % 2 ^ T.width.bits

end IntType

/-! ## Writing -/

/-- The loop of `encode_int`, with `n` iterations left: the bytes written, and what is left of the value. -/
def encodeLoop : Nat → Nat → List UInt8 × Nat
  | 0, value => ([], value)
  | n + 1, value =>
    if value >>> 6 = 0 then ([], value)
    else
      let (bytes, last) := encodeLoop n (value >>> 7)
      (UInt8.ofNat ((1 <<< 7) ||| (value &&& 127)) :: bytes, last)

def lastByte (negative : Bool) (value : Nat) : UInt8 :=
  UInt8.ofNat (if negative then (1 <<< 6) ||| value else value)

/-- The bytes of a value whose sign has been taken off. -/
def encodeMagnitude (n : Nat) (negative : Bool) (value : Nat) : List UInt8 :=
  let (bytes, last) := encodeLoop n value
  bytes ++ [lastByte negative last]

def encodeInt (T : IntType) (value : Int) : List UInt8 :=
  let negative := decide (value < 0)
  let magnitude := if negative then -(value + 1) else value
  let numBits := 1 + T.digits
  encodeMagnitude ((numBits + (7 - 1)) / 7) negative magnitude.toNat

/-! ## Reading -/

/-- The rest of the block that is being read, and the blocks that `next_block` has still to deliver. -/
structure Input where
  block : List UInt8
  blocks : List (List UInt8)

namespace Input

/-- All that can still be read. -/
def contents (s : Input) : List UInt8 := s.block ++ s.blocks.flatten

/-- An empty block marks the end of the input, so none is delivered before. -/
def Wf (s : Input) : Prop := ∀ b ∈ s.blocks, b ≠ []

/-- `read_char`, with `next_input_buffer`. -/
def readChar : Input → Option (UInt8 × Input)
  | ⟨c :: block, blocks⟩ => some (c, ⟨block, blocks⟩)
  | ⟨[], (c :: block) :: blocks⟩ => some (c, ⟨block, blocks⟩)
  | ⟨[], _⟩ => none

end Input

inductive Failure where
  | parserError
  /-- A shift by the width of the type or more, or one that a value of the type does not survive. -/
  | undefinedShift
  deriving DecidableEq

/-- A shift to the left in the type. -/
def shiftLeft (T : IntType) (value i : Nat) : Except Failure Nat :=
  if i < T.width.bits ∧ value <<< i ≤ T.max then .ok (value <<< i) else .error .undefinedShift

/-- `int_shift_left_with_overflow_detect`, and the error of the caller. -/
def shiftLeftWithOverflowDetect (T : IntType) (value i : Nat) : Except Failure Nat :=
  if i < T.width.bits then
    if T.max >>> i < value then .error .parserError else shiftLeft T value i
  else .error .undefinedShift

/-- The number of bytes that `read_int` accepts. -/
def maxBytes (T : IntType) : Nat := (T.digits + 7) / 7

/-- The loop of `read_int`, with `n` iterations left: the value without its sign, and the last byte. -/
def readLoop (T : IntType) : Nat → Nat → Nat → Nat → Input → Except Failure (Nat × Nat × Input)
  | 0, _, value, part, s => .ok (value, part, s)
  | n + 1, i, value, _, s =>
    match s.readChar with
    | none => .error .parserError
    | some (c, s) =>
      let part := c.toNat
      if 0xFF < part then .error .parserError
      else if part &&& 0x80 = 0 then do
        let p ← shiftLeftWithOverflowDetect T (part &&& 0x3F) (i * 7)
        .ok (value ||| p, part, s)
      else if i = maxBytes T - 1 then .error .parserError
      else do
        let p ← shiftLeft T (part &&& 0x7F) (i * 7)
        readLoop T n (i + 1) (value ||| p) part s

def readInt (T : IntType) (s : Input) : Except Failure (Int × Input) := do
  let (value, part, s) ← readLoop T (maxBytes T + 1) 0 0 0 s
  if part &&& 0x40 ≠ 0 then
    let negated := T.ofNegated (-value)
    -- `int_subtract_with_overflow_detect(value, 1)`
    if T.InRange (negated - 1) then .ok (negated - 1, s) else .error .parserError
  else .ok (value, s)

/-! ## The widths of the types -/

section

variable {T : IntType} {i n value part : Nat} {s : Input}

theorem digits_div_lt (T : IntType) : T.digits / 7 * 7 < T.width.bits := by
  obtain ⟨signed, width⟩ := T
  cases signed <;> cases width <;> decide

theorem shift_lt (hi : i < maxBytes T) : i * 7 < T.width.bits := by
  have hdiv := digits_div_lt T
  unfold maxBytes at hi
  omega

theorem shift_le (hi : i < maxBytes T) : i * 7 ≤ T.digits := by
  unfold maxBytes at hi
  omega

theorem shift_succ_le (hi : i < maxBytes T) (hlast : i ≠ maxBytes T - 1) : i * 7 + 7 ≤ T.digits := by
  unfold maxBytes at hi hlast
  omega

theorem digits_le_last (hi : i = maxBytes T - 1) : T.digits ≤ i * 7 + 6 := by
  unfold maxBytes at hi
  omega

/-! ## One iteration -/

theorem shiftLeft_ok (hi : i < T.width.bits) (hv : value * 2 ^ i < 2 ^ T.digits) :
    shiftLeft T value i = .ok (value * 2 ^ i) := by
  unfold shiftLeft IntType.max
  rw [Nat.shiftLeft_eq, if_pos ⟨hi, by omega⟩]

theorem max_shiftRight_lt :
    T.max >>> i < value ↔ 2 ^ T.digits ≤ value * 2 ^ i := by
  unfold IntType.max
  have hpos : 0 < 2 ^ T.digits := Nat.two_pow_pos _
  rw [Nat.shiftRight_eq_div_pow, Nat.div_lt_iff_lt_mul (Nat.two_pow_pos i)]
  omega

theorem shiftLeftWithOverflowDetect_eq (hi : i < maxBytes T) :
    shiftLeftWithOverflowDetect T value (i * 7) =
      if value * 2 ^ (i * 7) < 2 ^ T.digits then .ok (value * 2 ^ (i * 7)) else .error .parserError := by
  unfold shiftLeftWithOverflowDetect
  rw [if_pos (shift_lt hi)]
  split
  · rename_i hover
    rw [if_neg (Nat.not_lt.mpr (max_shiftRight_lt.mp hover))]
  · rename_i hfits
    have hlt := Nat.not_le.mp (mt max_shiftRight_lt.mpr hfits)
    rw [if_pos hlt, shiftLeft_ok (shift_lt hi) hlt]

theorem and_high_eq_zero {b : Nat} (hb : b < 256) : b &&& 0x80 = 0 ↔ b < 128 := by
  revert b
  decide +kernel

theorem readLoop_succ {c : UInt8} {s' : Input} (hi : i < maxBytes T) (hread : s.readChar = some (c, s')) :
    readLoop T (n + 1) i value part s =
      if c.toNat < 128 then
        if c.toNat % 64 * 2 ^ (i * 7) < 2 ^ T.digits then
          .ok (value ||| c.toNat % 64 * 2 ^ (i * 7), c.toNat, s')
        else .error .parserError
      else if i = maxBytes T - 1 then .error .parserError
      else readLoop T n (i + 1) (value ||| c.toNat % 128 * 2 ^ (i * 7)) c.toNat s' := by
  have hc : c.toNat < 256 := c.toNat_lt
  have hlow : c.toNat &&& 0x3F = c.toNat % 64 := Nat.and_two_pow_sub_one_eq_mod _ 6
  have hseven : c.toNat &&& 0x7F = c.toNat % 128 := Nat.and_two_pow_sub_one_eq_mod _ 7
  rw [readLoop, hread]
  dsimp only
  rw [if_neg (by omega)]
  simp only [and_high_eq_zero hc, hlow, hseven, shiftLeftWithOverflowDetect_eq hi]
  split
  · split <;> rfl
  · split
    · rfl
    · rename_i hlast
      have hfits : c.toNat % 128 * 2 ^ (i * 7) < 2 ^ T.digits := by
        calc c.toNat % 128 * 2 ^ (i * 7) < 2 ^ 7 * 2 ^ (i * 7) :=
              Nat.mul_lt_mul_of_pos_right (Nat.mod_lt _ (by decide)) (Nat.two_pow_pos _)
          _ = 2 ^ (i * 7 + 7) := by rw [Nat.pow_add, Nat.mul_comm]
          _ ≤ 2 ^ T.digits := Nat.pow_le_pow_right (by decide) (shift_succ_le hi hlast)
      rw [shiftLeft_ok (shift_lt hi) hfits]
      rfl

/-! ## Arbitrary input -/

theorem readLoop_ne_undefined (T : IntType) : ∀ (n i value part : Nat) (s : Input), i < maxBytes T →
    readLoop T n i value part s ≠ .error .undefinedShift
  | 0, _, _, _, _, _ => fun h => nomatch h
  | n + 1, i, value, part, s, hi => by
    cases hread : s.readChar with
    | none =>
      rw [readLoop, hread]
      exact fun h => nomatch h
    | some p =>
      obtain ⟨c, s'⟩ := p
      rw [readLoop_succ hi hread]
      split
      · split <;> exact fun h => nomatch h
      · split
        · exact fun h => nomatch h
        · rename_i hlast
          exact readLoop_ne_undefined T n (i + 1) _ _ s' (by omega)

theorem maxBytes_pos (T : IntType) : 0 < maxBytes T := by
  unfold maxBytes
  omega

theorem readInt_ne_undefined (T : IntType) (s : Input) : readInt T s ≠ .error .undefinedShift := by
  intro h
  have hloop := readLoop_ne_undefined T (maxBytes T + 1) 0 0 0 s (maxBytes_pos T)
  dsimp only [readInt, bind, Except.bind] at h
  split at h
  · rename_i hr
    exact hloop (hr.trans (congrArg _ (Except.error.inj h)))
  · split at h
    · split at h <;> exact nomatch h
    · exact nomatch h

/-! ## Reading what was written -/

theorem readChar_of_contents {c : UInt8} {bytes : List UInt8} (hwf : s.Wf) (h : s.contents = c :: bytes) :
    ∃ s', s.readChar = some (c, s') ∧ s'.Wf ∧ s'.contents = bytes := by
  obtain ⟨block, blocks⟩ := s
  unfold Input.contents at h
  cases block with
  | cons b block =>
    obtain ⟨rfl, hrest⟩ := List.cons.inj h
    exact ⟨⟨block, blocks⟩, rfl, hwf, hrest⟩
  | nil =>
    cases blocks with
    | nil => exact nomatch h
    | cons b blocks =>
      cases b with
      | nil => exact absurd rfl (hwf [] List.mem_cons_self)
      | cons b block =>
        obtain ⟨rfl, hrest⟩ := List.cons.inj h
        exact ⟨⟨block, blocks⟩, rfl, fun x hx => hwf x (List.mem_cons_of_mem _ hx), hrest⟩

theorem or_shifted {k : Nat} (h : value < 2 ^ k) (p : Nat) : value ||| p * 2 ^ k = value + p * 2 ^ k := by
  rw [Nat.or_comm, Nat.mul_comm, ← Nat.two_pow_add_eq_or_of_lt h, Nat.add_comm]

/-- What the loop returns for a value with `rest` behind it: the value if the type has room for it. -/
def Reads (T : IntType) (negative : Bool) (total : Nat) (rest : List UInt8) :
    Except Failure (Nat × Nat × Input) → Prop
  | .ok (value, part, s) => total < 2 ^ T.digits ∧ value = total ∧ (part &&& 0x40 ≠ 0 ↔ negative = true) ∧
      s.Wf ∧ s.contents = rest
  | .error e => 2 ^ T.digits ≤ total ∧ e = .parserError

theorem lastByte_spec {v : Nat} (negative : Bool) (hv : v < 64) : (lastByte negative v).toNat < 128 ∧
    (lastByte negative v).toNat % 64 = v ∧ ((lastByte negative v).toNat &&& 0x40 ≠ 0 ↔ negative = true) := by
  revert v
  cases negative <;> decide

theorem markedByte_toNat (v : Nat) : (UInt8.ofNat ((1 <<< 7) ||| (v &&& 127))).toNat = 128 + v % 128 := by
  have hlow : v &&& 127 = v % 128 := Nat.and_two_pow_sub_one_eq_mod _ 7
  have hor : (1 <<< 7) ||| v % 128 = 128 + v % 128 :=
    (Nat.two_pow_add_eq_or_of_lt (i := 7) (Nat.mod_lt v (by decide)) 1).symm
  rw [hlow, hor, UInt8.toNat_ofNat']
  omega

theorem encodeMagnitude_small {v : Nat} (negative : Bool) (hv : v < 64) :
    encodeMagnitude n negative v = [lastByte negative v] := by
  unfold encodeMagnitude
  cases n with
  | zero => rfl
  | succ n =>
    rw [encodeLoop, Nat.shiftRight_eq_div_pow, if_pos (Nat.div_eq_of_lt hv)]
    rfl

theorem encodeMagnitude_large {v : Nat} (negative : Bool) (hv : 64 ≤ v) :
    encodeMagnitude (n + 1) negative v =
      UInt8.ofNat ((1 <<< 7) ||| (v &&& 127)) :: encodeMagnitude n negative (v / 128) := by
  have hne : ¬ v / 2 ^ 6 = 0 := by omega
  unfold encodeMagnitude
  rw [encodeLoop, Nat.shiftRight_eq_div_pow, if_neg hne, Nat.shiftRight_eq_div_pow]
  rfl

theorem add_lt_two_pow_iff {v d k : Nat} (hvalue : value < 2 ^ k) (hk : k ≤ d) :
    value + v * 2 ^ k < 2 ^ d ↔ v * 2 ^ k < 2 ^ d := by
  obtain ⟨m, rfl⟩ := Nat.exists_eq_add_of_le hk
  constructor
  · omega
  · intro h
    rw [Nat.pow_add, Nat.mul_comm (2 ^ k)] at h ⊢
    have hv : v + 1 ≤ 2 ^ m := Nat.lt_of_mul_lt_mul_right h
    calc value + v * 2 ^ k < 2 ^ k + v * 2 ^ k := Nat.add_lt_add_right hvalue _
      _ = (v + 1) * 2 ^ k := by ring
      _ ≤ 2 ^ m * 2 ^ k := Nat.mul_le_mul_right _ hv

theorem reads_last {v : Nat} {negative : Bool} {rest : List UInt8} (hv : v < 64) (hi : i < maxBytes T)
    (hvalue : value < 2 ^ (i * 7)) (hwf : s.Wf) (hs : s.contents = lastByte negative v :: rest) :
    Reads T negative (value + v * 2 ^ (i * 7)) rest (readLoop T (n + 1) i value part s) := by
  obtain ⟨s', hread, hwf', hs'⟩ := readChar_of_contents hwf hs
  obtain ⟨hlt, hmod, hsign⟩ := lastByte_spec negative hv
  rw [readLoop_succ hi hread, if_pos hlt, hmod, or_shifted hvalue]
  split
  · rename_i hfits
    exact ⟨(add_lt_two_pow_iff hvalue (shift_le hi)).mpr hfits, rfl, hsign, hwf', hs'⟩
  · rename_i hover
    exact ⟨Nat.not_lt.mp (mt (add_lt_two_pow_iff hvalue (shift_le hi)).mp hover), rfl⟩

theorem value_step {value v i : Nat} (hvalue : value < 2 ^ (i * 7)) :
    value + v * 2 ^ (i * 7) = value + v % 128 * 2 ^ (i * 7) + v / 128 * 2 ^ ((i + 1) * 7) ∧
      value + v % 128 * 2 ^ (i * 7) < 2 ^ ((i + 1) * 7) := by
  have hpow : 2 ^ ((i + 1) * 7) = 128 * 2 ^ (i * 7) := by
    rw [Nat.add_mul, Nat.one_mul, Nat.pow_add, Nat.mul_comm]
  rw [hpow]
  constructor
  · have hsplit : v * 2 ^ (i * 7) = (v % 128 + 128 * (v / 128)) * 2 ^ (i * 7) := by
      rw [Nat.mod_add_div]
    rw [hsplit]
    ring
  · have hle : (v % 128 + 1) * 2 ^ (i * 7) ≤ 128 * 2 ^ (i * 7) :=
      Nat.mul_le_mul_right _ (Nat.mod_lt v (by decide))
    rw [Nat.add_mul] at hle
    omega

theorem digits_le_of_last {T : IntType} {v i : Nat} (hlast : i = maxBytes T - 1) (hlarge : 64 ≤ v) :
    2 ^ T.digits ≤ v * 2 ^ (i * 7) := by
  have hdigits := digits_le_last hlast
  calc 2 ^ T.digits ≤ 2 ^ (6 + i * 7) := Nat.pow_le_pow_right (by decide) (by omega)
    _ = 64 * 2 ^ (i * 7) := Nat.pow_add 2 6 _
    _ ≤ v * 2 ^ (i * 7) := Nat.mul_le_mul_right _ hlarge

/-- **The loop of `read_int` on the bytes of `encode_int`.**  The induction is on the iterations of the
writer; `value` are the `i * 7` bits that have been read. -/
theorem reads_encodeMagnitude (T : IntType) (negative : Bool) (rest : List UInt8) (n : Nat) :
    ∀ (k v i value part : Nat) (s : Input), v < 2 ^ (n * 7 + 6) → i < maxBytes T → maxBytes T ≤ i + k →
      value < 2 ^ (i * 7) → s.Wf → s.contents = encodeMagnitude n negative v ++ rest →
      Reads T negative (value + v * 2 ^ (i * 7)) rest (readLoop T k i value part s) := by
  induction n with
  | zero =>
    intro k v i value part s hv hi hk hvalue hwf hs
    obtain ⟨k, rfl⟩ : ∃ m, k = m + 1 := ⟨k - 1, by omega⟩
    rw [encodeMagnitude_small negative hv] at hs
    exact reads_last hv hi hvalue hwf hs
  | succ n ih =>
    intro k v i value part s hv hi hk hvalue hwf hs
    obtain ⟨k, rfl⟩ : ∃ m, k = m + 1 := ⟨k - 1, by omega⟩
    rcases Nat.lt_or_ge v 64 with hsmall | hlarge
    · rw [encodeMagnitude_small negative hsmall] at hs
      exact reads_last hsmall hi hvalue hwf hs
    · rw [encodeMagnitude_large negative hlarge] at hs
      obtain ⟨s', hread, hwf', hs'⟩ := readChar_of_contents hwf hs
      have hbyte := markedByte_toNat v
      rw [readLoop_succ hi hread, hbyte, if_neg (by omega)]
      by_cases hlast : i = maxBytes T - 1
      · rw [if_pos hlast]
        exact ⟨(digits_le_of_last hlast hlarge).trans (Nat.le_add_left _ _), rfl⟩
      · rw [if_neg hlast]
        have hmod : (128 + v % 128) % 128 = v % 128 := by omega
        obtain ⟨htotal, hnext⟩ := value_step (v := v) hvalue
        rw [hmod, or_shifted hvalue, htotal]
        refine ih k (v / 128) (i + 1) _ _ s' ?_ (by omega) (by omega) hnext hwf' hs'
        rw [Nat.div_lt_iff_lt_mul (by decide)]
        calc v < 2 ^ ((n + 1) * 7 + 6) := hv
          _ = 2 ^ (n * 7 + 6) * 128 := by rw [Nat.add_mul, Nat.add_right_comm, Nat.pow_add]

end

/-- The value without its sign, as `encode_int` writes it. -/
def magnitude (w : Int) : Nat := (if w < 0 then -(w + 1) else w).toNat

theorem magnitude_of_neg {w : Int} (h : w < 0) : (magnitude w : Int) = -(w + 1) := by
  unfold magnitude
  rw [if_pos h]
  omega

theorem magnitude_of_nonneg {w : Int} (h : ¬ w < 0) : (magnitude w : Int) = w := by
  unfold magnitude
  rw [if_neg h]
  omega

theorem inRange_signed {T : IntType} (h : T.signed = true) (x : Int) :
    T.InRange x ↔ -2 ^ T.digits ≤ x ∧ x < 2 ^ T.digits := by
  unfold IntType.InRange IntType.min
  rw [if_pos h]

theorem inRange_unsigned {T : IntType} (h : T.signed = false) (x : Int) :
    T.InRange x ↔ 0 ≤ x ∧ x < 2 ^ T.width.bits := by
  unfold IntType.InRange IntType.min IntType.digits
  simp [h]

theorem min_nonpos (T : IntType) : T.min ≤ 0 := by
  unfold IntType.min
  split
  · exact neg_nonpos.mpr (pow_nonneg (by decide) _)
  · exact le_rfl

theorem magnitude_lt {S : IntType} {w : Int} (hw : S.InRange w) : magnitude w < 2 ^ S.digits := by
  have hpos : (0 : Int) < 2 ^ S.digits := pow_pos (by decide) _
  have hmin : -2 ^ S.digits ≤ w := by
    cases hsigned : S.signed with
    | true => exact ((inRange_signed hsigned w).mp hw).1
    | false => exact (neg_nonpos.mpr hpos.le).trans ((inRange_unsigned hsigned w).mp hw).1
  have hcast : (magnitude w : Int) < 2 ^ S.digits := by
    by_cases h : w < 0
    · rw [magnitude_of_neg h]
      omega
    · rw [magnitude_of_nonneg h]
      exact hw.2
  exact_mod_cast hcast

theorem readInt_encodeInt (S T : IntType) {w : Int} (hw : S.InRange w) {s : Input} (hwf : s.Wf)
    {rest : List UInt8} (hs : s.contents = encodeInt S w ++ rest) :
    (2 ^ T.digits ≤ magnitude w ∧ readInt T s = .error .parserError) ∨
    (magnitude w < 2 ^ T.digits ∧ ∃ s' : Input, s'.Wf ∧ s'.contents = rest ∧
      readInt T s = if w < 0 then
          if T.InRange (T.ofNegated (-magnitude w) - 1) then .ok (T.ofNegated (-magnitude w) - 1, s')
          else .error .parserError
        else .ok (w, s')) := by
  have hlt : magnitude w < 2 ^ ((1 + S.digits + (7 - 1)) / 7 * 7 + 6) :=
    (magnitude_lt hw).trans_le (Nat.pow_le_pow_right (by decide) (by omega))
  have hencode : encodeInt S w = encodeMagnitude ((1 + S.digits + (7 - 1)) / 7) (decide (w < 0)) (magnitude w) := by
    unfold encodeInt magnitude
    simp only [decide_eq_true_eq]
  rw [hencode] at hs
  have hreads := reads_encodeMagnitude T _ rest _ (maxBytes T + 1) _ 0 0 0 s hlt (maxBytes_pos T) (by omega)
    (Nat.two_pow_pos _) hwf hs
  rw [Nat.zero_mul, Nat.pow_zero, Nat.mul_one, Nat.zero_add] at hreads
  dsimp only [readInt, bind, Except.bind]
  cases hloop : readLoop T (maxBytes T + 1) 0 0 0 s with
  | error e =>
    rw [hloop] at hreads
    obtain ⟨hover, rfl⟩ := hreads
    exact .inl ⟨hover, rfl⟩
  | ok r =>
    obtain ⟨value, part, s'⟩ := r
    rw [hloop] at hreads
    obtain ⟨hfits, rfl, hsign, hwf', hs'⟩ := hreads
    refine .inr ⟨hfits, s', hwf', hs', ?_⟩
    rw [decide_eq_true_eq] at hsign
    dsimp only
    simp only [hsign]
    split
    · rfl
    · rename_i hpos
      rw [magnitude_of_nonneg hpos]

theorem digits_unsigned {T : IntType} (h : T.signed = false) : T.digits = T.width.bits := by
  unfold IntType.digits
  simp [h]

theorem not_inRange_of_le {T : IntType} {w : Int} (h : 2 ^ T.digits ≤ magnitude w) : ¬ T.InRange w :=
  fun hin => absurd (magnitude_lt hin) (Nat.not_lt.mpr h)

/-- What the documentation promises: the value, with exactly its bytes consumed, or an error if it is out
of range. -/
def Documented (T : IntType) (w : Int) (rest : List UInt8) (r : Except Failure (Int × Input)) : Prop :=
  (T.InRange w → ∃ s : Input, r = .ok (w, s) ∧ s.Wf ∧ s.contents = rest) ∧
  (¬ T.InRange w → r = .error .parserError)

theorem documented_ok {T : IntType} {w : Int} {rest : List UInt8} {s : Input} (hin : T.InRange w)
    (hwf : s.Wf) (hs : s.contents = rest) : Documented T w rest (.ok (w, s)) :=
  ⟨fun _ => ⟨s, rfl, hwf, hs⟩, fun h => absurd hin h⟩

theorem documented_error {T : IntType} {w : Int} {rest : List UInt8} (hout : ¬ T.InRange w) :
    Documented T w rest (.error .parserError) :=
  ⟨fun h => absurd h hout, fun _ => rfl⟩

theorem ofNegated_unsigned {T : IntType} {w : Int} (hsigned : T.signed = false) (hw : w < -1)
    (hfits : -2 ^ T.width.bits ≤ w) : T.ofNegated (- -(w + 1)) - 1 = w + 2 ^ T.width.bits := by
  have hmod : (- -(w + 1)) % 2 ^ T.width.bits = w + 1 + 2 ^ T.width.bits := by
    rw [← Int.add_emod_right, Int.emod_eq_of_lt (by omega) (by omega)]
    omega
  unfold IntType.ofNegated
  rw [hsigned, if_neg Bool.false_ne_true, hmod]
  omega

theorem documented_negative_iff {T : IntType} {w : Int} {rest : List UInt8} {s : Input} (hneg : w < 0)
    (hfits : -(w + 1) < 2 ^ T.digits) (hwf : s.Wf) (hs : s.contents = rest) :
    Documented T w rest (if T.InRange (T.ofNegated (- -(w + 1)) - 1) then
        .ok (T.ofNegated (- -(w + 1)) - 1, s) else .error .parserError) ↔
      T.signed = true ∨ -1 ≤ w ∨ w < -2 ^ T.width.bits := by
  cases hsigned : T.signed with
  | true =>
    have hin : T.InRange w := (inRange_signed hsigned w).mpr ⟨by omega, by omega⟩
    have hvalue : T.ofNegated (- -(w + 1)) - 1 = w := by
      unfold IntType.ofNegated
      rw [if_pos hsigned]
      omega
    rw [hvalue, if_pos hin]
    exact iff_of_true (documented_ok hin hwf hs) (.inl rfl)
  | false =>
    rw [digits_unsigned hsigned] at hfits
    have hout : ¬ T.InRange w := fun hin => absurd ((inRange_unsigned hsigned w).mp hin).1 (by omega)
    rcases lt_or_ge w (-1) with hlow | hminus
    · have hin : T.InRange (w + 2 ^ T.width.bits) := (inRange_unsigned hsigned _).mpr ⟨by omega, by omega⟩
      rw [ofNegated_unsigned hsigned hlow (by omega), if_pos hin]
      refine iff_of_false (fun h => nomatch h.2 hout) ?_
      rintro (h | h | h)
      · exact absurd h Bool.false_ne_true
      · omega
      · omega
    · obtain rfl : w = -1 := by omega
      have hzero : T.ofNegated (- -(-1 + 1)) - 1 = -1 := by
        unfold IntType.ofNegated
        rw [hsigned]
        rfl
      rw [hzero, if_neg hout]
      exact iff_of_true (documented_error hout) (.inr (.inl le_rfl))

/-- **Reading what was written.**  `read_int` keeps its promise exactly if the type is signed or the value
is not one of the negative values below `-1` that wrap into the type.  It never shifts past the width. -/
theorem read_int_encode_iff (S T : IntType) {w : Int} (hw : S.InRange w) {s : Input} (hwf : s.Wf)
    {rest : List UInt8} (hs : s.contents = encodeInt S w ++ rest) :
    (Documented T w rest (readInt T s) ↔ T.signed = true ∨ -1 ≤ w ∨ w < -2 ^ T.width.bits) ∧
      ∀ s', readInt T s' ≠ .error .undefinedShift := by
  refine ⟨?_, readInt_ne_undefined T⟩
  rcases readInt_encodeInt S T hw hwf hs with ⟨hover, hread⟩ | ⟨hfits, s', hwf', hs', hread⟩
  · have hcast : (2 : Int) ^ T.digits ≤ magnitude w := by exact_mod_cast hover
    rw [hread]
    refine iff_of_true (documented_error (not_inRange_of_le hover)) ?_
    cases hsigned : T.signed with
    | true => exact .inl rfl
    | false =>
      rw [digits_unsigned hsigned] at hcast
      refine .inr ?_
      by_cases hneg : w < 0
      · rw [magnitude_of_neg hneg] at hcast
        omega
      · omega
  · have hcast : (magnitude w : Int) < 2 ^ T.digits := by exact_mod_cast hfits
    rw [hread]
    by_cases hneg : w < 0
    · rw [magnitude_of_neg hneg] at hcast ⊢
      rw [if_pos hneg]
      exact documented_negative_iff hneg hcast hwf' hs'
    · rw [magnitude_of_nonneg hneg] at hcast
      have hin : T.InRange w := ⟨(min_nonpos T).trans (not_lt.mp hneg), hcast⟩
      rw [if_neg hneg]
      exact iff_of_true (documented_ok hin hwf' hs') (.inr (.inl (by omega)))

/-- 300, written as `int64_t` and delivered in two blocks, does not fit into `uint8_t`. -/
theorem read_int_encode_iff_blocks :
    IntType.InRange ⟨true, .w64⟩ 300 ∧ Documented ⟨false, .w8⟩ 300 [7] (readInt ⟨false, .w8⟩ ⟨[172], [[2, 7]]⟩) :=
  ⟨by decide, (read_int_encode_iff ⟨true, .w64⟩ ⟨false, .w8⟩ (by decide) (s := ⟨[172], [[2, 7]]⟩)
    (fun b hb => by rw [List.mem_singleton.mp hb]; decide) (by decide)).1.mpr (by decide)⟩

/-- `-2` is out of range, and is read as 254. -/
theorem negative_read_as_unsigned : IntType.InRange ⟨true, .w8⟩ (-2) ∧ ¬ IntType.InRange ⟨false, .w8⟩ (-2) ∧
    readInt ⟨false, .w8⟩ ⟨encodeInt ⟨true, .w8⟩ (-2), []⟩ = .ok (254, ⟨[], []⟩) :=
  ⟨by decide, by decide, rfl⟩

end Llbt.TransactLog
