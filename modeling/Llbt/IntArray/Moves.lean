import Llbt.IntArray.Direct

/-!
# Moving packed elements

The loops by which an array moves its elements over the bytes that they lie in:

* `spread` — from the top down, every element is read at the old width and written at the new one, one place further up
  or not (`getDirect_spread`);
* `openBitGap` — the elements above a position move up by one, word by word; `testBit_openBitGap`;
* `copyBytes` — elements of whole bytes move as bytes;
* `moveLoop` — elements of less than a byte move one by one, from the bottom up.
-/

set_option autoImplicit false

namespace Llbt.IntArray

open Fields Node

variable {data w w' : Nat}

/-! ## From the top down -/

/-- `while (i > lo) { --i; v = old_getter(i); setter(i + shift, v); }` for the `k` elements from `lo` on. -/
def spread (w w' lo shift : Nat) : (k data : Nat) → Nat
  | 0, data => data
  | k + 1, data => spread w w' lo shift k (setDirect data w' (lo + k + shift) (getDirect data w (lo + k)))

section Spread

variable {lo shift : Nat} (hw : IsWidth w) (hw' : IsWidth w') (hle : w ≤ w')

include hw hw' in
theorem spread_eq : ∀ (k data : Nat), spread w w' lo shift k data =
    respread (fun n => encode w' (decode w n)) w w' lo shift k data
  | 0, data => rfl
  | k + 1, data => by rw [spread, respread, spread_eq, setDirect_eq data hw', getDirect_eq data hw]

include hw hw' hle in
theorem getDirect_spread {j k : Nat} (data : Nat) (hj : j < k) :
    getDirect (spread w w' lo shift k data) w' (lo + shift + j) = getDirect data w (lo + j) := by
  have hbounds := (inBounds_getDirect data hw (lo + j)).mono hw hw' hle
  rw [getDirect_eq _ hw] at hbounds
  rw [spread_eq hw hw', getDirect_eq _ hw', field_respread hle _ hj, Nat.mod_eq_of_lt (encode_lt _ _),
    decode_encode hw' hbounds, getDirect_eq _ hw]

include hw hw' hle in
theorem getDirect_spread_start {i k : Nat} (data : Nat) (hi : i < k) :
    getDirect (spread w w' 0 0 k data) w' i = getDirect data w i := by
  have := @getDirect_spread w w' 0 0 hw hw' hle i k data hi
  rwa [Nat.add_zero, Nat.zero_add] at this

end Spread

/-! ## A gap between bits -/

/-- `for (k = last_word; k > first_word; --k) words[k] = (words[k] << width) | (words[k - 1] >> (64 - width))`, over `n`
words. -/
def shiftWords (width firstWord : Nat) : (n data : Nat) → Nat
  | 0, data => data
  | n + 1, data =>
    let k := firstWord + n + 1
    shiftWords width firstWord n (store data k ((load data 64 k <<< width) ||| (load data 64 (k - 1) >>> (64 - width))))

/-- The bits from `posBits` on move up by `width`. -/
def openBitGap (data usedBits posBits width : Nat) : Nat :=
  let firstWord := posBits / 64
  let lastWord := (usedBits + width - 1) / 64
  let data := shiftWords width firstWord (lastWord - firstWord) data
  let word := load data 64 firstWord
  let off := posBits % 64
  let keep : BitVec 64 := if off ≠ 0 then ~~~0#64 >>> (64 - off) else 0#64
  store data firstWord ((word &&& keep) ||| ((word &&& ~~~keep) <<< width))

theorem getLsbD_shifted {width k r : Nat} (data : Nat) (hk : 0 < k) (hwidth : width ≤ 64) (hr : r < 64) :
    ((load data 64 k <<< width) ||| (load data 64 (k - 1) >>> (64 - width))).getLsbD r =
      data.testBit (64 * k + r - width) := by
  rw [BitVec.getLsbD_or, BitVec.getLsbD_shiftLeft, BitVec.getLsbD_ushiftRight, getLsbD_load, getLsbD_load]
  by_cases hlow : r < width
  · rw [decide_eq_true hlow, Bool.not_true, Bool.and_false, Bool.false_and, Bool.false_or, decide_eq_true (by omega),
      Bool.true_and]
    congr 1
    omega
  · rw [decide_eq_false hlow, decide_eq_true hr, decide_eq_true (by omega),
      decide_eq_false (by omega : ¬ 64 - width + r < 64),
      Bool.false_and, Bool.or_false, Bool.not_false, Bool.true_and, Bool.true_and, Bool.true_and]
    congr 1
    omega

theorem testBit_shiftWords {width firstWord : Nat} (hwidth : width ≤ 64) : ∀ (n data b : Nat),
    (shiftWords width firstWord n data).testBit b =
      if 64 * (firstWord + 1) ≤ b ∧ b < 64 * (firstWord + n + 1) then data.testBit (b - width) else data.testBit b
  | 0, data, b => by rw [shiftWords, if_neg (by omega)]
  | n + 1, data, b => by
    rw [shiftWords, testBit_shiftWords hwidth n, testBit_store, testBit_store]
    by_cases hword : 64 * (firstWord + n + 1) ≤ b ∧ b < 64 * (firstWord + n + 1) + 64
    · -- the topmost word, which the remaining loop leaves alone
      rw [if_neg (by omega), if_pos hword, if_pos (by omega), getLsbD_shifted data (by omega) hwidth (by omega)]
      congr 1
      omega
    · rw [if_neg hword]
      by_cases hlow : 64 * (firstWord + 1) ≤ b ∧ b < 64 * (firstWord + n + 1)
      · -- a bit that moves within the words below has not been written yet
        rw [if_pos hlow, if_neg (by omega), if_pos (by omega)]
      · rw [if_neg hlow, if_neg (by omega)]

theorem getLsbD_keep {off : Nat} (hoff : off < 64) (b : Nat) :
    (if off ≠ 0 then ~~~0#64 >>> (64 - off) else 0#64).getLsbD b = decide (b < off) := by
  split
  · rw [BitVec.getLsbD_ushiftRight, BitVec.getLsbD_not, BitVec.getLsbD_zero, Bool.not_false, Bool.and_true]
    exact decide_eq_decide.mpr (by omega)
  · rename_i h
    rw [BitVec.getLsbD_zero]
    exact (decide_eq_false (by omega)).symm

theorem testBit_openBitGap {usedBits posBits width b : Nat} (data : Nat) (hwidth : width ≤ 64) :
    (b < posBits → (openBitGap data usedBits posBits width).testBit b = data.testBit b) ∧
    (posBits + width ≤ b → b < usedBits + width → (openBitGap data usedBits posBits width).testBit b =
      data.testBit (b - width)) := by
  have hoff : posBits % 64 < 64 := Nat.mod_lt _ (by decide)
  have hmid : ∀ c, 64 * (posBits / 64) ≤ c → c < 64 * (posBits / 64) + 64 →
      (shiftWords width (posBits / 64) ((usedBits + width - 1) / 64 - posBits / 64) data).testBit c =
        data.testBit c := by
    intro c hc hc'
    rw [testBit_shiftWords hwidth, if_neg (by omega)]
  constructor
  · intro hb
    rw [openBitGap, testBit_store]
    by_cases hfirst : 64 * (posBits / 64) ≤ b ∧ b < 64 * (posBits / 64) + 64
    · rw [if_pos hfirst, BitVec.getLsbD_or, BitVec.getLsbD_and, BitVec.getLsbD_shiftLeft, BitVec.getLsbD_and,
        BitVec.getLsbD_not,
        getLsbD_keep hoff, getLsbD_keep hoff, getLsbD_load, getLsbD_load,
          decide_eq_true (by omega : b - 64 * (posBits / 64) < posBits % 64),
        decide_eq_true (by omega : b - 64 * (posBits / 64) - width < posBits % 64), Bool.not_true, Bool.and_false,
          Bool.and_false,
        Bool.and_false, Bool.or_false, Bool.and_true, decide_eq_true (by omega), Bool.true_and,
          hmid _ (by omega) (by omega)]
      congr 1
      omega
    · rw [if_neg hfirst, testBit_shiftWords hwidth, if_neg (by omega)]
  · intro hb hused
    rw [openBitGap, testBit_store]
    by_cases hfirst : 64 * (posBits / 64) ≤ b ∧ b < 64 * (posBits / 64) + 64
    · rw [if_pos hfirst, BitVec.getLsbD_or, BitVec.getLsbD_and, BitVec.getLsbD_shiftLeft, BitVec.getLsbD_and,
        BitVec.getLsbD_not, getLsbD_keep hoff, getLsbD_keep hoff, getLsbD_load, getLsbD_load,
        decide_eq_false (by omega : ¬ b - 64 * (posBits / 64) < posBits % 64),
        decide_eq_false (by omega : ¬ b - 64 * (posBits / 64) - width < posBits % 64), Bool.not_false, Bool.and_false,
          Bool.false_or,
        decide_eq_true (by omega : b - 64 * (posBits / 64) < 64),
          decide_eq_false (by omega : ¬ b - 64 * (posBits / 64) < width),
        decide_eq_true (by omega : b - 64 * (posBits / 64) - width < 64), Bool.not_false, Bool.true_and, Bool.true_and,
        Bool.true_and, Bool.and_true, hmid _ (by omega) (by omega)]
      congr 1
      omega
    · rw [if_neg hfirst, testBit_shiftWords hwidth, if_pos (by omega)]

theorem getDirect_openBitGap {size ndx i : Nat} (data : Nat) (hw : IsWidth w) (hw8 : w < 8) :
    (i < ndx → getDirect (openBitGap data (size * w) (ndx * w) w) w i = getDirect data w i) ∧
    (ndx ≤ i → i < size → getDirect (openBitGap data (size * w) (ndx * w) w) w (i + 1) = getDirect data w i) := by
  constructor
  · intro hi
    have hle : w * i + w ≤ w * ndx := mul_succ_le hi (Nat.le_refl w)
    rw [getDirect_eq _ hw, getDirect_eq _ hw]
    refine congrArg (decode w) (field_ext fun b hb => ?_)
    exact (testBit_openBitGap data (by omega)).1 (by rw [Nat.mul_comm ndx w]; omega)
  · intro hndx hi
    have hle : w * i + w ≤ w * size := mul_succ_le hi (Nat.le_refl w)
    have hpos : w * ndx ≤ w * i := Nat.mul_le_mul_left w hndx
    rw [getDirect_eq _ hw, getDirect_eq _ hw]
    refine congrArg (decode w) (field_ext fun b hb => ?_)
    rw [Nat.mul_succ, (testBit_openBitGap data (by omega)).2 (by rw [Nat.mul_comm ndx w]; omega)
      (by rw [Nat.mul_comm size w]; omega)]
    congr 1
    omega

/-! ## Whole bytes -/

/-- `memmove` within the payload. -/
def copyBytes (data src dst count : Nat) : Nat := copy data (8 * src) (8 * dst) (8 * count)

theorem copyBytes_eq {b : Nat} (data src dst n : Nat) (hb : w = 8 * b) :
    copyBytes data (src * b) (dst * b) (n * b) = copy data (w * src) (w * dst) (w * n) := by
  rw [copyBytes, hb]
  congr 1 <;> ring

theorem getDirect_copyBytes {b src dst n i : Nat} (data : Nat) (hw : IsWidth w) (hb : w = 8 * b) :
    getDirect (copyBytes data (src * b) (dst * b) (n * b)) w i =
      if dst ≤ i ∧ i < dst + n then getDirect data w (src + (i - dst)) else getDirect data w i := by
  rw [copyBytes_eq data src dst n hb, getDirect_eq _ hw, getDirect_eq _ hw, getDirect_eq _ hw, field_copy,
    apply_ite (decode w)]

/-! ## One by one -/

/-- `for (i = begin; i != end; ++i) { v = getter(i); setter(dest_begin++, v); }` for `k` elements. -/
def moveLoop (w : Nat) : (k src dst data : Nat) → Nat
  | 0, _, _, data => data
  | k + 1, src, dst, data => moveLoop w k (src + 1) (dst + 1) (setDirect data w dst (getDirect data w src))

theorem getDirect_moveLoop {i : Nat} (hw : IsWidth w) : ∀ {k src dst : Nat} (data : Nat), (dst ≤ src ∨ src + k ≤ dst) →
    getDirect (moveLoop w k src dst data) w i =
      if dst ≤ i ∧ i < dst + k then getDirect data w (src + (i - dst)) else getDirect data w i
  | 0, src, dst, data, _ => by rw [moveLoop, if_neg (by omega)]
  | k + 1, src, dst, data, h => by
    rw [moveLoop, getDirect_moveLoop hw _ (by omega)]
    by_cases hfirst : i = dst
    · subst hfirst
      rw [if_neg (by omega), if_pos (by omega), Nat.sub_self, Nat.add_zero,
        getDirect_setDirect_self data _ hw (inBounds_getDirect data hw src)]
    · by_cases hin : dst ≤ i ∧ i < dst + (k + 1)
      · rw [if_pos (by omega), if_pos hin, getDirect_setDirect_of_ne data hw _ (by omega)]
        congr 1
        omega
      · rw [if_neg (by omega), if_neg hin, getDirect_setDirect_of_ne data hw _ (Ne.symm hfirst)]

end Llbt.IntArray
