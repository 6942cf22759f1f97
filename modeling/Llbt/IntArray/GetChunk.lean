import Llbt.IntArray.Direct

/-!
# Eight elements at a time

`Array::get_chunk` reads the eight elements from an index on.  For widths below a byte the bytes they lie in are loaded
into one word and taken apart there; a last byte that is only partly in use is left to single reads, and what is behind
the array becomes zero.

* `loadBytes_eq` — the word holds the bits of the loaded bytes;
* `readPacked_spec` — what is taken from the word are the elements, as far as the bytes go;
* `getChunk_eq` — the eight results, for every width and every start.

No sum of the source wraps around: a size has 24 bits.
-/

set_option autoImplicit false

namespace Llbt.IntArray

open Fields Node

/-- The loop over the bytes from `start + k` down to `start`. -/
def loadBytes (data start : Nat) : (k : Nat) → (c : BitVec 64) → BitVec 64
  | 0, c => c
  | k + 1, c => loadBytes data start k ((c <<< 8) + (load data 8 (start + k)).setWidth 64)

/-- The branch for `w <= 4`: the number of elements that are done, and the results. -/
def readPacked (data w size ndx : Nat) (res : Nat → Int) : Nat × (Nat → Int) :=
  let elementsPerByte := 8 / w
  let bytesAvailable := size / elementsPerByte
  let start := ndx / elementsPerByte
  let stop := min bytesAvailable ((ndx + 8 + elementsPerByte - 1) / elementsPerByte)
  if stop > start then
    let c := loadBytes data start (stop - start) 0 >>> ((ndx - start * elementsPerByte) * w)
    let mask := (1#64 <<< w) - 1#64
    (min 8 (stop * elementsPerByte - ndx), fun k => if k < 8 then ((c >>> (k * w)) &&& mask).toInt else res k)
  else (0, res)

/-- `for (; i + ndx < m_size && i < 8; i++) res[i] = get<w>(ndx + i)`, with `k` results to go. -/
def readSingle (data w size ndx : Nat) : (k i : Nat) → (Nat → Int) → Nat × (Nat → Int)
  | 0, i, res => (i, res)
  | k + 1, i, res =>
    if i + ndx < size then readSingle data w size ndx k (i + 1) (Function.update res i (getDirect data w (ndx + i)))
    else (i, res)

/-- `for (; i < 8; i++) res[i] = 0` -/
def fillZero : (k i : Nat) → (Nat → Int) → Nat → Int
  | 0, _, res => res
  | k + 1, i, res => fillZero k (i + 1) (Function.update res i 0)

/-- `get_chunk<w>`: what is at `res` afterwards. -/
def getChunk (data w size ndx : Nat) (res : Nat → Int) : Nat → Int :=
  if w = 0 then fillZero 8 0 res
  else
    let packed := if w ≤ 4 then readPacked data w size ndx res else (0, res)
    let single := readSingle data w size ndx (8 - packed.1) packed.1 packed.2
    fillZero (8 - single.1) single.1 single.2

/-! ## The word -/

theorem loadBytes_toNat (data start : Nat) : ∀ (k : Nat) (c : BitVec 64),
    (loadBytes data start k c).toNat = (c.toNat * 2 ^ (8 * k) + field data (8 * start) (8 * k)) % 2 ^ 64
  | 0, c => by
    rw [loadBytes, Nat.mul_zero, field_zero_length, Nat.pow_zero, Nat.mul_one, Nat.add_zero, Nat.mod_eq_of_lt c.isLt]
  | k + 1, c => by
    have hbyte : (load data 8 (start + k)).toNat < 2 ^ 64 := by
      have h := (load data 8 (start + k)).isLt
      omega
    have hstep : ((c <<< 8) + (load data 8 (start + k)).setWidth 64).toNat =
        (c.toNat * 2 ^ 8 + field data (8 * (start + k)) 8) % 2 ^ 64 := by
      rw [BitVec.toNat_add, BitVec.toNat_shiftLeft, BitVec.toNat_setWidth, Nat.mod_eq_of_lt hbyte, toNat_load,
        Nat.shiftLeft_eq, Nat.mod_add_mod]
    have hfield := field_add data (8 * start) (8 * k) 8
    rw [← Nat.mul_add] at hfield
    rw [loadBytes, loadBytes_toNat, hstep, Nat.mul_succ, hfield, Nat.pow_add, ← Nat.mod_add_mod, Nat.mod_mul_mod,
      Nat.mod_add_mod]
    congr 1
    ring

theorem loadBytes_eq (data start : Nat) {k : Nat} (hk : k ≤ 8) :
    (loadBytes data start k 0).toNat = field data (8 * start) (8 * k) := by
  have hlt : field data (8 * start) (8 * k) < 2 ^ 64 :=
    (field_lt _ _ _).trans_le (Nat.pow_le_pow_right Nat.two_pos (by omega))
  rw [loadBytes_toNat]
  simp only [BitVec.ofNat_eq_ofNat, BitVec.toNat_ofNat, Nat.zero_mod, Nat.zero_mul, Nat.zero_add]
  exact Nat.mod_eq_of_lt hlt

theorem toInt_masked {w : Nat} (hw : w ≤ 4) (c : BitVec 64) (shift k : Nat) :
    (((c >>> shift) >>> (k * w)) &&& ((1#64 <<< w) - 1#64)).toInt = field c.toNat (shift + k * w) w := by
  have hmask : ((1#64 <<< w) - 1#64).toNat = 2 ^ w - 1 := by
    interval_cases w <;> rfl
  have hnat : (((c >>> shift) >>> (k * w)) &&& ((1#64 <<< w) - 1#64)).toNat = field c.toNat (shift + k * w) w := by
    rw [BitVec.toNat_and, hmask, Nat.and_two_pow_sub_one_eq_mod, BitVec.toNat_ushiftRight, BitVec.toNat_ushiftRight,
      ← Nat.shiftRight_add, field]
  have hlt : field c.toNat (shift + k * w) w < 2 ^ 4 :=
    (field_lt _ _ _).trans_le (Nat.pow_le_pow_right Nat.two_pos hw)
  rw [BitVec.toInt_eq_toNat_of_lt (by omega), hnat]

/-! ## The results -/

/-- The element at an index, or zero behind the array. -/
def elementOrZero (data w size i : Nat) : Int := if i < size then getDirect data w i else 0

/-- The first `i` results are there, and nothing behind the eighth has been written. -/
structure Filled (data w size ndx : Nat) (old : Nat → Int) (i : Nat) (res : Nat → Int) : Prop where
  le : i ≤ 8
  done : ∀ k < i, res k = elementOrZero data w size (ndx + k)
  frame : ∀ k, 8 ≤ k → res k = old k

section

variable {data w size ndx i : Nat} {old res : Nat → Int}

theorem Filled.update (h : Filled data w size ndx old i res) (hi : i < 8) {x : Int}
    (hx : x = elementOrZero data w size (ndx + i)) : Filled data w size ndx old (i + 1) (Function.update res i x) where
  le := hi
  done := fun k hk => by
    rcases Nat.lt_succ_iff_lt_or_eq.mp hk with hlt | rfl
    · rw [Function.update_of_ne hlt.ne]
      exact h.done k hlt
    · rw [Function.update_self, hx]
  frame := fun k hk => by
    rw [Function.update_of_ne (by omega)]
    exact h.frame k hk

theorem Filled.single : ∀ {k i : Nat} {res : Nat → Int}, k + i = 8 → Filled data w size ndx old i res →
    Filled data w size ndx old (readSingle data w size ndx k i res).1 (readSingle data w size ndx k i res).2 ∧
      ((readSingle data w size ndx k i res).1 = 8 ∨ size ≤ (readSingle data w size ndx k i res).1 + ndx)
  | 0, i, res, hk, h => ⟨h, .inl (by rw [readSingle]; omega)⟩
  | k + 1, i, res, hk, h => by
    rw [readSingle]
    split_ifs with hin
    · refine Filled.single (by omega) (h.update (by omega) ?_)
      rw [elementOrZero, if_pos (by omega)]
    · exact ⟨h, .inr (Nat.not_lt.mp hin)⟩

theorem Filled.zeros : ∀ {k i : Nat} {res : Nat → Int}, k + i = 8 →
    (∀ j, i ≤ j → j < 8 → elementOrZero data w size (ndx + j) = 0) →
    Filled data w size ndx old i res → Filled data w size ndx old 8 (fillZero k i res)
  | 0, i, res, hk, _, h => by
    obtain rfl : i = 8 := by omega
    exact h
  | k + 1, i, res, hk, hzero, h => by
    rw [fillZero]
    refine Filled.zeros (by omega) (fun j hj => hzero j (by omega)) (h.update (by omega) ?_)
    rw [hzero i (Nat.le_refl i) (by omega)]

theorem Filled.finish {done : Nat × (Nat → Int)} (h : Filled data w size ndx old done.1 done.2) :
    Filled data w size ndx old 8 (fillZero (8 - (readSingle data w size ndx (8 - done.1) done.1 done.2).1)
      (readSingle data w size ndx (8 - done.1) done.1 done.2).1
        (readSingle data w size ndx (8 - done.1) done.1 done.2).2) := by
  obtain ⟨hsingle, hend⟩ := h.single (Nat.sub_add_cancel h.le)
  refine hsingle.zeros (Nat.sub_add_cancel hsingle.le) fun j hj hj8 => ?_
  rw [elementOrZero, if_neg (by omega)]

theorem Filled.start : Filled data w size ndx old 0 old :=
  ⟨Nat.zero_le 8, fun _ hk => absurd hk (Nat.not_lt_zero _), fun _ _ => rfl⟩

theorem packed_bounds {per : Nat} (hper : 2 ≤ per) {stop : Nat}
    (hstop : stop = min (size / per) ((ndx + 8 + per - 1) / per)) :
    stop * per ≤ size ∧ stop - ndx / per ≤ 8 := by
  have hle : stop ≤ size / per := hstop ▸ Nat.min_le_left _ _
  have hle' : stop ≤ (ndx + 8 + per - 1) / per := hstop ▸ Nat.min_le_right _ _
  refine ⟨(Nat.mul_le_mul_right per hle).trans (Nat.div_mul_le_self size per), ?_⟩
  have hwide : (ndx + 8 + per - 1) / per ≤ (ndx + 8 * per) / per := Nat.div_le_div_right (by omega)
  rw [Nat.add_mul_div_right ndx 8 (by omega)] at hwide
  omega

/-- The element `k` places behind `ndx` in the word that starts at byte `start`: its position in the payload, and that
it is in the word. -/
theorem packed_position {per start stop k : Nat} (hper : w * per = 8) (hstart : start * per ≤ ndx)
    (hk : k < stop * per - ndx) :
    8 * start + ((ndx - start * per) * w + k * w) = w * (ndx + k) ∧
      (ndx - start * per) * w + k * w + w ≤ 8 * (stop - start) := by
  obtain ⟨d, rfl⟩ := Nat.exists_eq_add_of_le hstart
  rw [Nat.add_sub_cancel_left]
  constructor
  · rw [← hper]
    ring
  · have hroom : d + k + 1 ≤ (stop - start) * per := by
      rw [Nat.sub_mul]
      omega
    calc d * w + k * w + w = (d + k + 1) * w := by ring
      _ ≤ (stop - start) * per * w := Nat.mul_le_mul_right w hroom
      _ = 8 * (stop - start) := by rw [← hper]; ring

theorem readPacked_spec (hw : IsWidth w) (hpos : 0 < w) (hle : w ≤ 4) :
    Filled data w size ndx old (readPacked data w size ndx old).1 (readPacked data w size ndx old).2 := by
  have hper : w * (8 / w) = 8 := by
    rw [IsWidth] at hw
    fin_cases hw <;> first | rfl | omega
  have htwo : 2 ≤ 8 / w := by
    interval_cases w <;> decide
  rw [readPacked]
  generalize 8 / w = per at hper htwo ⊢
  generalize hstop : min (size / per) ((ndx + 8 + per - 1) / per) = stop
  obtain ⟨hsize, hword⟩ := packed_bounds htwo hstop.symm
  dsimp only
  split_ifs with hsome
  · refine ⟨Nat.min_le_left _ _, fun k hk => ?_, fun k hk => if_neg (by omega)⟩
    have hkend : k < stop * per - ndx := lt_of_lt_of_le hk (Nat.min_le_right _ _)
    obtain ⟨hposition, hin⟩ := packed_position hper (Nat.div_mul_le_self ndx per) hkend
    refine (if_pos (lt_of_lt_of_le hk (Nat.min_le_left _ _))).trans ?_
    rw [toInt_masked hle, loadBytes_eq data _ hword, field_field _ _ hin, hposition, elementOrZero, if_pos (by omega),
      getDirect_eq data hw, decode, if_pos (by omega)]
  · exact .start

theorem getChunk_filled (hw : IsWidth w) : Filled data w size ndx old 8 (getChunk data w size ndx old) := by
  rw [getChunk]
  split_ifs with hzero hle
  · refine Filled.zeros rfl (fun j _ _ => ?_) .start
    rw [elementOrZero, hzero, getDirect, if_pos rfl, ite_self]
  · exact (readPacked_spec hw (Nat.pos_of_ne_zero hzero) hle).finish
  · exact @Filled.finish data w size ndx old (0, old) .start

end

/-- The eight results are the elements at the next eight indices, with zeros behind the array, and nothing else is
written. -/
theorem getChunk_eq {w : Nat} (hw : IsWidth w) (data size ndx : Nat) (res : Nat → Int) (k : Nat) :
    getChunk data w size ndx res k = if k < 8 then (elements data w size)[ndx + k]?.getD 0 else res k := by
  have hfilled : Filled data w size ndx res 8 (getChunk data w size ndx res) := getChunk_filled hw
  split_ifs with hk
  · rw [hfilled.done k hk, elementOrZero]
    split_ifs with hin
    · rw [getElem?_elements data w hin, Option.getD_some]
    · rw [List.getElem?_eq_none (by rw [length_elements]; omega), Option.getD_none]
  · exact hfilled.frame k (Nat.not_lt.mp hk)

/-- Eleven elements of two bits, from index 5 on: three come from the word, three from single reads, and two results are
zero. -/
theorem getChunk_eq_two_bits : IsWidth 2 ∧
    (List.range 9).map (getChunk 0x1be4e4 2 11 5 fun _ => -1) = [1, 2, 3, 3, 2, 1, 0, 0, -1] := by
  refine ⟨by decide, ?_⟩
  rw [funext (getChunk_eq (by decide) 0x1be4e4 11 5 fun _ => -1)]
  decide

end Llbt.IntArray
