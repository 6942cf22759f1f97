import Llbt.IntArray.Moves
import Llbt.Lib.Indexed
import Llbt.Node.Room

/-!
# The integer array

`IntArray` is the accessor of a node of packed integers: it caches the width of the header and the bounds of that width.
The operations are those of the class `Array`; `none` is a failed release assertion.

`Holds W a xs` says that the array holds the list `xs` at a width of at most `W`.  Each operation has one lemma,
`Holds.insert`, `Holds.set` and so on: with room for the result (`Room`) it returns, and the array then holds the list
that the operation stands for.
-/

set_option autoImplicit false

namespace Llbt

/-- The accessor: `m_width`, `m_lbound` and `m_ubound` are cached; the getter and the setter are those of the width. -/
structure IntArray where
  node : Node
  width : Nat
  lbound : Int
  ubound : Int

namespace IntArray

open Fields Node Indexed

/-! ## The code -/

def size (a : IntArray) : Nat := a.node.size

def data (a : IntArray) : Nat := a.node.data

/-- `(this->*m_getter)(ndx)` -/
def get (a : IntArray) (ndx : Nat) : Int := getDirect a.data a.width ndx

def setData (data : Nat) (a : IntArray) : IntArray := { a with node := a.node.setData data }

/-- `(this->*(m_vtable->setter))(ndx, value)` -/
def setter (ndx : Nat) (value : Int) (a : IntArray) : IntArray := a.setData (setDirect a.data a.width ndx value)

def updateWidthCacheFromHeader (n : Node) : IntArray where
  node := n
  width := n.width
  lbound := lboundForWidth n.width
  ubound := uboundForWidth n.width

/-- The minimum number of bits that a value needs. -/
def bitWidth (v : Int) : Nat :=
  if encode 64 v >>> 4 = 0 then
    [0, 1, 2, 2, 4, 4, 4, 4, 4, 4, 4, 4, 4, 4, 4, 4].getD v.toNat 0
  else
    -- `~v`
    let v := if v < 0 then -v - 1 else v
    if encode 64 v >>> 31 ≠ 0 then 64 else if encode 64 v >>> 15 ≠ 0 then 32
      else if encode 64 v >>> 7 ≠ 0 then 16 else 8

def alloc (initSize newWidth : Nat) (a : IntArray) : Option IntArray :=
  (a.node.alloc calcByteLen initSize newWidth).map updateWidthCacheFromHeader

def copyOnWrite (a : IntArray) : Option IntArray := a.node.copyOnWrite.map fun n => { a with node := n }

def doEnsureMinimumWidth (value : Int) (a : IntArray) : Option IntArray :=
  (a.alloc a.size (bitWidth value)).map fun b => b.setData (spread a.width b.width 0 0 b.size b.data)

def ensureMinimumWidth (value : Int) (a : IntArray) : Option IntArray :=
  if value ≥ a.lbound ∧ value ≤ a.ubound then some a else a.doEnsureMinimumWidth value

/-- The elements above `ndx` move up by one, at the width that they have. -/
def openGap (data oldWidth oldSize ndx : Nat) : Nat :=
  if oldWidth < 8 then
    if oldWidth ≠ 0 ∧ ndx ≠ oldSize then openBitGap data (oldSize * oldWidth) (ndx * oldWidth) oldWidth else data
  else if ndx ≠ oldSize then
    let w := if oldWidth = 64 then 8 else if oldWidth = 32 then 4 else if oldWidth = 16 then 2 else 1
    -- `std::copy_backward`
    copyBytes data (ndx * w) (ndx * w + w) (oldSize * w - ndx * w)
  else data

def insert (ndx : Nat) (value : Int) (a : IntArray) : Option IntArray :=
  if value < a.lbound ∨ value > a.ubound then
    (a.alloc (a.size + 1) (bitWidth value)).map fun b =>
      let b := b.setData (spread a.width b.width ndx 1 (a.size - ndx) b.data)
      let b := b.setter ndx value
      b.setData (spread a.width b.width 0 0 ndx b.data)
  else
    (a.alloc (a.size + 1) a.width).map fun b => (b.setData (openGap b.data a.width a.size ndx)).setter ndx value

def add (value : Int) (a : IntArray) : Option IntArray := a.insert a.size value

def set (ndx : Nat) (value : Int) (a : IntArray) : Option IntArray :=
  if a.get ndx = value then some a
  else a.copyOnWrite.bind fun a => (a.ensureMinimumWidth value).map (setter ndx value)

/-- `move(begin, end, dest_begin)` -/
def move (first last destFirst : Nat) (a : IntArray) : Option IntArray :=
  a.copyOnWrite.map fun a =>
    let bitsPerElem := if getWtypeFromHeader a.node.header = .multiply then a.width * 8 else a.width
    if bitsPerElem < 8 then a.setData (moveLoop a.width (last - first) first destFirst a.data)
    else
      let bytesPerElem := bitsPerElem / 8
      a.setData (copyBytes a.data (first * bytesPerElem) (destFirst * bytesPerElem)
        (last * bytesPerElem - first * bytesPerElem))

def erase (ndx : Nat) (a : IntArray) : Option IntArray :=
  (a.move (ndx + 1) a.size ndx).map fun a => { a with node := a.node.setSize (a.size - 1) }

/-- `erase(begin, end)` -/
def eraseRange (first last : Nat) (a : IntArray) : Option IntArray :=
  if first ≠ last then
    (a.move last a.size first).map fun a => { a with node := a.node.setSize (a.size - (last - first)) }
  else some a

def truncate (newSize : Nat) (a : IntArray) : Option IntArray :=
  if newSize = a.size then some a
  else a.copyOnWrite.map fun a =>
    let node := a.node.setSize newSize
    if newSize = 0 then updateWidthCacheFromHeader (node.setWidth 0) else { a with node := node }

/-- The loop of `move(dst, ndx)`: `k` elements from index `i` of the source are written from index `dest` on. -/
def appendLoop (src : IntArray) : (k i dest : Nat) → IntArray → IntArray
  | 0, _, _, dst => dst
  | k + 1, i, dest, dst => appendLoop src k (i + 1) (dest + 1) (dst.setter dest (src.get i))

/-- `move(dst, ndx)`: both arrays after it. -/
def moveTo (ndx : Nat) (a dst : IntArray) : Option (IntArray × IntArray) :=
  dst.copyOnWrite.bind fun d => (d.ensureMinimumWidth a.ubound).bind fun d =>
    (d.alloc (d.size + (a.size - ndx)) d.width).bind fun d =>
      (a.truncate ndx).map fun a' => (a', appendLoop a (a.size - ndx) ndx dst.size d)

/-- The pass of `adjust` that finds the smallest and the largest element. -/
def scanBounds (a : IntArray) : (k i : Nat) → (mn mx : Int) → Int × Int
  | 0, _, mn, mx => (mn, mx)
  | k + 1, i, mn, mx => scanBounds a k (i + 1) (if a.get i < mn then a.get i else mn)
    (if a.get i > mx then a.get i else mx)

/-- The rare case: `set` widens as it goes. -/
def adjustSlow (diff : Int) : (k i : Nat) → IntArray → Option IntArray
  | 0, _, a => some a
  | k + 1, i, a => (a.set i (a.get i + diff)).bind (adjustSlow diff k (i + 1))

/-- One element in the loop for the current width. -/
def adjustElement (width : Nat) (diff : Int) (data i : Nat) : Nat :=
  if width = 8 then store data i (BitVec.ofInt 8 ((load data 8 i).toInt + diff))
  else if width = 16 then store data i (BitVec.ofInt 16 ((load data 16 i).toInt + diff))
  else if width = 32 then store data i (BitVec.ofInt 32 ((load data 32 i).toInt + diff))
  else if width = 64 then store data i (BitVec.ofInt 64 ((load data 64 i).toInt + diff))
  else setDirect data width i (getDirect data width i + diff)

def adjustFast (width : Nat) (diff : Int) : (k i data : Nat) → Nat
  | 0, _, data => data
  | k + 1, i, data => adjustFast width diff k (i + 1) (adjustElement width diff data i)

/-- `adjust(begin, end, diff)` -/
def adjust (first last : Nat) (diff : Int) (a : IntArray) : Option IntArray :=
  if diff = 0 ∨ first ≥ last then some a
  else
    let (mn, mx) := a.scanBounds (last - first) first 0x7fffffffffffffff (-0x8000000000000000)
    if mn + diff < a.lbound ∨ mx + diff > a.ubound then adjustSlow diff (last - first) first a
    else a.copyOnWrite.map fun a => a.setData (adjustFast a.width diff (last - first) first a.data)

/-- `adjust(ndx, diff)` -/
def adjustAt (ndx : Nat) (diff : Int) (a : IntArray) : Option IntArray :=
  if diff ≠ 0 then a.set ndx (a.get ndx + diff) else some a

def create (blocks : Nat → Nat) : Option IntArray :=
  (createNode 0 false false false .bits 0 blocks).map updateWidthCacheFromHeader

/-! ## How many bits a value needs -/

theorem encode_of_nonneg {v : Int} (h : 0 ≤ v) (h' : v < 2 ^ 64) : encode 64 v = v.toNat := by
  rw [encode, Int.emod_eq_of_lt h h']

theorem bounds_sixtyfour {v : Int} : InBounds 64 v ↔ -0x8000000000000000 ≤ v ∧ v ≤ 0x7fffffffffffffff := Iff.rfl

theorem bitWidth_of_small {v : Int} (h0 : 0 ≤ v) (h : v < 16) :
    bitWidth v = [0, 1, 2, 2, 4, 4, 4, 4, 4, 4, 4, 4, 4, 4, 4, 4].getD v.toNat 0 := by
  rw [bitWidth, if_pos]
  rw [encode_of_nonneg h0 (by omega), Nat.shiftRight_eq_div_pow]
  omega

theorem bitWidth_of_large {v : Int} (hv : InBounds 64 v) (h : v < 0 ∨ 16 ≤ v) :
    bitWidth v = if InBounds 8 v then 8 else if InBounds 16 v then 16 else if InBounds 32 v then 32 else 64 := by
  obtain ⟨hlow, hhigh⟩ := bounds_sixtyfour.mp hv
  have hfirst : encode 64 v >>> 4 ≠ 0 := by
    have := encode_cast 64 v
    rw [Nat.shiftRight_eq_div_pow]
    omega
  have h8 : InBounds 8 v ↔ -128 ≤ v ∧ v ≤ 127 := Iff.rfl
  have h16 : InBounds 16 v ↔ -32768 ≤ v ∧ v ≤ 32767 := Iff.rfl
  have h32 : InBounds 32 v ↔ -2147483648 ≤ v ∧ v ≤ 2147483647 := Iff.rfl
  rw [bitWidth, if_neg hfirst]
  simp only [h8, h16, h32]
  -- `v` or its complement
  obtain ⟨u, hu, hflip⟩ : ∃ u, (if v < 0 then -v - 1 else v) = u ∧ (v < 0 ∧ u = -v - 1 ∨ 0 ≤ v ∧ u = v) := by
    refine ⟨_, rfl, ?_⟩
    split <;> omega
  rw [hu, encode_of_nonneg (by omega) (by omega)]
  simp only [Nat.shiftRight_eq_div_pow]
  split_ifs <;> omega

theorem bitWidth_spec {v : Int} (hv : InBounds 64 v) :
    IsWidth (bitWidth v) ∧ InBounds (bitWidth v) v ∧ ∀ W, IsWidth W → InBounds W v → bitWidth v ≤ W := by
  by_cases hsmall : 0 ≤ v ∧ v < 16
  · obtain ⟨h0, h16⟩ := hsmall
    rw [bitWidth_of_small h0 h16]
    have hmin : ∀ W ∈ [0, 1, 2, 4, 8, 16, 32, 64], ∀ n < 16, InBounds W (Int.ofNat n) →
        [0, 1, 2, 2, 4, 4, 4, 4, 4, 4, 4, 4, 4, 4, 4, 4].getD n 0 ≤ W := by decide
    have hmem : ∀ n < 16, IsWidth ([0, 1, 2, 2, 4, 4, 4, 4, 4, 4, 4, 4, 4, 4, 4, 4].getD n 0) ∧
        InBounds ([0, 1, 2, 2, 4, 4, 4, 4, 4, 4, 4, 4, 4, 4, 4, 4].getD n 0) (Int.ofNat n) := by decide
    obtain ⟨n, rfl⟩ := Int.eq_ofNat_of_zero_le h0
    have hn : n < 16 := by omega
    exact ⟨(hmem n hn).1, (hmem n hn).2, fun W hW hin => hmin W hW n hn hin⟩
  · rw [bitWidth_of_large hv (by omega)]
    have hge : ∀ W, IsWidth W → InBounds W v → 8 ≤ W := by
      intro W hW hin
      by_contra hlt
      have hbounds := bounds_of_lt hW (by omega)
      have hpow : (2 : Int) ^ W ≤ 2 ^ 4 := by
        refine pow_le_pow_right₀ (by decide) ?_
        have := hW.cases
        omega
      rw [InBounds, hbounds.1, hbounds.2] at hin
      omega
    have hstep : ∀ {u W : Nat}, IsWidth u → IsWidth W → ¬ InBounds u v → InBounds W v → u < W := by
      intro u W hu hW hnot hin
      by_contra hle
      exact hnot (hin.mono hW hu (by omega))
    split
    · rename_i h8
      exact ⟨by decide, h8, hge⟩
    split
    · rename_i h8 h16
      refine ⟨by decide, h16, fun W hW hin => ?_⟩
      have := hstep (by decide) hW h8 hin
      have := hW.cases
      omega
    split
    · rename_i h8 h16 h32
      refine ⟨by decide, h32, fun W hW hin => ?_⟩
      have := hstep (by decide) hW h16 hin
      have := hW.cases
      omega
    · rename_i h8 h16 h32
      refine ⟨by decide, hv, fun W hW hin => ?_⟩
      have := hstep (by decide) hW h32 hin
      have := hW.cases
      omega

/-! ## The list that an array holds -/

/-- The array holds the list `xs`, at a width of at most `W`. -/
structure Holds (W : Nat) (a : IntArray) (xs : List Int) : Prop where
  sized : a.node.Sized .bits
  width_eq : a.width = a.node.width
  lbound_eq : a.lbound = lboundForWidth a.width
  ubound_eq : a.ubound = uboundForWidth a.width
  width_le : a.width ≤ W
  size_eq : a.size = xs.length
  values : Reads xs a.get

section Specs

variable {W : Nat} {a b : IntArray} {xs : List Int}

theorem Holds.isWidth (h : Holds W a xs) : IsWidth a.width := h.width_eq ▸ isWidth_getWidth _

theorem Holds.inBounds_iff (h : Holds W a xs) (value : Int) : value ≥ a.lbound ∧ value ≤ a.ubound ↔
    InBounds a.width value := by
  rw [h.lbound_eq, h.ubound_eq]
  rfl

theorem Holds.inBounds_get (h : Holds W a xs) (i : Nat) : InBounds a.width (a.get i) := inBounds_getDirect _ h.isWidth i

theorem Holds.between (h : Holds W a xs) {x : Int} (hx : x ∈ xs) : a.lbound ≤ x ∧ x ≤ a.ubound := by
  obtain ⟨i, -, rfl⟩ := h.values.get_of_mem hx
  exact (h.inBounds_iff _).mpr (h.inBounds_get i)

theorem Holds.setData (h : Holds W a xs) {d : Nat} {ys : List Int} (hlen : ys.length = xs.length)
    (hvalues : Reads ys (getDirect d a.width)) : Holds W (a.setData d) ys :=
  ⟨h.sized.setData d, h.width_eq, h.lbound_eq, h.ubound_eq, h.width_le, h.size_eq.trans hlen.symm, hvalues⟩

theorem Holds.setter (h : Holds W a xs) {ndx : Nat} {value : Int} (hvalue : InBounds a.width value) :
    Holds W (a.setter ndx value) (xs.set ndx value) := by
  refine h.setData List.length_set (h.values.set ?_ fun i hi => ?_)
  · exact getDirect_setDirect_self _ _ h.isWidth hvalue
  · exact getDirect_setDirect_of_ne _ h.isWidth _ (Ne.symm hi)

/-! ### Allocation -/

/-- What `alloc` returns: room for `s` elements of width `w`, and the old elements still at the old width. -/
structure Allocated (a b : IntArray) (s w : Nat) : Prop where
  sized : b.node.Sized .bits
  width_node : b.width = b.node.width
  lbound_eq : b.lbound = lboundForWidth b.width
  ubound_eq : b.ubound = uboundForWidth b.width
  width_eq : b.width = w
  size_eq : b.size = s
  kept : ∀ i, i < a.size → getDirect b.data a.width i = a.get i

theorem Holds.get_of_keeps (h : Holds W a xs) {n : Node} (hkeeps : a.node.KeepsElements n) {i : Nat} (hi : i < a.size) :
    getDirect n.data a.width i = a.get i := by
  rw [get, getDirect_eq _ h.isWidth, getDirect_eq _ h.isWidth, hkeeps _ _ (h.width_eq ▸ mul_succ_le hi (Nat.le_refl _))]
  rfl

theorem Holds.alloc (h : Holds W a xs) (hnow : Room W xs.length) {s w : Nat} (hw : IsWidth w) (hle : w ≤ W)
    (hroom : Room W s) :
    ∃ b, a.alloc s w = some b ∧ Allocated a b s w := by
  obtain ⟨n, hn, hsized, hwidth, hsize, hkeeps⟩ := h.sized.exists_alloc (show Room W a.size from h.size_eq.symm ▸ hnow)
    (h.width_eq ▸ h.width_le) hw hle hroom
  refine ⟨updateWidthCacheFromHeader n, by rw [IntArray.alloc, hn, Option.map_some], ?_⟩
  exact ⟨hsized, rfl, rfl, rfl, hwidth, hsize, fun i hi => h.get_of_keeps hkeeps hi⟩

theorem Holds.copyOnWrite (h : Holds W a xs) (hnow : Room W xs.length) :
    ∃ b, a.copyOnWrite = some b ∧ Holds W b xs ∧ b.width = a.width := by
  obtain ⟨n, hn, hsized, hwidth, hsize, hkeeps⟩ :=
    h.sized.exists_copyOnWrite (show Room W a.size from h.size_eq.symm ▸ hnow) (h.width_eq ▸ h.width_le)
  refine ⟨{ a with node := n }, by rw [IntArray.copyOnWrite, hn, Option.map_some], ?_, rfl⟩
  refine ⟨hsized, h.width_eq.trans hwidth.symm, h.lbound_eq, h.ubound_eq, h.width_le, hsize.trans h.size_eq, ?_⟩
  exact h.values.congr fun i hi => h.get_of_keeps hkeeps (h.size_eq.symm ▸ hi)

theorem Allocated.holds {s w : Nat} (h : Allocated a b s w) (hle : w ≤ W) {d : Nat} {ys : List Int}
    (hlen : ys.length = s)
    (hvalues : Reads ys (getDirect d w)) : Holds W (b.setData d) ys := by
  obtain rfl := h.width_eq
  exact ⟨h.sized.setData d, h.width_node, h.lbound_eq, h.ubound_eq, hle, h.size_eq.trans hlen.symm, hvalues⟩

theorem Holds.decode_kept (h : Holds W a xs) {s w i : Nat} (halloc : Allocated a b s w) (hw : IsWidth w)
    (hle : a.width ≤ w)
    (hi : i < a.size) : decode w (encode w (decode a.width (field b.data (a.width * i) a.width)) % 2 ^ w) =
    a.get i := by
  have hkept := halloc.kept i hi
  rw [getDirect_eq _ h.isWidth] at hkept
  rw [hkept, Nat.mod_eq_of_lt (encode_lt _ _), decode_encode hw ((h.inBounds_get i).mono h.isWidth hw hle)]

/-! ### Widening -/

theorem isWidth_le {w : Nat} (h : IsWidth w) : w ≤ 64 := by
  have := h.cases
  omega

theorem Holds.bitWidth_spec (h : Holds W a xs) (hW : IsWidth W) {v : Int} (hv : InBounds W v)
    (hout : ¬ (v ≥ a.lbound ∧ v ≤ a.ubound)) :
    IsWidth (bitWidth v) ∧ InBounds (bitWidth v) v ∧ bitWidth v ≤ W ∧ a.width ≤ bitWidth v := by
  obtain ⟨hwidth, hin, hmin⟩ := IntArray.bitWidth_spec (hv.mono hW (by decide) (isWidth_le hW))
  refine ⟨hwidth, hin, hmin W hW hv, ?_⟩
  by_contra hlt
  exact hout ((h.inBounds_iff v).mpr (hin.mono hwidth h.isWidth (by omega)))

theorem Holds.ensureMinimumWidth (h : Holds W a xs) (hW : IsWidth W) (hroom : Room W xs.length) {v : Int}
    (hv : InBounds W v) :
    ∃ b, a.ensureMinimumWidth v = some b ∧ Holds W b xs ∧ InBounds b.width v := by
  rw [IntArray.ensureMinimumWidth]
  split
  · rename_i hin
    exact ⟨a, rfl, h, (h.inBounds_iff v).mp hin⟩
  · rename_i hout
    obtain ⟨hwidth, hin, hle, hwider⟩ := h.bitWidth_spec hW hv hout
    obtain ⟨b, hb, halloc⟩ := h.alloc hroom hwidth hle (h.size_eq.symm ▸ hroom)
    refine ⟨b.setData (spread a.width b.width 0 0 b.size b.data), by rw [doEnsureMinimumWidth, hb, Option.map_some],
      halloc.holds hle h.size_eq.symm (h.values.congr fun i hi => ?_), ?_⟩
    · rw [← h.size_eq] at hi
      rw [halloc.width_eq, halloc.size_eq, getDirect_spread_start h.isWidth hwidth hwider _ hi, halloc.kept i hi]
    · exact halloc.width_eq.symm ▸ hin

theorem Holds.set (h : Holds W a xs) (hW : IsWidth W) (hroom : Room W xs.length) {ndx : Nat} {v : Int}
    (hv : InBounds W v) : ∃ b, a.set ndx v = some b ∧ Holds W b (xs.set ndx v) := by
  rw [IntArray.set]
  split
  · rename_i heq
    refine ⟨a, rfl, ?_⟩
    rw [← heq, h.values.set_self]
    exact h
  · obtain ⟨c, hc, hholds, -⟩ := h.copyOnWrite hroom
    obtain ⟨b, hb, hholds', hin⟩ := hholds.ensureMinimumWidth hW hroom hv
    exact ⟨b.setter ndx v, by rw [hc, Option.bind_some, hb, Option.map_some], hholds'.setter hin⟩

/-! ### Insertion -/

theorem getDirect_openGap {w oldSize ndx i : Nat} (d : Nat) (hw : IsWidth w) :
    (i < ndx → getDirect (openGap d w oldSize ndx) w i = getDirect d w i) ∧
    (ndx ≤ i → i < oldSize → getDirect (openGap d w oldSize ndx) w (i + 1) = getDirect d w i) := by
  rw [openGap]
  split
  · rename_i hw8
    split
    · exact getDirect_openBitGap d hw hw8
    · rename_i hnone
      rcases not_and_or.mp hnone with hzero | hend
      · obtain rfl := not_not.mp hzero
        exact ⟨fun _ => rfl, fun _ _ => (getDirect_width_zero _ _).trans (getDirect_width_zero _ _).symm⟩
      · exact ⟨fun _ => rfl, fun _ _ => by omega⟩
  · rename_i hw8
    split
    · have hbytes : w = 8 * (if w = 64 then 8 else if w = 32 then 4 else if w = 16 then 2 else 1) := by
        have := hw.cases
        split_ifs <;> omega
      generalize (if w = 64 then 8 else if w = 32 then 4 else if w = 16 then 2 else 1) = b at hbytes
      have hcopy := fun j => @getDirect_copyBytes w b ndx (ndx + 1) (oldSize - ndx) j d hw hbytes
      rw [Nat.sub_mul, Nat.succ_mul] at hcopy
      refine ⟨fun hi => ?_, fun hndx hi => ?_⟩
      · rw [hcopy, if_neg (by omega)]
      · rw [hcopy, if_pos (by omega)]
        congr 1
        omega
    · exact ⟨fun _ => rfl, fun _ _ => by omega⟩

theorem Holds.insert (h : Holds W a xs) (hW : IsWidth W) (hroom : Room W (xs.length + 1)) {ndx : Nat}
    (hndx : ndx ≤ xs.length) {v : Int}
    (hv : InBounds W v) : ∃ b, a.insert ndx v = some b ∧ Holds W b (xs.insertIdx ndx v) := by
  have hnow : Room W xs.length := hroom.mono (Nat.le_succ _)
  have hlen : (xs.insertIdx ndx v).length = a.size + 1 := by rw [List.length_insertIdx, if_pos hndx, h.size_eq]
  have hndx' : ndx ≤ a.size := h.size_eq ▸ hndx
  rw [IntArray.insert]
  split
  · rename_i hout
    obtain ⟨hwidth, hin, hle, hwider⟩ := h.bitWidth_spec hW hv (by omega)
    obtain ⟨b, hb, halloc⟩ := h.alloc hnow hwidth hle (h.size_eq.symm ▸ hroom)
    obtain ⟨hbelow, hat, habove⟩ := @field_respread_insert (fun n => encode (bitWidth v) (decode a.width n)) a.width
      (bitWidth v) ndx a.size
      (encode (bitWidth v) v) hwider b.data (encode_lt _ _)
    refine ⟨b.setData (spread a.width b.width 0 0 ndx
      (setDirect (spread a.width b.width ndx 1 (a.size - ndx) b.data) b.width ndx v)), ?_,
      halloc.holds hle hlen (h.values.insertIdx hndx (fun i hi => ?_) ?_ fun i hndx hi => ?_)⟩
    · rw [hb, Option.map_some]
      rfl
    all_goals rw [halloc.width_eq, spread_eq h.isWidth hwidth, setDirect_eq _ hwidth, spread_eq h.isWidth hwidth,
      getDirect_eq _ hwidth]
    · rw [hbelow i hi, h.decode_kept halloc hwidth hwider (by omega)]
    · rw [hat, decode_encode hwidth hin]
    · rw [habove i hndx (h.size_eq ▸ hi), h.decode_kept halloc hwidth hwider (h.size_eq ▸ hi)]
  · rename_i hin
    have hin' : InBounds a.width v := (h.inBounds_iff v).mp (by omega)
    obtain ⟨b, hb, halloc⟩ := h.alloc hnow h.isWidth h.width_le (h.size_eq.symm ▸ hroom)
    refine ⟨b.setData (setDirect (openGap b.data a.width a.size ndx) b.width ndx v), ?_,
      halloc.holds h.width_le hlen (h.values.insertIdx hndx (fun i hi => ?_) ?_ fun i hndx hi => ?_)⟩
    · rw [hb, Option.map_some]
      rfl
    · rw [halloc.width_eq, getDirect_setDirect_of_ne _ h.isWidth _ (by omega), (getDirect_openGap _ h.isWidth).1 hi]
      exact halloc.kept i (by omega)
    · rw [halloc.width_eq, getDirect_setDirect_self _ _ h.isWidth hin']
    · rw [← h.size_eq] at hi
      rw [halloc.width_eq, getDirect_setDirect_of_ne _ h.isWidth _ (by omega),
        (getDirect_openGap _ h.isWidth).2 hndx hi]
      exact halloc.kept i hi

/-! ### Moving and cutting -/

theorem Holds.move (h : Holds W a xs) (hroom : Room W xs.length) {first last destFirst : Nat} (hfirst : first ≤ last)
    (hlast : last ≤ xs.length) (hdest : destFirst + (last - first) ≤ xs.length)
    (hout : ¬ (destFirst ≥ first ∧ destFirst < last)) :
    ∃ b, a.move first last destFirst = some b ∧ Holds W b (overwrite xs first last destFirst) ∧ b.size = a.size := by
  obtain ⟨c, hc, hholds, -⟩ := h.copyOnWrite hroom
  have hsize : c.size = a.size := hholds.size_eq.trans h.size_eq.symm
  have hvalues : ∀ {d : Nat}, (∀ i, getDirect d c.width i =
      if destFirst ≤ i ∧ i < destFirst + (last - first) then getDirect c.data c.width (first + (i - destFirst))
      else getDirect c.data c.width i) → Holds W (c.setData d) (overwrite xs first last destFirst) := by
    intro d hd
    exact hholds.setData (length_overwrite hlast hfirst hdest) (hholds.values.overwrite hlast hfirst hdest hd)
  have hbits : (if getWtypeFromHeader c.node.header = .multiply then c.width * 8 else c.width) = c.width :=
    if_neg (by rw [hholds.sized.wtype_eq]; decide)
  simp only [IntArray.move, hc, Option.map_some, hbits]
  split
  · exact ⟨_, rfl, hvalues fun i => getDirect_moveLoop hholds.isWidth _ (by omega), hsize⟩
  · rename_i hw8
    have hbytes : c.width = 8 * (c.width / 8) := by
      have := hholds.isWidth.cases
      omega
    refine ⟨_, rfl, hvalues fun i => ?_, hsize⟩
    rw [← Nat.sub_mul]
    exact getDirect_copyBytes _ hholds.isWidth hbytes

theorem Holds.setSize (h : Holds W a xs) {size : Nat} (hsize : size ≤ xs.length) :
    Holds W { a with node := a.node.setSize size } (xs.take size) := by
  have hlen : (xs.take size).length = size := by
    rw [List.length_take]
    omega
  have hnode : size ≤ a.node.size := by
    rw [← IntArray.size, h.size_eq]
    exact hsize
  exact ⟨h.sized.setSize hnode, h.width_eq.trans (getWidth_setSize _ _).symm, h.lbound_eq, h.ubound_eq,
    h.width_le, hlen.symm, h.values.take size⟩

theorem Holds.eraseRange (h : Holds W a xs) (hroom : Room W xs.length) {first last : Nat} (hfirst : first ≤ last)
    (hlast : last ≤ xs.length) :
    ∃ b, a.eraseRange first last = some b ∧ Holds W b (xs.take first ++ xs.drop last) := by
  rw [IntArray.eraseRange]
  split
  · obtain ⟨b, hb, hholds, hsize⟩ := @Holds.move W a xs h hroom last xs.length first hlast (Nat.le_refl _)
      (by omega) (by omega)
    have hcut := @Holds.setSize W b _ hholds (xs.length - (last - first)) (by rw [length_overwrite] <;> omega)
    rw [take_overwrite hfirst hlast] at hcut
    refine ⟨_, by rw [h.size_eq, hb, Option.map_some], ?_⟩
    rw [hsize, h.size_eq]
    exact hcut
  · rename_i heq
    obtain rfl := not_not.mp heq
    rw [List.take_append_drop]
    exact ⟨a, rfl, h⟩

theorem Holds.erase (h : Holds W a xs) (hroom : Room W xs.length) {ndx : Nat} (hndx : ndx < xs.length) :
    ∃ b, a.erase ndx = some b ∧ Holds W b (xs.eraseIdx ndx) := by
  obtain ⟨b, hb, hholds⟩ := h.eraseRange hroom (Nat.le_succ ndx) hndx
  rw [IntArray.eraseRange, if_pos (by omega), Nat.succ_eq_add_one, Nat.add_sub_cancel_left] at hb
  rw [List.eraseIdx_eq_take_drop_succ]
  exact ⟨b, hb, hholds⟩

theorem Holds.truncate (h : Holds W a xs) (hroom : Room W xs.length) {newSize : Nat} (hsize : newSize ≤ xs.length) :
    ∃ b, a.truncate newSize = some b ∧ Holds W b (xs.take newSize) := by
  rw [IntArray.truncate]
  split
  · rename_i heq
    rw [heq, h.size_eq, List.take_length]
    exact ⟨a, rfl, h⟩
  · obtain ⟨c, hc, hholds, -⟩ := h.copyOnWrite hroom
    have hcut := hholds.setSize hsize
    rw [hc, Option.map_some]
    refine ⟨_, rfl, ?_⟩
    split
    · rename_i hzero
      subst hzero
      have hwidth : ((c.node.setSize 0).setWidth 0).width = 0 := getWidth_setWidth _ (by decide)
      refine ⟨hcut.sized.setWidth (by decide) rfl, rfl, rfl, rfl, ?_, rfl, ?_⟩
      · dsimp only [updateWidthCacheFromHeader]
        rw [hwidth]
        exact Nat.zero_le _
      · rw [List.take_zero]
        exact reads_nil _
    · exact hcut

/-! ### Moving to another array -/

theorem le_of_inBounds_ubound {w w' : Nat} (hw : IsWidth w) (hw' : IsWidth w') (h : InBounds w' (uboundForWidth w)) :
    w ≤ w' := by
  have hall : ∀ w ∈ [0, 1, 2, 4, 8, 16, 32, 64], ∀ w' ∈ [0, 1, 2, 4, 8, 16, 32, 64], InBounds w' (uboundForWidth w) →
    w ≤ w' := by decide
  exact hall w hw w' hw' h

theorem inBounds_ubound {w : Nat} (hw : IsWidth w) : InBounds w (uboundForWidth w) := by
  have hall : ∀ w ∈ [0, 1, 2, 4, 8, 16, 32, 64], InBounds w (uboundForWidth w) := by decide
  exact hall w hw

theorem appendLoop_spec (src : IntArray) : ∀ {k i dest : Nat} {d : IntArray}, IsWidth d.width →
    (∀ j, j < k → InBounds d.width (src.get (i + j))) → ∃ data', appendLoop src k i dest d = d.setData data' ∧
      ∀ m, getDirect data' d.width m = if dest ≤ m ∧ m < dest + k then src.get (i + (m - dest))
        else getDirect d.data d.width m
  | 0, i, dest, d, _, _ => ⟨d.data, rfl, fun m => by rw [if_neg (by omega)]⟩
  | k + 1, i, dest, d, hw, hin => by
    obtain ⟨data', hloop, hvalues⟩ := @appendLoop_spec src k (i + 1) (dest + 1)
      (d.setter dest (src.get i)) hw fun j hj => by
      have := hin (j + 1) (by omega)
      rwa [Nat.add_comm j 1, ← Nat.add_assoc] at this
    refine ⟨data', hloop, fun m => (hvalues m).trans ?_⟩
    have hset : (d.setter dest (src.get i)).data = setDirect d.data d.width dest (src.get i) := rfl
    have hwidth : (d.setter dest (src.get i)).width = d.width := rfl
    rw [hset, hwidth]
    by_cases hfirst : m = dest
    · subst hfirst
      rw [if_neg (by omega), if_pos (by omega), Nat.sub_self, Nat.add_zero]
      exact getDirect_setDirect_self _ _ hw (hin 0 (Nat.succ_pos k))
    · rw [getDirect_setDirect_of_ne _ hw _ (Ne.symm hfirst)]
      by_cases hrest : dest ≤ m ∧ m < dest + (k + 1)
      · rw [if_pos (by omega), if_pos hrest]
        congr 1
        omega
      · rw [if_neg (by omega), if_neg hrest]

theorem Holds.moveTo (h : Holds W a xs) {ys : List Int} (hb : Holds W b ys) (hW : IsWidth W) {ndx : Nat}
    (hndx : ndx ≤ xs.length)
    (hroom : Room W xs.length) (hroom' : Room W (ys.length + (xs.length - ndx))) :
    ∃ a' b', a.moveTo ndx b = some (a', b') ∧ Holds W a' (xs.take ndx) ∧ Holds W b' (ys ++ xs.drop ndx) := by
  have hnow : Room W ys.length := hroom'.mono (Nat.le_add_right _ _)
  have hubound : InBounds W a.ubound := h.ubound_eq ▸ (inBounds_ubound h.isWidth).mono h.isWidth hW h.width_le
  obtain ⟨c, hc, hcholds, -⟩ := hb.copyOnWrite hnow
  obtain ⟨d, hd, hdholds, hdbound⟩ := hcholds.ensureMinimumWidth hW hnow hubound
  have hwider : a.width ≤ d.width := le_of_inBounds_ubound h.isWidth hdholds.isWidth (h.ubound_eq ▸ hdbound)
  have hsizes : d.size + (a.size - ndx) = ys.length + (xs.length - ndx) := by rw [hdholds.size_eq, h.size_eq]
  obtain ⟨e, he, halloc⟩ := hdholds.alloc hnow hdholds.isWidth hdholds.width_le (hsizes.symm ▸ hroom')
  obtain ⟨a', ha', hcut⟩ := h.truncate hroom hndx
  have hewidth : IsWidth e.width := halloc.width_eq.symm ▸ hdholds.isWidth
  obtain ⟨data', hloop, hvalues⟩ := @appendLoop_spec a (a.size - ndx) ndx b.size e hewidth fun j _ => by
    rw [halloc.width_eq]
    exact (h.inBounds_get _).mono h.isWidth hdholds.isWidth hwider
  refine ⟨a', e.setData data', ?_, hcut, halloc.holds hdholds.width_le ?_ (hdholds.values.append (h.values.drop ndx)
    (fun i hi => ?_) fun i hi => ?_)⟩
  · rw [IntArray.moveTo, hc, Option.bind_some, hd, Option.bind_some, he, Option.bind_some, ha', Option.map_some, hloop]
  · rw [List.length_append, List.length_drop, hsizes]
  · rw [← halloc.width_eq, hvalues, hb.size_eq, if_neg (by omega), halloc.width_eq]
    exact halloc.kept i (hdholds.size_eq.symm ▸ hi)
  · rw [List.length_drop] at hi
    rw [← halloc.width_eq, hvalues, hb.size_eq, h.size_eq, if_pos (by omega), Nat.add_sub_cancel_left]

/-! ### Adjusting -/

/-- `diff` is added to the elements from `first` to `last`. -/
def adjusted (xs : List Int) (first last : Nat) (diff : Int) : List Int := mapRange (· + diff) first last xs

theorem scanBounds_spec (a : IntArray) : ∀ (k i : Nat) (mn mx : Int),
    (a.scanBounds k i mn mx).1 ≤ mn ∧ mx ≤ (a.scanBounds k i mn mx).2 ∧
      ∀ j, j < k → (a.scanBounds k i mn mx).1 ≤ a.get (i + j) ∧ a.get (i + j) ≤ (a.scanBounds k i mn mx).2
  | 0, i, mn, mx => ⟨Int.le_refl _, Int.le_refl _, fun j hj => by omega⟩
  | k + 1, i, mn, mx => by
    obtain ⟨hmn, hmx, hall⟩ :=
      scanBounds_spec a k (i + 1) (if a.get i < mn then a.get i else mn) (if a.get i > mx then a.get i else mx)
    rw [scanBounds]
    have hmn' : (if a.get i < mn then a.get i else mn) ≤ mn ∧ (if a.get i < mn then a.get i else mn) ≤ a.get i := by
      split <;> omega
    have hmx' : mx ≤ (if a.get i > mx then a.get i else mx) ∧ a.get i ≤ (if a.get i > mx then a.get i else mx) := by
      split <;> omega
    refine ⟨Int.le_trans hmn hmn'.1, Int.le_trans hmx'.1 hmx, fun j hj => ?_⟩
    cases j with
    | zero => exact ⟨Int.le_trans hmn hmn'.2, Int.le_trans hmx'.2 hmx⟩
    | succ j =>
      have := hall j (by omega)
      rwa [Nat.add_assoc, Nat.add_comm 1 j] at this

theorem adjustElement_eq (width : Nat) (diff : Int) (d i : Nat) :
    adjustElement width diff d i = setDirect d width i (getDirect d width i + diff) := by
  rw [adjustElement]
  split
  · rename_i h
    subst h
    rfl
  split
  · rename_i h
    subst h
    rfl
  split
  · rename_i h
    subst h
    rfl
  split
  · rename_i h
    subst h
    rfl
  · rfl

theorem adjustFast_spec {w : Nat} (hw : IsWidth w) (diff : Int) : ∀ {k i : Nat} (d : Nat),
    (∀ j, j < k → InBounds w (getDirect d w (i + j) + diff)) → ∀ m,
      getDirect (adjustFast w diff k i d) w m = if i ≤ m ∧ m < i + k then getDirect d w m + diff else getDirect d w m
  | 0, i, d, _, m => by rw [adjustFast, if_neg (by omega)]
  | k + 1, i, d, hin, m => by
    have hrest : ∀ j, j < k → getDirect (adjustElement w diff d i) w (i + 1 + j) = getDirect d w (i + 1 + j) :=
      fun j _ => by
      rw [adjustElement_eq, getDirect_setDirect_of_ne _ hw _ (by omega)]
    rw [adjustFast, adjustFast_spec hw diff _ fun j hj => by
      rw [hrest j hj, Nat.add_assoc, Nat.add_comm 1 j]
      exact hin (j + 1) (by omega)]
    by_cases hfirst : m = i
    · subst hfirst
      rw [if_neg (by omega), if_pos (by omega), adjustElement_eq]
      exact getDirect_setDirect_self _ _ hw (hin 0 (Nat.succ_pos k))
    · rw [adjustElement_eq, getDirect_setDirect_of_ne _ hw _ (Ne.symm hfirst)]
      exact if_congr (by omega) rfl rfl

theorem Holds.adjustSlow (hW : IsWidth W) (diff : Int) : ∀ {k i : Nat} {a : IntArray} {xs : List Int}, Holds W a xs →
    Room W xs.length →
    i + k ≤ xs.length → (∀ j x, j < k → xs[i + j]? = some x → InBounds W (x + diff)) →
      ∃ b, adjustSlow diff k i a = some b ∧ Holds W b (adjusted xs i (i + k) diff)
  | 0, i, a, xs, h, _, _, _ => by
    refine ⟨a, rfl, ?_⟩
    rw [adjusted, Nat.add_zero, mapRange_of_le (Nat.le_refl i)]
    exact h
  | k + 1, i, a, xs, h, hroom, hlen, hin => by
    have hget := h.values i (by omega)
    obtain ⟨c, hc, hholds⟩ := @Holds.set W a xs h hW hroom i _ (hin 0 _ (Nat.succ_pos k) hget)
    obtain ⟨b, hb, hholds'⟩ := hholds.adjustSlow hW diff (k := k) (i := i + 1) (by rw [List.length_set]; exact hroom)
      (by rw [List.length_set]; omega) fun j x hj hx => by
        rw [List.getElem?_set, if_neg (by omega), Nat.add_assoc, Nat.add_comm 1 j] at hx
        exact hin (j + 1) x (by omega) hx
    rw [adjusted, mapRange_succ hget] at hholds'
    exact ⟨b, by rw [IntArray.adjustSlow, hc, Option.bind_some, hb], hholds'⟩

theorem Holds.adjust (h : Holds W a xs) (hW : IsWidth W) (hroom : Room W xs.length) {first last : Nat}
    (hlast : last ≤ xs.length) {diff : Int}
    (hin : ∀ i x, first ≤ i → i < last → xs[i]? = some x → InBounds W (x + diff)) :
    ∃ b, a.adjust first last diff = some b ∧ Holds W b (adjusted xs first last diff) := by
  rw [IntArray.adjust]
  split
  · rename_i hnone
    refine ⟨a, rfl, ?_⟩
    rcases hnone with rfl | hle
    · rw [adjusted, mapRange_id _ _ Int.add_zero]
      exact h
    · rw [adjusted, mapRange_of_le hle]
      exact h
  rename_i hsome
  obtain ⟨-, -, hscan⟩ := scanBounds_spec a (last - first) first 0x7fffffffffffffff (-0x8000000000000000)
  generalize a.scanBounds (last - first) first 0x7fffffffffffffff (-0x8000000000000000) = bounds at hscan
  obtain ⟨mn, mx⟩ := bounds
  dsimp only at hscan ⊢
  split
  · obtain ⟨b, hb, hholds⟩ := h.adjustSlow hW diff (k := last - first) (i := first) hroom (by omega) fun j x hj hx =>
      hin _ x (by omega) (by omega) hx
    rw [Nat.add_sub_cancel' (by omega)] at hholds
    exact ⟨b, hb, hholds⟩
  · rename_i hfits
    obtain ⟨c, hc, hholds, hwidth⟩ := h.copyOnWrite hroom
    -- the copy holds the same elements, so they are within the same bounds
    have hsame : ∀ m, m < xs.length → c.get m = a.get m := fun m hm =>
      Option.some.inj ((hholds.values m hm).symm.trans (h.values m hm))
    have hbounds : ∀ j, j < last - first → InBounds c.width (c.get (first + j) + diff) := by
      intro j hj
      have := hscan j hj
      rw [hsame _ (by omega), hwidth]
      exact (h.inBounds_iff _).mp (by omega)
    refine ⟨c.setData (adjustFast c.width diff (last - first) first c.data), by rw [hc, Option.map_some],
      hholds.setData (length_mapRange _ _) (hholds.values.mapRange fun i hi => ?_)⟩
    rw [adjustFast_spec hholds.isWidth diff _ hbounds]
    exact if_congr (by omega) rfl rfl

theorem Holds.adjustAt (h : Holds W a xs) (hW : IsWidth W) (hroom : Room W xs.length) {ndx : Nat} {x : Int}
    (hx : xs[ndx]? = some x)
    {diff : Int} (hin : InBounds W (x + diff)) :
    ∃ b, a.adjustAt ndx diff = some b ∧ Holds W b (adjusted xs ndx (ndx + 1) diff) := by
  rw [IntArray.adjustAt, h.values.get_eq hx]
  split
  · have hlist := @mapRange_succ Int xs (· + diff) ndx 0 x hx
    rw [mapRange_of_le (Nat.le_refl _)] at hlist
    rw [adjusted, ← hlist]
    exact h.set hW hroom hin
  · rename_i hzero
    rw [not_not.mp hzero, adjusted, mapRange_id _ _ Int.add_zero]
    exact ⟨a, rfl, h⟩

/-! ### An empty array -/

theorem holds_create (W : Nat) (blocks : Nat → Nat) : ∃ a, create blocks = some a ∧ Holds W a [] ∧
    a.node.capacity = 128 ∧
    a.node.readOnly = false := by
  obtain ⟨n, hn, hwritable, hsized, hwidth, hsize, hcap⟩ := createNode_empty (by decide : IsWidth 0) blocks
  refine ⟨updateWidthCacheFromHeader n, by rw [create, hn, Option.map_some], ?_, hcap, hwritable⟩
  refine ⟨hsized, rfl, rfl, rfl, ?_, hsize, reads_nil _⟩
  exact Nat.le_trans (Nat.le_of_eq hwidth) (Nat.zero_le W)

end Specs

end IntArray

end Llbt
