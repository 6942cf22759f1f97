import Llbt.IntArray.Bounds
import Llbt.IntArray.Moves
import Llbt.Lib.Indexed
import Llbt.Node.Room

/-!
# The array of unsigned integers

`ArrayUnsigned` has elements of 8, 16, 32 or 64 bits.  It widens in place when a value exceeds the largest one of its
width, and `adjust` has a loop for the current width that is entered only if every result fits.

* `Holds.insert`, `Holds.set`, … — with room, each operation returns and the array holds the list that it stands for;
* `run_holds` — histories of operations and commits; the bounds of a sorted array are the standard positions;
* `adds_exceed_capacity` — an array does not grow past 32 MiB.
-/

set_option autoImplicit false

namespace Llbt

structure ArrayUnsigned where
  node : Node
  width : Nat
  ubound : Nat

namespace ArrayUnsigned

open Fields Node Search Indexed
open IntArray (copyBytes copyBytes_eq encode encode_cast)

/-! ## The code -/

def size (a : ArrayUnsigned) : Nat := a.node.size

def data (a : ArrayUnsigned) : Nat := a.node.data

def setWidth (width : Nat) (a : ArrayUnsigned) : ArrayUnsigned :=
  { a with ubound := (2 ^ 64 - 1) >>> (64 - width), width := width }

def bitWidth (value : Nat) : Nat :=
  if value < 0x100 then 8 else if value < 0x10000 then 16 else if value < 0x100000000 then 32 else 64

/-- `_set` -/
def setAt (data ndx width value : Nat) : Nat :=
  if width = 8 then store data ndx (BitVec.ofNat 8 value)
  else if width = 16 then store data ndx (BitVec.ofNat 16 value)
  else if width = 32 then store data ndx (BitVec.ofNat 32 value)
  else store data ndx (BitVec.ofNat 64 value)

/-- `_get` -/
def getAt (data ndx width : Nat) : Nat :=
  if width = 8 then (load data 8 ndx).toNat
  else if width = 16 then (load data 16 ndx).toNat
  else if width = 32 then (load data 32 ndx).toNat
  else encode 64 (IntArray.getDirect data width ndx)

def initFromMem (n : Node) : ArrayUnsigned := setWidth n.width ⟨n, 0, 0⟩

def create (initialSize uboundValue : Nat) (blocks : Nat → Nat) : Option ArrayUnsigned :=
  (createNode initialSize false false false .bits (bitWidth uboundValue) blocks).map initFromMem

def get (a : ArrayUnsigned) (index : Nat) : Nat := getAt a.data index a.width

def setData (data : Nat) (a : ArrayUnsigned) : ArrayUnsigned := { a with node := a.node.setData data }

def alloc (initSize newWidth : Nat) (a : ArrayUnsigned) : Option ArrayUnsigned :=
  (a.node.alloc calcByteLen initSize newWidth).map fun n => setWidth newWidth { a with node := n }

def copyOnWrite (a : ArrayUnsigned) : Option ArrayUnsigned := a.node.copyOnWrite.map fun n => { a with node := n }

/-- `while (i > lo) { --i; _set(i + shift, new_width, _get(i, old_width)); }` for the `k` elements from `lo` on. -/
def spread (oldWidth newWidth lo shift : Nat) : (k data : Nat) → Nat
  | 0, data => data
  | k + 1, data => spread oldWidth newWidth lo shift k
    (setAt data (lo + k + shift) newWidth (getAt data (lo + k) oldWidth))

def insert (ndx value : Nat) (a : ArrayUnsigned) : Option ArrayUnsigned :=
  let newWidth := if value > a.ubound then bitWidth value else a.width
  a.copyOnWrite.bind fun c => (c.alloc (c.size + 1) newWidth).map fun b =>
    if value > a.ubound then
      let data := spread a.width newWidth ndx 1 (a.size - ndx) b.data
      let data := setAt data ndx newWidth value
      b.setData (spread a.width newWidth 0 0 ndx data)
    else if ndx ≠ b.size then
      let w := newWidth >>> 3
      -- `std::copy_backward`
      b.setData (setAt (copyBytes b.data (ndx * w) (ndx * w + w) (a.size * w - ndx * w)) ndx newWidth value)
    else b.setData (setAt b.data ndx newWidth value)

def add (value : Nat) (a : ArrayUnsigned) : Option ArrayUnsigned := a.insert a.size value

def erase (ndx : Nat) (a : ArrayUnsigned) : Option ArrayUnsigned :=
  a.copyOnWrite.map fun a =>
    let w := a.width >>> 3
    let a := a.setData (copyBytes a.data (ndx * w + w) (ndx * w) ((a.size - ndx - 1) * w))
    { a with node := a.node.setSize (a.size - 1) }

def set (ndx value : Nat) (a : ArrayUnsigned) : Option ArrayUnsigned :=
  a.copyOnWrite.bind fun a =>
    (if value > a.ubound then
      (a.alloc a.size (bitWidth value)).map fun b => b.setData (spread a.width (bitWidth value) 0 0 b.size b.data)
    else some a).map fun b => b.setData (setAt b.data ndx b.width value)

/-- The accessor's size is set before the copy is made, which then has the remaining elements only. -/
def truncate (ndx : Nat) (a : ArrayUnsigned) : Option ArrayUnsigned :=
  ({ a.node with size := ndx } : Node).copyOnWrite.map fun n =>
    let a := { a with node := n.setSize ndx }
    if ndx = 0 then setWidth 8 { a with node := a.node.setWidth 8 } else a

/-- `set(i, get(i) + diff)` in a loop; `diff` is converted to an unsigned number. -/
def adjustSlow (diff : Int) : (k i : Nat) → ArrayUnsigned → Option ArrayUnsigned
  | 0, _, a => some a
  | k + 1, i, a => (a.set i ((a.get i + encode 64 diff) % 2 ^ 64)).bind (adjustSlow diff k (i + 1))

/-- The largest of `k` elements from `i` on. -/
def scanMax (a : ArrayUnsigned) : (k i mx : Nat) → Nat
  | 0, _, mx => mx
  | k + 1, i, mx => scanMax a k (i + 1) (if a.get i > mx then a.get i else mx)

/-- Whether one of `k` elements from `i` on is below `magnitude`. -/
def scanBelow (a : ArrayUnsigned) (magnitude : Nat) : (k i : Nat) → Bool
  | 0, _ => false
  | k + 1, i => if a.get i < magnitude then true else scanBelow a magnitude k (i + 1)

/-- One element in the loop for the current width. -/
def adjustElement (width : Nat) (diff : Int) (data i : Nat) : Nat :=
  if width = 8 then store data i (BitVec.ofNat 8 ((load data 8 i).toNat + encode 64 diff))
  else if width = 16 then store data i (BitVec.ofNat 16 ((load data 16 i).toNat + encode 64 diff))
  else if width = 32 then store data i (BitVec.ofNat 32 ((load data 32 i).toNat + encode 64 diff))
  else store data i (BitVec.ofNat 64 ((load data 64 i).toNat + encode 64 diff))

def adjustFast (width : Nat) (diff : Int) : (k i data : Nat) → Nat
  | 0, _, data => data
  | k + 1, i, data => adjustFast width diff k (i + 1) (adjustElement width diff data i)

/-- `adjust(begin, end, diff)` -/
def adjust (first last : Nat) (diff : Int) (a : ArrayUnsigned) : Option ArrayUnsigned :=
  if diff = 0 ∨ first ≥ last then some a
  else if a.width < 8 then adjustSlow diff (last - first) first a
  else
    let magnitude := (encode 64 (-(diff + 1)) + 1) % 2 ^ 64
    if (if diff > 0 then decide ((a.scanMax (last - first) first 0 + encode 64 diff) % 2 ^ 64 > a.ubound)
        else a.scanBelow magnitude (last - first) first) then
      adjustSlow diff (last - first) first a
    else a.copyOnWrite.map fun a => a.setData (adjustFast a.width diff (last - first) first a.data)

/-- An element, with reads beyond the size refused. -/
def read (a : ArrayUnsigned) (ndx : Nat) : Option Nat := if ndx < a.size then some (a.get ndx) else none

/-- `std::lower_bound` over the elements of the width; for widths below a byte the search of packed elements. -/
def lowerBound (value : Nat) (a : ArrayUnsigned) : Option Nat :=
  if a.width < 8 then IntArray.lowerBound a.data a.width a.size (BitVec.ofNat 64 value).toInt
  else bisect (fun i => (a.read i).map fun v => decide (v < value)) a.size 0 a.size

/-- `std::upper_bound` -/
def upperBound (value : Nat) (a : ArrayUnsigned) : Option Nat :=
  if a.width < 8 then IntArray.upperBound a.data a.width a.size (BitVec.ofNat 64 value).toInt
  else bisect (fun i => (a.read i).map fun v => !decide (value < v)) a.size 0 a.size

/-! ## Access in terms of fields -/

/-- The widths that an array of unsigned integers takes. -/
def IsWide (w : Nat) : Prop := w = 8 ∨ w = 16 ∨ w = 32 ∨ w = 64

instance (w : Nat) : Decidable (IsWide w) := inferInstanceAs (Decidable (_ ∨ _))

theorem IsWide.isWidth {w : Nat} (h : IsWide w) : IsWidth w := by
  rcases h with rfl | rfl | rfl | rfl <;> decide

theorem IsWide.bounds {w : Nat} (h : IsWide w) : 8 ≤ w ∧ w ≤ 64 := by
  rcases h with rfl | rfl | rfl | rfl <;> decide

theorem IsWide.bytes {w : Nat} (h : IsWide w) : w = 8 * (w >>> 3) := by
  rcases h with rfl | rfl | rfl | rfl <;> rfl

section Access

variable {w : Nat} (hw : IsWide w) (data ndx : Nat)

include hw

theorem setAt_eq (value : Nat) : setAt data ndx w value = put data (w * ndx) w value := by
  have hstore : ∀ bits, store data ndx (BitVec.ofNat bits value) = put data (bits * ndx) bits value := fun bits => by
    rw [store, BitVec.toNat_ofNat, put_mod]
  rcases hw with rfl | rfl | rfl | rfl
  · exact hstore 8
  · exact hstore 16
  · exact hstore 32
  · exact hstore 64

theorem getAt_eq : getAt data ndx w = field data (w * ndx) w := by
  rcases hw with rfl | rfl | rfl | rfl
  · exact toNat_load data 8 ndx
  · exact toNat_load data 16 ndx
  · exact toNat_load data 32 ndx
  · have hlt := field_lt data (64 * ndx) 64
    have hbmod : ((field data (64 * ndx) 64 : Int).bmod (2 ^ 64)) % 2 ^ 64 = field data (64 * ndx) 64 := by
      have := @Int.bmod_emod (field data (64 * ndx) 64) (2 ^ 64)
      norm_num at this hlt ⊢
      omega
    change encode 64 (IntArray.getDirect data 64 ndx) = _
    zify
    rw [encode_cast, IntArray.getDirect_eq data (by decide), IntArray.decode, if_neg (by decide), hbmod]

end Access

theorem spread_eq {w w' lo shift : Nat} (hw : IsWide w) (hw' : IsWide w') : ∀ (k data : Nat),
    spread w w' lo shift k data = respread id w w' lo shift k data
  | 0, data => rfl
  | k + 1, data => by
    rw [spread, respread, spread_eq hw hw', setAt_eq hw', getAt_eq hw]
    rfl

theorem bitWidth_spec {value W : Nat} (hW : IsWide W) (h : value < 2 ^ W) :
    IsWide (bitWidth value) ∧ value < 2 ^ bitWidth value ∧ bitWidth value ≤ W := by
  rw [bitWidth, IsWide]
  rcases hW with rfl | rfl | rfl | rfl <;> split_ifs <;> omega

/-! ## The list that an array holds -/

/-- The array holds the list `xs`, at a width of at most `W`. -/
structure Holds (W : Nat) (a : ArrayUnsigned) (xs : List Nat) : Prop where
  sized : a.node.Sized .bits
  width_eq : a.width = a.node.width
  wide : IsWide a.width
  ubound_eq : a.ubound = 2 ^ a.width - 1
  width_le : a.width ≤ W
  size_eq : a.size = xs.length
  values : Reads xs a.get

theorem ubound_setWidth {w : Nat} (hw : IsWide w) (a : ArrayUnsigned) : (a.setWidth w).ubound = 2 ^ w - 1 := by
  rw [setWidth]
  rcases hw with rfl | rfl | rfl | rfl <;> rfl

section Specs

variable {W : Nat} {a b : ArrayUnsigned} {xs : List Nat}

theorem Holds.le_ubound_iff (h : Holds W a xs) (value : Nat) : value > a.ubound ↔ ¬ value < 2 ^ a.width := by
  have := Nat.two_pow_pos a.width
  rw [h.ubound_eq]
  omega

theorem Holds.get_lt (h : Holds W a xs) (i : Nat) : a.get i < 2 ^ a.width := by
  rw [get, getAt_eq h.wide]
  exact field_lt _ _ _

theorem Holds.setData (h : Holds W a xs) {d : Nat} {ys : List Nat} (hlen : ys.length = xs.length)
    (hvalues : Reads ys fun i => getAt d i a.width) : Holds W (a.setData d) ys :=
  ⟨h.sized.setData d, h.width_eq, h.wide, h.ubound_eq, h.width_le, h.size_eq.trans hlen.symm, hvalues⟩

theorem Holds.setAt (h : Holds W a xs) {ndx value : Nat} (hvalue : value < 2 ^ a.width) :
    Holds W (a.setData (setAt a.data ndx a.width value)) (xs.set ndx value) := by
  refine h.setData List.length_set (h.values.set ?_ fun i hi => ?_)
  · rw [setAt_eq h.wide, getAt_eq h.wide, field_put_self, Nat.mod_eq_of_lt hvalue]
  · rw [setAt_eq h.wide, getAt_eq h.wide, get, getAt_eq h.wide, field_put_of_disjoint]
    rcases Nat.lt_or_gt_of_ne hi with hlt | hgt
    · exact Or.inl (mul_succ_le hlt (Nat.le_refl _))
    · exact Or.inr (mul_succ_le hgt (Nat.le_refl _))

theorem Holds.field_of_keeps (h : Holds W a xs) {n : Node} (hkeeps : a.node.KeepsElements n) {i : Nat}
    (hi : i < a.size) :
    field n.data (a.width * i) a.width = a.get i := by
  rw [get, getAt_eq h.wide, hkeeps _ _ (h.width_eq ▸ mul_succ_le hi (Nat.le_refl _))]
  rfl

/-- What `alloc` returns: room for `s` elements of width `w`, and the old elements still at the old width. -/
structure Allocated (a b : ArrayUnsigned) (s w : Nat) : Prop where
  sized : b.node.Sized .bits
  width_node : b.width = b.node.width
  ubound_eq : b.ubound = 2 ^ b.width - 1
  width_eq : b.width = w
  size_eq : b.size = s
  kept : ∀ i, i < a.size → field b.data (a.width * i) a.width = a.get i

theorem Holds.alloc (h : Holds W a xs) (hnow : Room W xs.length) {s w : Nat} (hw : IsWide w) (hle : w ≤ W)
    (hroom : Room W s) :
    ∃ b, a.alloc s w = some b ∧ Allocated a b s w := by
  obtain ⟨n, hn, hsized, hwidth, hsize, hkeeps⟩ :=
    h.sized.exists_alloc (show Room W a.size from h.size_eq.symm ▸ hnow) (h.width_eq ▸ h.width_le) hw.isWidth hle hroom
  refine ⟨_, by rw [ArrayUnsigned.alloc, hn, Option.map_some], ?_⟩
  exact ⟨hsized, hwidth.symm, ubound_setWidth hw _, rfl, hsize, fun i hi => h.field_of_keeps hkeeps hi⟩

theorem Holds.copyOnWrite (h : Holds W a xs) (hnow : Room W xs.length) :
    ∃ b, a.copyOnWrite = some b ∧ Holds W b xs ∧ b.width = a.width ∧ b.ubound = a.ubound := by
  obtain ⟨n, hn, hsized, hwidth, hsize, hkeeps⟩ :=
    h.sized.exists_copyOnWrite (show Room W a.size from h.size_eq.symm ▸ hnow) (h.width_eq ▸ h.width_le)
  refine ⟨{ a with node := n }, by rw [ArrayUnsigned.copyOnWrite, hn, Option.map_some], ?_, rfl, rfl⟩
  refine ⟨hsized, h.width_eq.trans hwidth.symm, h.wide, h.ubound_eq, h.width_le, hsize.trans h.size_eq,
    h.values.congr fun i hi => ?_⟩
  rw [← h.field_of_keeps hkeeps (h.size_eq.symm ▸ hi)]
  exact getAt_eq h.wide _ _

theorem Allocated.holds {s w : Nat} (h : Allocated a b s w) (hw : IsWide w) (hle : w ≤ W) {d : Nat} {ys : List Nat}
    (hlen : ys.length = s)
    (hvalues : Reads ys fun i => getAt d i w) : Holds W (b.setData d) ys := by
  obtain rfl := h.width_eq
  exact ⟨h.sized.setData d, h.width_node, hw, h.ubound_eq, hle, h.size_eq.trans hlen.symm, hvalues⟩

theorem Holds.bitWidth_spec (h : Holds W a xs) (hW : IsWide W) {value : Nat} (hvalue : value < 2 ^ W)
    (hout : value > a.ubound) :
    IsWide (bitWidth value) ∧ value < 2 ^ bitWidth value ∧ bitWidth value ≤ W ∧ a.width ≤ bitWidth value := by
  obtain ⟨hwide, hlt, hle⟩ := ArrayUnsigned.bitWidth_spec hW hvalue
  refine ⟨hwide, hlt, hle, ?_⟩
  by_contra hnot
  refine (h.le_ubound_iff value).mp hout (Nat.lt_of_lt_of_le hlt (Nat.pow_le_pow_right (by decide) (by omega)))

/-! ### Operations -/

theorem Holds.set (h : Holds W a xs) (hW : IsWide W) (hroom : Room W xs.length) {ndx value : Nat}
    (hvalue : value < 2 ^ W) :
    ∃ b, a.set ndx value = some b ∧ Holds W b (xs.set ndx value) := by
  obtain ⟨c, hc, hholds, -, -⟩ := h.copyOnWrite hroom
  rw [ArrayUnsigned.set, hc, Option.bind_some]
  split
  · rename_i hout
    obtain ⟨hwide, hlt, hle, hwider⟩ := hholds.bitWidth_spec hW hvalue hout
    obtain ⟨b, hb, halloc⟩ := hholds.alloc hroom hwide hle (hholds.size_eq.symm ▸ hroom)
    have hspread : Holds W (b.setData (spread c.width (bitWidth value) 0 0 b.size b.data)) xs := by
      refine halloc.holds hwide hle hholds.size_eq.symm (hholds.values.congr fun i hi => ?_)
      rw [← hholds.size_eq] at hi
      have hfield := @field_respread i id c.width (bitWidth value) 0 0 hwider b.size b.data (halloc.size_eq.symm ▸ hi)
      rw [Nat.add_zero, Nat.zero_add] at hfield
      rw [getAt_eq hwide, spread_eq hholds.wide hwide, hfield, id_eq, halloc.kept i hi]
      exact Nat.mod_eq_of_lt (Nat.lt_of_lt_of_le (hholds.get_lt i) (Nat.pow_le_pow_right (by decide) hwider))
    refine ⟨_, by rw [hb, Option.map_some, Option.map_some], hspread.setAt ?_⟩
    exact Nat.lt_of_lt_of_le hlt (Nat.le_of_eq (congrArg (2 ^ ·) halloc.width_eq.symm))
  · rename_i hin
    refine ⟨_, by rw [Option.map_some], hholds.setAt ?_⟩
    exact not_not.mp (mt (hholds.le_ubound_iff value).mpr hin)

theorem Holds.insert (h : Holds W a xs) (hW : IsWide W) (hroom : Room W (xs.length + 1)) {ndx value : Nat}
    (hndx : ndx ≤ xs.length)
    (hvalue : value < 2 ^ W) : ∃ b, a.insert ndx value = some b ∧ Holds W b (xs.insertIdx ndx value) := by
  have hnow : Room W xs.length := hroom.mono (Nat.le_succ _)
  obtain ⟨c, hc, hholds, hwidth, hubound⟩ := h.copyOnWrite hnow
  have hsize : c.size = a.size := hholds.size_eq.trans h.size_eq.symm
  have hlen : (xs.insertIdx ndx value).length = c.size + 1 := by rw [List.length_insertIdx, if_pos hndx, hholds.size_eq]
  rw [ArrayUnsigned.insert, hc, Option.bind_some]
  dsimp only
  rw [← hubound, ← hwidth, ← hsize]
  by_cases hout : value > c.ubound
  · obtain ⟨hwide, hlt, hle, hwider⟩ := hholds.bitWidth_spec hW hvalue hout
    obtain ⟨b, hb, halloc⟩ := hholds.alloc hnow hwide hle (hholds.size_eq.symm ▸ hroom)
    obtain ⟨hbelow, hat, habove⟩ :=
      @field_respread_insert id c.width (bitWidth value) ndx c.size value hwider b.data hlt
    have hkept : ∀ i, i < c.size → id (field b.data (c.width * i) c.width) % 2 ^ bitWidth value = c.get i :=
      fun i hi => by
      rw [id_eq, halloc.kept i hi]
      exact Nat.mod_eq_of_lt (Nat.lt_of_lt_of_le (hholds.get_lt i) (Nat.pow_le_pow_right (by decide) hwider))
    simp only [if_pos hout, hb, Option.map_some]
    refine ⟨_, rfl, halloc.holds hwide hle hlen (hholds.values.insertIdx hndx (fun i hi => ?_) ?_ fun i hndx hi => ?_)⟩
    all_goals rw [getAt_eq hwide, spread_eq hholds.wide hwide, setAt_eq hwide, spread_eq hholds.wide hwide]
    · rw [hbelow i hi, hkept i (by rw [hholds.size_eq]; omega)]
    · exact hat
    · rw [habove i hndx (hholds.size_eq ▸ hi), hkept i (hholds.size_eq ▸ hi)]
  · have hlt : value < 2 ^ c.width := not_not.mp (mt (hholds.le_ubound_iff value).mpr hout)
    obtain ⟨b, hb, halloc⟩ := hholds.alloc hnow hholds.wide hholds.width_le (hholds.size_eq.symm ▸ hroom)
    have hend : ndx ≠ b.size := by
      rw [halloc.size_eq, hholds.size_eq]
      omega
    have hcopy : ∀ i, field (copyBytes b.data (ndx * (c.width >>> 3)) (ndx * (c.width >>> 3) + (c.width >>> 3))
        (c.size * (c.width >>> 3) - ndx * (c.width >>> 3))) (c.width * i) c.width =
        if ndx + 1 ≤ i ∧ i < ndx + 1 + (c.size - ndx) then field b.data (c.width * (ndx + (i - (ndx + 1)))) c.width
        else field b.data (c.width * i) c.width := fun i => by
      rw [← Nat.succ_mul, ← Nat.sub_mul, copyBytes_eq _ _ _ _ hholds.wide.bytes, field_copy]
    simp only [if_neg hout, hb, Option.map_some, if_pos hend]
    refine ⟨_, rfl, halloc.holds hholds.wide hholds.width_le hlen
      (hholds.values.insertIdx hndx (fun i hi => ?_) ?_ fun i hndx hi => ?_)⟩
    all_goals rw [getAt_eq hholds.wide, setAt_eq hholds.wide]
    · rw [field_put_of_disjoint _ (Or.inl (mul_succ_le hi (Nat.le_refl _))), hcopy, if_neg (by omega)]
      exact halloc.kept i (by rw [hholds.size_eq]; omega)
    · rw [field_put_self, Nat.mod_eq_of_lt hlt]
    · rw [← hholds.size_eq] at hi
      rw [field_put_of_disjoint _ (Or.inr (mul_succ_le (by omega) (Nat.le_refl _))), hcopy, if_pos (by omega),
        (by omega : ndx + (i + 1 - (ndx + 1)) = i)]
      exact halloc.kept i hi

theorem Holds.setSize (h : Holds W a xs) {size : Nat} (hsize : size ≤ xs.length) :
    Holds W { a with node := a.node.setSize size } (xs.take size) := by
  have hlen : (xs.take size).length = size := by
    rw [List.length_take]
    omega
  have hnode : size ≤ a.node.size := by
    rw [← ArrayUnsigned.size, h.size_eq]
    exact hsize
  exact ⟨h.sized.setSize hnode, h.width_eq.trans (getWidth_setSize _ _).symm, h.wide, h.ubound_eq,
    h.width_le, hlen.symm, h.values.take size⟩

theorem Holds.erase (h : Holds W a xs) (hroom : Room W xs.length) {ndx : Nat} (hndx : ndx < xs.length) :
    ∃ b, a.erase ndx = some b ∧ Holds W b (xs.eraseIdx ndx) := by
  obtain ⟨c, hc, hholds, -, -⟩ := h.copyOnWrite hroom
  have hmoved : Holds W (c.setData (copyBytes c.data (ndx * (c.width >>> 3) + (c.width >>> 3)) (ndx * (c.width >>> 3))
      ((c.size - ndx - 1) * (c.width >>> 3)))) (overwrite xs (ndx + 1) xs.length ndx) := by
    refine hholds.setData (length_overwrite (Nat.le_refl _) hndx (by omega))
      (hholds.values.overwrite (Nat.le_refl _) hndx (by omega) fun i => ?_)
    rw [← Nat.succ_mul, getAt_eq hholds.wide, copyBytes_eq _ _ _ _ hholds.wide.bytes, field_copy,
      hholds.size_eq, get, get, getAt_eq hholds.wide, getAt_eq hholds.wide, Nat.sub_sub]
  have hcut := @Holds.setSize W _ _ hmoved (xs.length - (ndx + 1 - ndx)) (by rw [length_overwrite] <;> omega)
  rw [take_overwrite (Nat.le_succ ndx) hndx, ← List.eraseIdx_eq_take_drop_succ, Nat.add_sub_cancel_left,
    ← hholds.size_eq] at hcut
  refine ⟨_, ?_, hcut⟩
  rw [ArrayUnsigned.erase, hc, Option.map_some]
  rfl

theorem Holds.truncate (h : Holds W a xs) (hW : 8 ≤ W) (hroom : Room W xs.length) {newSize : Nat}
    (hsize : newSize ≤ xs.length) :
    ∃ b, a.truncate newSize = some b ∧ Holds W b (xs.take newSize) := by
  have hlen : (xs.take newSize).length = newSize := by
    rw [List.length_take]
    omega
  have hnode : newSize ≤ a.node.size := by
    rw [← ArrayUnsigned.size, h.size_eq]
    exact hsize
  obtain ⟨n, hn, hsized, hwidth, hkeeps⟩ := h.sized.exists_cut (show Room W a.size from h.size_eq.symm ▸ hroom)
    (h.width_eq ▸ h.width_le) hnode
  rw [ArrayUnsigned.truncate, hn, Option.map_some]
  refine ⟨_, rfl, ?_⟩
  dsimp only
  split
  · rename_i hzero
    subst hzero
    have hheader : ((n.setSize 0).setWidth 8).width = 8 := getWidth_setWidth _ (by decide)
    rw [List.take_zero]
    exact ⟨hsized.setWidth (by decide) rfl, hheader.symm, Or.inl rfl, rfl, hW, rfl, reads_nil _⟩
  · refine ⟨hsized, h.width_eq.trans hwidth.symm, h.wide, h.ubound_eq, h.width_le, hlen.symm,
      (h.values.take newSize).congr fun i hi => ?_⟩
    rw [hlen] at hi
    rw [get, get, getAt_eq h.wide, getAt_eq h.wide]
    exact hkeeps _ _ (h.width_eq ▸ mul_succ_le hi (Nat.le_refl _))

/-! ### Adjustment -/

/-- `diff` added to an element. -/
def shifted (diff : Int) (x : Nat) : Nat := (x + diff).toNat

theorem add_encode {x w : Nat} {diff : Int} (hw : w ≤ 64) (hlow : 0 ≤ x + diff) (hhigh : x + diff < 2 ^ w) :
    (x + encode 64 diff) % 2 ^ w = shifted diff x := by
  zify
  rw [encode_cast, shifted, Int.toNat_of_nonneg hlow, Int.add_emod, Int.emod_emod_of_dvd diff (pow_dvd_pow 2 hw),
    ← Int.add_emod]
  exact Int.emod_eq_of_lt hlow hhigh

theorem adjustElement_eq {w : Nat} (hw : IsWide w) (diff : Int) (data i : Nat) :
    adjustElement w diff data i = put data (w * i) w (field data (w * i) w + encode 64 diff) := by
  have hstore : ∀ bits, store data i (BitVec.ofNat bits ((load data bits i).toNat + encode 64 diff)) =
      put data (bits * i) bits (field data (bits * i) bits + encode 64 diff) := fun bits => by
    rw [store, BitVec.toNat_ofNat, put_mod, toNat_load]
  rcases hw with rfl | rfl | rfl | rfl
  · exact hstore 8
  · exact hstore 16
  · exact hstore 32
  · exact hstore 64

theorem field_adjustFast {w : Nat} (hw : IsWide w) (diff : Int) (m : Nat) : ∀ (k i data : Nat),
    field (adjustFast w diff k i data) (w * m) w =
      if i ≤ m ∧ m < i + k then (field data (w * m) w + encode 64 diff) % 2 ^ w else field data (w * m) w
  | 0, i, data => by rw [adjustFast, if_neg (by omega)]
  | k + 1, i, data => by
    rw [adjustFast, field_adjustFast hw diff m k (i + 1), adjustElement_eq hw]
    rcases Nat.lt_trichotomy m i with hlt | rfl | hgt
    · rw [if_neg (by omega), if_neg (by omega), field_put_of_disjoint _ (Or.inl (mul_succ_le hlt (Nat.le_refl _)))]
    · rw [if_neg (by omega), if_pos (by omega), field_put_self]
    · rw [field_put_of_disjoint _ (Or.inr (mul_succ_le hgt (Nat.le_refl _)))]
      exact if_congr (by omega) rfl rfl

theorem le_scanMax (a : ArrayUnsigned) : ∀ (k i mx : Nat), mx ≤ a.scanMax k i mx ∧ ∀ j, i ≤ j → j < i + k →
    a.get j ≤ a.scanMax k i mx
  | 0, i, mx => ⟨Nat.le_refl _, fun j hij hj => by omega⟩
  | k + 1, i, mx => by
    obtain ⟨hmx, hall⟩ := le_scanMax a k (i + 1) (if a.get i > mx then a.get i else mx)
    rw [scanMax]
    refine ⟨Nat.le_trans (by split <;> omega) hmx, fun j hij hj => ?_⟩
    rcases Nat.eq_or_lt_of_le hij with rfl | hlt
    · exact Nat.le_trans (by split <;> omega) hmx
    · exact hall j hlt (by omega)

theorem scanMax_le (a : ArrayUnsigned) {bound : Nat} : ∀ {k i mx : Nat}, mx ≤ bound →
    (∀ j, i ≤ j → j < i + k → a.get j ≤ bound) →
    a.scanMax k i mx ≤ bound
  | 0, _, _, hmx, _ => hmx
  | k + 1, i, mx, hmx, hall => by
    rw [scanMax]
    refine scanMax_le a ?_ fun j hij hj => hall j (by omega) (by omega)
    split
    · exact hall i (Nat.le_refl i) (by omega)
    · exact hmx

theorem Holds.adjustSlow (hW : IsWide W) (diff : Int) : ∀ {k i : Nat} {a : ArrayUnsigned} {xs : List Nat},
    Holds W a xs → Room W xs.length →
    i + k ≤ xs.length → (∀ j x, j < k → xs[i + j]? = some x → 0 ≤ x + diff ∧ x + diff < 2 ^ W) →
      ∃ b, adjustSlow diff k i a = some b ∧ Holds W b (mapRange (shifted diff) i (i + k) xs)
  | 0, i, a, xs, h, _, _, _ => by
    refine ⟨a, rfl, ?_⟩
    rw [Nat.add_zero, mapRange_of_le (Nat.le_refl i)]
    exact h
  | k + 1, i, a, xs, h, hroom, hlen, hin => by
    have hget := h.values i (by omega)
    obtain ⟨hlow, hhigh⟩ := hin 0 _ (Nat.succ_pos k) hget
    have hpow : (2 : Int) ^ W ≤ 2 ^ 64 := pow_le_pow_right₀ (by decide) hW.bounds.2
    have hvalue : (a.get i + encode 64 diff) % 2 ^ 64 = shifted diff (a.get i) :=
      add_encode (Nat.le_refl 64) hlow (by omega)
    have hlt : shifted diff (a.get i) < 2 ^ W := by
      rw [shifted]
      zify
      omega
    obtain ⟨c, hc, hholds⟩ := @Holds.set W a xs h hW hroom i _ hlt
    obtain ⟨b, hb, hholds'⟩ := hholds.adjustSlow hW diff (k := k) (i := i + 1) (by rw [List.length_set]; exact hroom)
      (by rw [List.length_set]; omega) fun j x hj hx => by
        rw [List.getElem?_set, if_neg (by omega), Nat.add_assoc, Nat.add_comm 1 j] at hx
        exact hin (j + 1) x (by omega) hx
    rw [mapRange_succ hget] at hholds'
    exact ⟨b, by rw [ArrayUnsigned.adjustSlow, hvalue, hc, Option.bind_some, hb], hholds'⟩

theorem Holds.fits_of_scan (h : Holds W a xs) (hW : IsWide W) {first last : Nat} (hlast : last ≤ xs.length) {diff : Int}
    (hin : ∀ i x, first ≤ i → i < last → xs[i]? = some x → 0 ≤ x + diff ∧ x + diff < 2 ^ W)
    (hscan : diff > 0 → ¬ (a.scanMax (last - first) first 0 + encode 64 diff) % 2 ^ 64 > a.ubound) {i : Nat}
    (hfirst : first ≤ i)
    (hi : i < last) : 0 ≤ a.get i + diff ∧ a.get i + diff < 2 ^ a.width := by
  have hpow : (2 : Int) ^ W ≤ 2 ^ 64 := pow_le_pow_right₀ (by decide) hW.bounds.2
  have hvalid : ∀ j, first ≤ j → j < last → 0 ≤ (a.get j : Int) + diff ∧ (a.get j : Int) + diff < 2 ^ W :=
    fun j hj hj' =>
    hin j _ hj hj' (h.values j (by omega))
  have hlt : (a.get i : Int) < 2 ^ a.width := by exact_mod_cast h.get_lt i
  refine ⟨(hvalid i hfirst hi).1, ?_⟩
  by_cases hdiff : diff > 0
  · -- the largest sum does not wrap around, and it is within the bound
    obtain ⟨-, hmax⟩ := le_scanMax a (last - first) first 0
    have hle : a.scanMax (last - first) first 0 ≤ (2 ^ W - 1 - diff).toNat := by
      refine scanMax_le a (Nat.zero_le _) fun j hj hj' => ?_
      have := hvalid j hj (by omega)
      omega
    have := hvalid i hfirst hi
    have hsum : (a.scanMax (last - first) first 0 + encode 64 diff) % 2 ^ 64 =
      shifted diff (a.scanMax (last - first) first 0) :=
      add_encode (Nat.le_refl 64) (by omega) (by omega)
    have hbound := hscan hdiff
    rw [hsum, h.le_ubound_iff, not_not, shifted] at hbound
    zify at hbound
    have := hmax i hfirst (by omega)
    omega
  · omega

theorem Holds.adjust (h : Holds W a xs) (hW : IsWide W) (hroom : Room W xs.length) {first last : Nat}
    (hlast : last ≤ xs.length) {diff : Int}
    (hin : ∀ i x, first ≤ i → i < last → xs[i]? = some x → 0 ≤ x + diff ∧ x + diff < 2 ^ W) :
    ∃ b, a.adjust first last diff = some b ∧ Holds W b (mapRange (shifted diff) first last xs) := by
  rw [ArrayUnsigned.adjust]
  split
  · rename_i hnone
    refine ⟨a, rfl, ?_⟩
    rcases hnone with rfl | hle
    · rw [mapRange_id _ _ fun x => by rw [shifted, Int.add_zero, Int.toNat_natCast]]
      exact h
    · rw [mapRange_of_le hle]
      exact h
  rename_i hsome
  have hwide := h.wide.bounds
  rw [if_neg (by omega)]
  dsimp only
  have hslow : ∃ b, ArrayUnsigned.adjustSlow diff (last - first) first a = some b ∧
    Holds W b (mapRange (shifted diff) first last xs) := by
    obtain ⟨b, hb, hholds⟩ := h.adjustSlow hW diff (k := last - first) (i := first) hroom (by omega) fun j x hj hx =>
      hin _ x (by omega) (by omega) hx
    rw [Nat.add_sub_cancel' (by omega)] at hholds
    exact ⟨b, hb, hholds⟩
  generalize hscan : (if diff > 0 then decide ((a.scanMax (last - first) first 0 + encode 64 diff) % 2 ^ 64 > a.ubound)
    else a.scanBelow ((encode 64 (-(diff + 1)) + 1) % 2 ^ 64) (last - first) first) = misfit
  cases misfit with
  | true => exact hslow
  | false =>
    rw [if_neg Bool.false_ne_true]
    obtain ⟨c, hc, hholds, hwidth, hubound⟩ := h.copyOnWrite hroom
    refine ⟨_, by rw [hc, Option.map_some],
      hholds.setData (length_mapRange _ _) (hholds.values.mapRange fun i hi => ?_)⟩
    have hsame : c.get i = a.get i := Option.some.inj ((hholds.values i hi).symm.trans (h.values i hi))
    have hfits := @Holds.fits_of_scan W a xs h hW first last hlast diff hin (fun hdiff => by
      rw [if_pos hdiff] at hscan
      exact of_decide_eq_false hscan) i
    rw [getAt_eq hholds.wide, field_adjustFast hholds.wide, Nat.add_sub_cancel' (by omega : first ≤ last),
      ← getAt_eq hholds.wide, ← get]
    split
    · rename_i hrange
      rw [hsame]
      refine add_encode hholds.wide.bounds.2 (hfits hrange.1 hrange.2).1 ?_
      rw [hwidth]
      exact (hfits hrange.1 hrange.2).2
    · rfl

/-! ### Bounds -/

theorem Holds.bisect (h : Holds W a xs) {p : Nat → Bool} (hsorted : xs.Pairwise fun x y => p y = true → p x = true) :
    bisect (fun i => (a.read i).map p) a.size 0 a.size = some (xs.countP p) := by
  refine bisect_eq (Nat.le_refl _) (Nat.zero_le _) ?_ fun i _ hi => ?_
  · rw [h.size_eq]
    exact List.countP_le_length
  · rw [read, if_pos hi, Option.map_some, pred_getElem hsorted (h.values i (h.size_eq ▸ hi))]

theorem Holds.bounds (h : Holds W a xs) (hsorted : xs.Pairwise (· ≤ ·)) (value : Nat) :
    a.lowerBound value = some (xs.countP (· < value)) ∧ a.upperBound value = some (xs.countP (· ≤ value)) := by
  have hwide := h.wide.bounds
  rw [lowerBound, if_neg (by omega), upperBound, if_neg (by omega)]
  constructor
  · refine h.bisect (hsorted.imp fun {x y} hxy hy => ?_)
    exact decide_eq_true (Nat.lt_of_le_of_lt hxy (of_decide_eq_true hy))
  · have hle : ∀ v : Nat, (!decide (value < v)) = decide (v ≤ value) := fun v => by
      rw [← decide_not]
      exact decide_eq_decide.mpr Nat.not_lt
    simp only [hle]
    refine h.bisect (hsorted.imp fun {x y} hxy hy => ?_)
    exact decide_eq_true (Nat.le_trans hxy (of_decide_eq_true hy))

/-! ## Histories -/

def committed (checksum beyond : Nat) (a : ArrayUnsigned) :
    ArrayUnsigned := { a with node := a.node.committed checksum beyond }

theorem Holds.committed (h : Holds W a xs) (checksum beyond : Nat) : Holds W (committed checksum beyond a) xs := by
  obtain ⟨hsized, hwidth, hkeeps⟩ := h.sized.committed checksum beyond
  refine ⟨hsized, h.width_eq.trans hwidth.symm, h.wide, h.ubound_eq, h.width_le, h.size_eq,
    h.values.congr fun i hi => ?_⟩
  rw [← h.field_of_keeps hkeeps (h.size_eq.symm ▸ hi)]
  exact getAt_eq h.wide _ _

inductive Op where
  | insert (ndx value : Nat)
  | add (value : Nat)
  | set (ndx value : Nat)
  | erase (ndx : Nat)
  | truncate (newSize : Nat)
  | adjust (first last : Nat) (diff : Int)
  | commit (checksum beyond : Nat)

def Op.run (a : ArrayUnsigned) : Op → Option ArrayUnsigned
  | .insert ndx value => a.insert ndx value
  | .add value => a.add value
  | .set ndx value => a.set ndx value
  | .erase ndx => a.erase ndx
  | .truncate newSize => a.truncate newSize
  | .adjust first last diff => a.adjust first last diff
  | .commit checksum beyond => some (ArrayUnsigned.committed checksum beyond a)

/-- The same on a list. -/
def Op.apply (xs : List Nat) : Op → List Nat
  | .insert ndx value => xs.insertIdx ndx value
  | .add value => xs ++ [value]
  | .set ndx value => xs.set ndx value
  | .erase ndx => xs.eraseIdx ndx
  | .truncate newSize => xs.take newSize
  | .adjust first last diff => mapRange (shifted diff) first last xs
  | .commit _ _ => xs

/-- The positions are in range, and every value that is written has at most `W` bits. -/
def Op.Valid (W : Nat) (xs : List Nat) : Op → Prop
  | .insert ndx value => ndx ≤ xs.length ∧ value < 2 ^ W
  | .add value => value < 2 ^ W
  | .set ndx value => ndx < xs.length ∧ value < 2 ^ W
  | .erase ndx => ndx < xs.length
  | .truncate newSize => newSize ≤ xs.length
  | .adjust first last diff => last ≤ xs.length ∧ ∀ i x, first ≤ i → i < last → xs[i]? = some x → 0 ≤ x + diff ∧
    x + diff < 2 ^ W
  | .commit _ _ => True

def runAll : List Op → ArrayUnsigned → Option ArrayUnsigned
  | [], a => some a
  | op :: ops, a => (op.run a).bind (runAll ops)

def applyAll (ops : List Op) (xs : List Nat) : List Nat := ops.foldl Op.apply xs

/-- Every operation is valid where it comes. -/
def ValidAll (W : Nat) : List Op → List Nat → Prop
  | [], _ => True
  | op :: ops, xs => op.Valid W xs ∧ ValidAll W ops (op.apply xs)

/-- After every operation there is room for what the array holds. -/
def RoomAll (W : Nat) : List Op → List Nat → Prop
  | [], _ => True
  | op :: ops, xs => Room W (op.apply xs).length ∧ RoomAll W ops (op.apply xs)

theorem Holds.run (h : Holds W a xs) (hW : IsWide W) (hnow : Room W xs.length) {op : Op} (hvalid : op.Valid W xs)
    (hroom : Room W (op.apply xs).length) : ∃ b, op.run a = some b ∧ Holds W b (op.apply xs) := by
  cases op with
  | insert ndx value =>
    rw [Op.apply, List.length_insertIdx, if_pos hvalid.1] at hroom
    exact h.insert hW hroom hvalid.1 hvalid.2
  | add value =>
    rw [Op.apply, List.length_append] at hroom
    have hinsert := @Holds.insert W a xs h hW hroom xs.length value (Nat.le_refl _) hvalid
    rw [List.insertIdx_length_self, ← h.size_eq] at hinsert
    exact hinsert
  | set ndx value => exact h.set hW hnow hvalid.2
  | erase ndx => exact h.erase hnow hvalid
  | truncate newSize => exact h.truncate hW.bounds.1 hnow hvalid
  | adjust first last diff => exact h.adjust hW hnow hvalid.1 hvalid.2
  | commit checksum beyond => exact ⟨_, rfl, h.committed checksum beyond⟩

theorem Holds.runAll (hW : IsWide W) : ∀ {ops : List Op} {a : ArrayUnsigned} {xs : List Nat}, Holds W a xs →
    Room W xs.length →
    ValidAll W ops xs → RoomAll W ops xs → ∃ b, runAll ops a = some b ∧ Holds W b (applyAll ops xs)
  | [], a, _, h, _, _, _ => ⟨a, rfl, h⟩
  | op :: ops, a, xs, h, hnow, hvalid, hroom => by
    obtain ⟨b, hb, hholds⟩ := h.run hW hnow hvalid.1 hroom.1
    obtain ⟨c, hc, hholds'⟩ := hholds.runAll hW hroom.1 hvalid.2 hroom.2
    exact ⟨c, by rw [ArrayUnsigned.runAll, hb, Option.bind_some, hc], hholds'⟩

/-- What an array shows of its list: its elements, and its bounds if they are sorted. -/
structure Denotes (a : ArrayUnsigned) (xs : List Nat) : Prop where
  elements_eq : (List.range a.size).map a.get = xs
  bounds : xs.Pairwise (· ≤ ·) → ∀ value,
    a.lowerBound value = some (xs.countP (· < value)) ∧ a.upperBound value = some (xs.countP (· ≤ value))

theorem Holds.denotes (h : Holds W a xs) : Denotes a xs := by
  refine ⟨?_, h.bounds⟩
  rw [h.size_eq]
  exact h.values.eq_map.symm

theorem holds_create {ubound : Nat} (hW : IsWide W) (hubound : ubound < 2 ^ W) (blocks : Nat → Nat) :
    ∃ a, create 0 ubound blocks = some a ∧ Holds W a [] ∧ a.node.capacity = 128 ∧ a.node.readOnly = false := by
  obtain ⟨hwide, -, hle⟩ := ArrayUnsigned.bitWidth_spec hW hubound
  obtain ⟨n, hn, hwritable, hsized, hwidth, hsize, hcap⟩ := createNode_empty hwide.isWidth blocks
  rw [← hwidth] at hwide hle
  refine ⟨initFromMem n, by rw [create, hn, Option.map_some], ?_, hcap, hwritable⟩
  exact ⟨hsized, rfl, hwide, ubound_setWidth hwide _, hle, hsize, reads_nil _⟩

/-- **Histories of unsigned arrays.**  Whatever the allocator's blocks contain and whatever bound the empty array has
been created for, every sequence of valid operations whose values have at most `W` bits returns, as long as the elements
take at most 32 MiB at that width, and the array then denotes its list. -/
theorem run_holds {blocks : Nat → Nat} {ubound : Nat} (hW : IsWide W) (hubound : ubound < 2 ^ W)
    (hcreate : create 0 ubound blocks = some a)
    {ops : List Op} (hvalid : ValidAll W ops []) (hroom : RoomAll W ops []) :
    ∃ b, runAll ops a = some b ∧ Denotes b (applyAll ops []) := by
  obtain ⟨a', ha', hholds, -⟩ := holds_create hW hubound blocks
  obtain rfl : a' = a := Option.some.inj (ha'.symm.trans hcreate)
  obtain ⟨b, hb, hholds'⟩ := hholds.runAll hW ⟨Nat.zero_le _, by simp⟩ hvalid hroom
  exact ⟨b, hb, hholds'.denotes⟩

/-- Three values and an adjustment that makes the array widen. -/
theorem run_holds_three : ∃ a b, create 0 0 (fun _ => 0) = some a ∧
    runAll [.add 5, .add 9, .insert 0 0, .adjust 1 3 300] a = some b ∧ Denotes b [0, 305, 309] := by
  obtain ⟨a, ha, -⟩ := @holds_create 16 0 (by decide) (by decide) fun _ => 0
  have hin : ∀ i x : Nat, 1 ≤ i → i < 3 → [0, 5, 9][i]? = some x → 0 ≤ (x : Int) + 300 ∧ (x : Int) + 300 < 2 ^ 16 := by
    intro i x _ _ hx
    have hmem := List.mem_of_getElem? hx
    fin_cases hmem <;> decide
  have hroom : ∀ n, n ≤ 3 → Room 16 n := fun n hn => by
    refine ⟨?_, ?_⟩
    · rw [maxArraySize]
      omega
    · rw [headerSize]
      omega
  obtain ⟨b, hb, hdenotes⟩ := @run_holds 16 a (fun _ => 0) 0 (by decide)
    (by decide) ha [.add 5, .add 9, .insert 0 0, .adjust 1 3 300]
    ⟨(by decide : 5 < 2 ^ 16), (by decide : 9 < 2 ^ 16), ⟨by decide, by decide⟩, ⟨by decide, hin⟩, trivial⟩
    ⟨hroom 1 (by decide), hroom 2 (by decide), hroom 3 (by decide), hroom 3 (by decide), trivial⟩
  exact ⟨a, b, ha, hb, hdenotes⟩

/-! ### One element too many -/

theorem runAll_eq (ops : List Op) (a : ArrayUnsigned) :
    ArrayUnsigned.runAll ops a = ops.foldlM (fun a op => op.run a) a := by
  induction ops generalizing a with
  | nil => rfl
  | cons op ops ih => exact congrArg (op.run a).bind (funext ih)

theorem validAll_adds {value : Nat} (hvalue : value < 2 ^ 64) :
    ∀ (n : Nat) (xs : List Nat), ValidAll 64 (List.replicate n (.add value)) xs
  | 0, _ => trivial
  | n + 1, _ => ⟨hvalue, validAll_adds hvalue n _⟩

theorem insert_alloc {ndx value : Nat} (hwritable : a.node.readOnly = false) (h : a.insert ndx value = some b) :
    ∃ c, a.alloc (a.size + 1) (if value > a.ubound then bitWidth value else a.width) = some c ∧
      b.node.capacity = c.node.capacity ∧ b.node.readOnly = c.node.readOnly := by
  have hcow : a.copyOnWrite = some a := by
    rw [ArrayUnsigned.copyOnWrite, Node.copyOnWrite, hwritable, if_neg Bool.false_ne_true, Option.map_some]
  rw [ArrayUnsigned.insert, hcow, Option.bind_some] at h
  obtain ⟨c, hc, rfl⟩ := Option.map_eq_some_iff.mp h
  refine ⟨c, hc, ?_⟩
  split
  · exact ⟨rfl, rfl⟩
  · split
    · exact ⟨rfl, rfl⟩
    · exact ⟨rfl, rfl⟩

/-- A value that needs 64 bits. -/
def wide : Nat := 2 ^ 63

theorem width_of_wide {w : Nat} (hw : IsWide w) (h : wide < 2 ^ w) : w = 64 := by
  have : 63 < w := (Nat.pow_lt_pow_iff_right (by decide)).mp h
  rcases hw with rfl | rfl | rfl | rfl <;> omega

theorem doubled_add {n : Nat} (ha : Doubled a.node) (h : Holds 64 a (List.replicate n wide))
    (hadd : a.add wide = some b) :
    Doubled b.node ∧ 8 * (n + 1) + 8 ≤ b.node.capacity := by
  have hsize : a.size = n := h.size_eq.trans List.length_replicate
  obtain ⟨c, hc, hcapacity, hreadOnly⟩ := insert_alloc ha.1 hadd
  have hwide : (if wide > a.ubound then bitWidth wide else a.width) = 64 := by
    split
    · rfl
    · rename_i hin
      exact width_of_wide h.wide (not_not.mp (mt (h.le_ubound_iff wide).mpr hin))
  rw [hwide, hsize] at hc
  obtain ⟨m, hm, rfl⟩ := Option.map_eq_some_iff.mp hc
  refine ha.grown h.sized hsize ?_ hm hcapacity hreadOnly
  rcases Nat.eq_zero_or_pos n with rfl | hpos
  · exact Or.inr rfl
  · obtain ⟨i, -, hi⟩ := h.values.get_of_mem (List.mem_replicate.mpr ⟨Nat.pos_iff_ne_zero.mp hpos, rfl⟩)
    exact Or.inl (h.width_eq ▸ width_of_wide h.wide (hi ▸ h.get_lt i))

theorem holds_add_wide {n : Nat} (hn : n < 4194303) (h : Holds 64 a (List.replicate n wide)) (ha : Doubled a.node) :
    ∃ b, (Op.add wide).run a = some b ∧ Holds 64 b (List.replicate (n + 1) wide) ∧ Doubled b.node := by
  have hroom : Room 64 ((List.replicate n wide).length + 1) := by
    rw [List.length_replicate]
    exact room_words hn
  obtain ⟨b, hb, hholds⟩ := @Holds.insert 64 a _ h (by decide) hroom _ wide (Nat.le_refl _) (by decide)
  rw [List.insertIdx_length_self, ← List.replicate_succ'] at hholds
  rw [← h.size_eq] at hb
  exact ⟨b, hb, hholds, (doubled_add ha h hb).1⟩

theorem adds_wide (h : Holds 64 a []) (ha : Doubled a.node) {n : Nat} (hn : n ≤ 4194303) :
    ∃ b, (List.replicate n (Op.add wide)).foldlM (fun a op => op.run a) a = some b ∧
      Holds 64 b (List.replicate n wide) ∧ Doubled b.node :=
  exists_foldlM_replicate (fun i a => Holds 64 a (List.replicate i wide) ∧ Doubled a.node) ⟨h, ha⟩
    fun _ _ hi ht => holds_add_wide (Nat.lt_of_lt_of_le hi hn) ht.1 ht.2

/-- 4194304 elements of eight bytes cannot be added one by one: the last growth asks for 64 MiB. -/
theorem adds_exceed_capacity : ∃ a, create 0 0 (fun _ => 0) = some a ∧
    ValidAll 64 (List.replicate (4194303 + 1) (.add wide)) [] ∧
      ArrayUnsigned.runAll (List.replicate (4194303 + 1) (.add wide)) a = none := by
  obtain ⟨a, ha, hholds, hcap, hwritable⟩ := @holds_create 64 0 (by decide) (by decide) fun _ => 0
  refine ⟨a, ha, validAll_adds (by decide) _ _, ?_⟩
  obtain ⟨b, hrun, hholds', hdoubled⟩ := adds_wide hholds ⟨hwritable, 0, by decide, hcap⟩ (Nat.le_refl 4194303)
  rw [runAll_eq, List.replicate_succ', List.foldlM_append, hrun]
  cases hadd : b.add wide with
  | none => simp [Op.run, hadd]
  | some c =>
    obtain ⟨hdoubled', hcovers⟩ := doubled_add hdoubled hholds' hadd
    have := hdoubled'.full
    omega

end Specs

end ArrayUnsigned

end Llbt
