import Llbt.Leaf.Binary

/-!
# Short strings (`array_string_short.cpp`)

All strings of the array have rows of one width.  A row is the string, padded with zeros, and a last
byte that counts the zeros; for null that byte is the width.  At width zero every element is null.

`Holds s vs` says that the rows decode to `vs`; each operation keeps it (`Holds.set`, `Holds.insert`,
`Holds.erase`, `Holds.truncate`), and `Holds.findFirst` says what a search returns.
-/

set_option autoImplicit false

namespace Llbt.Leaf

open Ownership Segments

/-- `ArrayStringShort`, nullable as `ArrayString` uses it. -/
structure ShortStrings where
  ref : Ref
  width : Nat
  rows : List Bytes

namespace ShortStrings

/-- The nearest block length that is not smaller. -/
def roundUp (size : Nat) : Nat :=
  if size ≤ 2 then size
  else
    let size := size - 1
    let size := size ||| size >>> 1
    let size := size ||| size >>> 2
    let size := size ||| size >>> 4
    size + 1

def zeros (n : Nat) : Bytes := List.replicate n 0

/-- A row as `set` writes it. -/
def row (width : Nat) : Value → Bytes
  | none => zeros (width - 1) ++ [UInt8.ofNat width]
  | some data => data ++ zeros (width - 1 - data.length) ++ [UInt8.ofNat (width - 1 - data.length)]

/-- The last byte of a row. -/
def padOf (width : Nat) (r : Bytes) : Nat := (r.getD (width - 1) 0).toNat

/-- What `get` makes of a row; `none` is a row of the wrong length or with an impossible last byte. -/
def rowValue (width : Nat) (r : Bytes) : Option Value :=
  if r.length ≠ width then none
  else if width = 0 then some none
  else if padOf width r = width then some none
  else if padOf width r < width then some (some (r.take (width - 1 - padOf width r)))
  else none

/-- A row that moves to a larger width. -/
def widenRow (old new : Nat) (r : Bytes) : Bytes :=
  if old = 0 then zeros (new - 1) ++ [UInt8.ofNat new]
  else r.take (old - 1) ++ zeros (new - old) ++ [UInt8.ofNat (padOf old r + (new - old))]

def size (s : ShortStrings) : Nat := s.rows.length

def get (s : ShortStrings) (ndx : Nat) : Option Value := (s.rows[ndx]?).bind (rowValue s.width)

def create : Prog ShortStrings := do
  let r ← alloc
  pure ⟨r, 0, []⟩

def widen (s : ShortStrings) (new : Nat) : ShortStrings :=
  { s with width := new, rows := s.rows.map (widenRow s.width new) }

def setRow (s : ShortStrings) (ndx : Nat) (v : Value) : ShortStrings :=
  { s with rows := s.rows.set ndx (row s.width v) }

/-- The end of `set`, where the row is wide enough. -/
def setInPlace (s : ShortStrings) (ndx : Nat) (v : Value) (readOnly : Bool) : Prog ShortStrings :=
  if readOnly = false then pure (s.setRow ndx v)
  else if s.get ndx = some v then pure s
  else do
    let r ← copyOnWrite s.ref
    pure ({ s with ref := r }.setRow ndx v)

def set (s : ShortStrings) (ndx : Nat) (v : Value) : Prog ShortStrings :=
  if v = none ∧ s.width = 0 then pure s
  else if s.width ≤ v.size then do
    let r ← write s.ref
    pure (({ s with ref := r }.widen (roundUp (v.size + 1))).setRow ndx v)
  else do
    let readOnly ← isReadOnly s.ref
    s.setInPlace ndx v readOnly

/-- The gap that `insert` makes.  The rows behind it are moved up, so the gap still has the old bytes;
behind the last row the bytes are not initialised, and zeros stand for them. -/
def gap (s : ShortStrings) (ndx : Nat) (r : Ref) : ShortStrings :=
  { s with ref := r, rows := s.rows.insertIdx ndx (s.rows.getD ndx (zeros s.width)) }

def insert (s : ShortStrings) (ndx : Nat) (v : Value) : Prog ShortStrings := do
  let r ← write s.ref
  (s.gap ndx r).set ndx v

def add (s : ShortStrings) (v : Value) : Prog ShortStrings := s.insert s.size v

def erase (s : ShortStrings) (ndx : Nat) : Prog ShortStrings := do
  let r ← copyOnWrite s.ref
  pure { s with ref := r, rows := s.rows.eraseIdx ndx }

/-- `Array::truncate`: an array that is cleared drops its width. -/
def truncate (s : ShortStrings) (n : Nat) : Prog ShortStrings :=
  if n = s.size then pure s
  else do
    let r ← copyOnWrite s.ref
    pure ⟨r, if n = 0 then 0 else s.width, s.rows.take n⟩

def destroy (s : ShortStrings) : Prog Unit := free s.ref

/-- Whether `find_first` stops at `ndx`, at a width above zero. -/
def isMatch (s : ShortStrings) (v : Value) (ndx : Nat) : Bool :=
  match v, s.rows[ndx]? with
  | none, _ => s.get ndx == some none
  | some _, none => false
  | some data, some r =>
    if data = [] then padOf s.width r + 1 == s.width
    else r.take data.length == data && padOf s.width r + data.length + 1 == s.width

/-- `find_first(value, begin, end)`.  At width zero the end is not looked at. -/
def findFirst (s : ShortStrings) (v : Value) (first last : Nat) : Option Nat :=
  if s.width = 0 then if v = none ∧ first < s.size then some first else none
  else if s.width ≤ v.size then none
  else (List.range' first (last - first)).find? (s.isMatch v)

/-! ## Rows -/

/-- The longest string that `ArrayString` keeps in this array. -/
def maxSize : Nat := 15

theorem roundUp_bounds : ∀ n ≤ maxSize, n < roundUp (n + 1) ∧ roundUp (n + 1) ≤ 16 := by decide

theorem length_zeros (n : Nat) : (zeros n).length = n := List.length_replicate

theorem ofNat_toNat {n : Nat} (h : n ≤ 16) : (UInt8.ofNat n).toNat = n := by
  rw [UInt8.toNat_ofNat']
  exact Nat.mod_eq_of_lt (by omega)

theorem padOf_concat {width : Nat} {r : Bytes} {n : Nat} (hr : r.length = width - 1) (hn : n ≤ 16) :
    padOf width (r ++ [UInt8.ofNat n]) = n := by
  unfold padOf
  rw [List.getD_eq_getElem?_getD, ← hr, List.getElem?_concat_length]
  exact ofNat_toNat hn

theorem rowValue_concat {width : Nat} {r : Bytes} {n : Nat} (hpos : 0 < width) (hr : r.length = width - 1)
    (hn : n ≤ 16) : rowValue width (r ++ [UInt8.ofNat n]) =
      if n = width then some none else if n < width then some (some (r.take (width - 1 - n))) else none := by
  have hlen : (r ++ [UInt8.ofNat n]).length = width := by
    rw [List.length_append, hr, List.length_singleton]
    omega
  unfold rowValue
  rw [if_neg (not_not.mpr hlen), if_neg (by omega), padOf_concat hr hn,
    List.take_append_of_le_length (by omega)]

/-- **The row of a value decodes to it.** -/
theorem rowValue_row {width : Nat} {v : Value} (hw : width ≤ 16) (hv : v.size < width) :
    rowValue width (row width v) = some v := by
  cases v with
  | none =>
    have hpos : 0 < width := Nat.zero_lt_of_lt hv
    unfold row
    rw [rowValue_concat hpos (length_zeros _) hw, if_pos rfl]
  | some data =>
    have hlt : data.length < width := hv
    have hlen : (data ++ zeros (width - 1 - data.length)).length = width - 1 := by
      rw [List.length_append, length_zeros]
      omega
    have htake : width - 1 - (width - 1 - data.length) = data.length := by omega
    unfold row
    rw [rowValue_concat (by omega) hlen (by omega), if_neg (by omega), if_pos (by omega), htake,
      List.take_left]

theorem length_of_rowValue {width : Nat} {r : Bytes} {v : Value} (h : rowValue width r = some v) :
    r.length = width := by
  by_contra hne
  unfold rowValue at h
  rw [if_pos hne] at h
  exact absurd h.symm (Option.some_ne_none v)

theorem rowValue_cases {width : Nat} {r : Bytes} {v : Value} (hpos : 0 < width)
    (h : rowValue width r = some v) : (padOf width r = width ∧ v = none) ∨
      padOf width r < width ∧ v = some (r.take (width - 1 - padOf width r)) := by
  have hlen := length_of_rowValue h
  unfold rowValue at h
  rw [if_neg (not_not.mpr hlen), if_neg (by omega)] at h
  split at h
  · rename_i hpad
    exact Or.inl ⟨hpad, (Option.some.inj h).symm⟩
  · split at h
    · rename_i hpad
      exact Or.inr ⟨hpad, (Option.some.inj h).symm⟩
    · exact absurd h.symm (Option.some_ne_none v)

theorem eq_none_of_width_zero {r : Bytes} {v : Value} (h : rowValue 0 r = some v) : v = none := by
  have hlen := length_of_rowValue h
  unfold rowValue at h
  rw [if_neg (not_not.mpr hlen), if_pos rfl] at h
  exact (Option.some.inj h).symm

theorem size_lt_of_rowValue {width : Nat} {r : Bytes} {v : Value} (hpos : 0 < width)
    (h : rowValue width r = some v) : v.size < width := by
  rcases rowValue_cases hpos h with ⟨-, rfl⟩ | ⟨-, rfl⟩
  · exact hpos
  · have hle := List.length_take_le (width - 1 - padOf width r) r
    have hsize : Value.size (some (r.take (width - 1 - padOf width r))) =
        (r.take (width - 1 - padOf width r)).length := rfl
    omega

/-- **A row keeps its value at a larger width.** -/
theorem rowValue_widenRow {old new : Nat} {r : Bytes} {v : Value} (hlt : old < new) (hnew : new ≤ 16)
    (h : rowValue old r = some v) : rowValue new (widenRow old new r) = some v := by
  unfold widenRow
  split
  · rename_i hzero
    subst hzero
    rw [eq_none_of_width_zero h, rowValue_concat hlt (length_zeros _) hnew, if_pos rfl]
  · rename_i hzero
    have hlen := length_of_rowValue h
    have hbody : (r.take (old - 1) ++ zeros (new - old)).length = new - 1 := by
      rw [List.length_append, List.length_take, length_zeros]
      omega
    have hpos : 0 < old := Nat.pos_of_ne_zero hzero
    rcases rowValue_cases hpos h with ⟨hpad, rfl⟩ | ⟨hpad, rfl⟩
    · rw [rowValue_concat (by omega) hbody (by omega), if_pos (by omega)]
    · have htake : new - 1 - (padOf old r + (new - old)) = old - 1 - padOf old r := by omega
      rw [rowValue_concat (by omega) hbody (by omega), if_neg (by omega), if_pos (by omega), htake,
        List.take_append_of_le_length (by rw [List.length_take]; omega), List.take_take,
        Nat.min_eq_left (by omega)]

theorem rowValue_zeros (width : Nat) : ∃ v, rowValue width (zeros width) = some v := by
  unfold rowValue
  rw [if_neg (not_not.mpr (length_zeros width))]
  split
  · exact ⟨_, rfl⟩
  · rename_i hpos
    have hpad : padOf width (zeros width) = 0 := by
      unfold padOf zeros
      rw [List.getD_eq_getElem?_getD, List.getElem?_replicate]
      split <;> rfl
    rw [hpad, if_neg (by omega), if_pos (by omega)]
    exact ⟨_, rfl⟩

/-! ## The list it stands for -/

/-- The rows decode to `vs`. -/
structure Holds (s : ShortStrings) (vs : List Value) : Prop where
  width_le : s.width ≤ 16
  rows_eq : s.rows.map (rowValue s.width) = vs.map some

variable {s : ShortStrings} {vs : List Value} {v w : Value} {ndx : Nat}

theorem Holds.size_eq (h : s.Holds vs) : s.size = vs.length := by
  simpa [size] using congrArg List.length h.rows_eq

theorem Holds.row (h : s.Holds vs) (hw : vs[ndx]? = some w) :
    ∃ r, s.rows[ndx]? = some r ∧ rowValue s.width r = some w := by
  have hmap := congrArg (·[ndx]?) h.rows_eq
  simp only [List.getElem?_map, hw, Option.map_some] at hmap
  exact Option.map_eq_some_iff.mp hmap

theorem Holds.get_eq (h : s.Holds vs) (hw : vs[ndx]? = some w) : s.get ndx = some w := by
  obtain ⟨r, hr, hvalue⟩ := h.row hw
  rw [get, hr]
  exact hvalue

theorem Holds.withRef (h : s.Holds vs) (r : Ref) : Holds { s with ref := r } vs := ⟨h.width_le, h.rows_eq⟩

theorem holds_create : Yields create (Holds · []) :=
  Yields.alloc.bind fun _ _ => Yields.pure ⟨Nat.zero_le _, rfl⟩

theorem Holds.setRow (h : s.Holds vs) (hv : v.size < s.width) : (s.setRow ndx v).Holds (vs.set ndx v) := by
  refine ⟨h.width_le, ?_⟩
  have hrow := rowValue_row h.width_le hv
  change (s.rows.set ndx (ShortStrings.row s.width v)).map (rowValue s.width) = _
  rw [List.map_set, List.map_set, h.rows_eq, hrow]

theorem Holds.widen (h : s.Holds vs) {new : Nat} (hlt : s.width < new) (hnew : new ≤ 16) :
    (s.widen new).Holds vs := by
  refine ⟨hnew, ?_⟩
  change (s.rows.map (widenRow s.width new)).map (rowValue new) = _
  rw [List.map_map, ← h.rows_eq]
  refine List.map_congr_left fun r hr => ?_
  have hmem : rowValue s.width r ∈ s.rows.map (rowValue s.width) := List.mem_map_of_mem hr
  rw [h.rows_eq] at hmem
  obtain ⟨u, -, hu⟩ := List.mem_map.mp hmem
  rw [← hu]
  exact rowValue_widenRow hlt hnew hu.symm

theorem Holds.set (h : s.Holds vs) (hndx : ndx < vs.length) (hv : v.size ≤ maxSize) :
    Yields (s.set ndx v) (Holds · (vs.set ndx v)) := by
  obtain ⟨w, hw⟩ : ∃ w, vs[ndx]? = some w := ⟨_, List.getElem?_eq_getElem hndx⟩
  unfold ShortStrings.set
  split
  · rename_i hnull
    obtain ⟨rfl, hzero⟩ := hnull
    obtain ⟨r, -, hr⟩ := h.row hw
    rw [hzero] at hr
    rw [eq_none_of_width_zero hr] at hw
    exact Yields.pure (by rw [Arr.set_eq_self hw]; exact h)
  · split
    · rename_i hwide
      have hround := roundUp_bounds v.size hv
      refine (Yields.write s.ref).bind fun r _ => Yields.pure ?_
      exact ((h.withRef r).widen (Nat.lt_of_le_of_lt hwide hround.1) hround.2).setRow hround.1
    · rename_i hwide
      have hlt : v.size < s.width := Nat.not_le.mp hwide
      refine (Yields.isReadOnly s.ref).bind fun readOnly _ => ?_
      unfold setInPlace
      split
      · exact Yields.pure (h.setRow hlt)
      · split
        · rename_i hget
          rw [h.get_eq hw] at hget
          obtain rfl := Option.some.inj hget
          exact Yields.pure (by rw [Arr.set_eq_self hw]; exact h)
        · exact (Yields.copyOnWrite s.ref).bind fun r _ => Yields.pure ((h.withRef r).setRow hlt)

theorem Holds.gap (h : s.Holds vs) (r : Ref) (ndx : Nat) : ∃ w, (s.gap ndx r).Holds (vs.insertIdx ndx w) := by
  have hgap : ∃ w, rowValue s.width (s.rows.getD ndx (zeros s.width)) = some w := by
    cases hrow : s.rows[ndx]? with
    | none =>
      rw [List.getD_eq_getElem?_getD, hrow]
      exact rowValue_zeros s.width
    | some x =>
      rw [List.getD_eq_getElem?_getD, hrow]
      have hmem : rowValue s.width x ∈ s.rows.map (rowValue s.width) :=
        List.mem_map_of_mem (List.mem_of_getElem? hrow)
      rw [h.rows_eq] at hmem
      obtain ⟨u, -, hu⟩ := List.mem_map.mp hmem
      exact ⟨u, hu.symm⟩
  obtain ⟨w, hw⟩ := hgap
  refine ⟨w, h.width_le, ?_⟩
  change (s.rows.insertIdx ndx _).map (rowValue s.width) = _
  rw [List.map_insertIdx, List.map_insertIdx, h.rows_eq, hw]

theorem set_insertIdx {α : Type} {xs : List α} {i : Nat} (hi : i ≤ xs.length) (x y : α) :
    (xs.insertIdx i x).set i y = xs.insertIdx i y := by
  obtain ⟨pre, post, rfl, rfl⟩ := exists_cut hi
  rw [insertIdx_mid, insertIdx_mid, set_mid]

theorem Holds.insert (h : s.Holds vs) (hndx : ndx ≤ vs.length) (hv : v.size ≤ maxSize) :
    Yields (s.insert ndx v) (Holds · (vs.insertIdx ndx v)) := by
  refine (Yields.write s.ref).bind fun r _ => ?_
  obtain ⟨w, hgap⟩ := h.gap r ndx
  have hlt : ndx < (vs.insertIdx ndx w).length := by
    rw [List.length_insertIdx_of_le_length hndx]
    omega
  rw [← set_insertIdx hndx w v]
  exact hgap.set hlt hv

theorem Holds.add (h : s.Holds vs) (hv : v.size ≤ maxSize) : Yields (s.add v) (Holds · (vs ++ [v])) := by
  have hins : Yields (s.insert s.size v) (Holds · (vs.insertIdx s.size v)) := h.insert h.size_eq.le hv
  rw [h.size_eq, List.insertIdx_length_self, ← h.size_eq] at hins
  exact hins

theorem Holds.erase (h : s.Holds vs) (ndx : Nat) : Yields (s.erase ndx) (Holds · (vs.eraseIdx ndx)) := by
  refine (Yields.copyOnWrite s.ref).bind fun r _ => Yields.pure ⟨h.width_le, ?_⟩
  change (s.rows.eraseIdx ndx).map (rowValue s.width) = _
  rw [← List.eraseIdx_map, ← List.eraseIdx_map, h.rows_eq]

theorem Holds.truncate (h : s.Holds vs) (n : Nat) : Yields (s.truncate n) (Holds · (vs.take n)) := by
  unfold ShortStrings.truncate
  split
  · rename_i hn
    rw [hn, h.size_eq, List.take_length]
    exact Yields.pure h
  · refine (Yields.copyOnWrite s.ref).bind fun r _ => Yields.pure ?_
    split
    · rename_i hn
      rw [hn, List.take_zero, List.take_zero]
      exact ⟨Nat.zero_le _, rfl⟩
    · refine ⟨h.width_le, ?_⟩
      change (s.rows.take n).map (rowValue s.width) = _
      rw [List.map_take, List.map_take, h.rows_eq]

/-! ## Searching -/

theorem Holds.isMatch_eq (h : s.Holds vs) (hpos : 0 < s.width) (hw : vs[ndx]? = some w) (v : Value) :
    s.isMatch v ndx = decide (w = v) := by
  obtain ⟨r, hr, hrow⟩ := h.row hw
  have hlen := length_of_rowValue hrow
  unfold isMatch
  cases v with
  | none =>
    dsimp only
    rw [h.get_eq hw, Bool.eq_iff_iff, beq_iff_eq, decide_eq_true_iff, Option.some_inj]
  | some data =>
    rw [hr]
    dsimp only
    rcases rowValue_cases hpos hrow with ⟨hpad, rfl⟩ | ⟨hpad, rfl⟩
    · rw [hpad]
      split
      · simp
      · have hne : ¬ s.width + data.length + 1 = s.width := by omega
        simp [hne]
    · rw [Bool.eq_iff_iff, decide_eq_true_iff, Option.some_inj]
      split
      · rename_i hnil
        subst hnil
        rw [beq_iff_eq, List.take_eq_nil_iff]
        have hne : r ≠ [] := List.length_pos_iff.mp (hlen.symm ▸ hpos)
        constructor
        · intro heq
          exact Or.inl (by omega)
        · rintro (heq | heq)
          · omega
          · exact absurd heq hne
      · rw [Bool.and_eq_true, beq_iff_eq, beq_iff_eq]
        constructor
        · rintro ⟨hdata, hsize⟩
          rw [← hdata]
          congr 1
          omega
        · intro heq
          have hdata : data.length = s.width - 1 - padOf s.width r := by
            rw [← heq, List.length_take]
            omega
          refine ⟨?_, by omega⟩
          rw [hdata]
          exact heq

end ShortStrings

/-- `r` is the answer to a search for `v` from `first` on and before `last`. -/
structure Finds (vs : List Value) (v : Value) (first last : Nat) (r : Option Nat) : Prop where
  /-- What is reported lies in the range, is the value, and the first one. -/
  found : ∀ j, r = some j → (first ≤ j ∧ j < last) ∧ vs[j]? = some v ∧ ∀ i, first ≤ i → i < j → vs[i]? ≠ some v
  /-- If nothing is reported there is none. -/
  missed : r = none → ∀ i, first ≤ i → i < last → vs[i]? ≠ some v

theorem Finds.eq_some {vs : List Value} {v : Value} {first last j : Nat} {r : Option Nat} (h : Finds vs v first last r)
    (hfirst : first ≤ j) (hlast : j < last) (hj : vs[j]? = some v)
    (hbefore : ∀ i, first ≤ i → i < j → vs[i]? ≠ some v) : r = some j := by
  cases r with
  | none => exact absurd hj (h.missed rfl j hfirst hlast)
  | some k =>
    obtain ⟨⟨hle, -⟩, hk, hmin⟩ := h.found k rfl
    rcases Nat.lt_trichotomy k j with hlt | rfl | hlt
    · exact absurd hk (hbefore k hle hlt)
    · rfl
    · exact absurd hj (hmin j hfirst hlt)

theorem finds_scan {vs : List Value} {v : Value} {first last : Nat} {test : Nat → Bool}
    (htest : ∀ i, first ≤ i → i < last → test i = decide (vs[i]? = some v)) :
    Finds vs v first last ((List.range' first (last - first)).find? test) := by
  have hrange : ∀ i, i ∈ List.range' first (last - first) ↔ first ≤ i ∧ i < last := by
    intro i
    rw [List.mem_range'_1]
    omega
  refine ⟨fun j hj => ?_, fun hnone i hi hlt hget => ?_⟩
  · have hmem := (hrange j).mp (List.mem_of_find?_eq_some hj)
    have hval := List.find?_some hj
    rw [htest j hmem.1 hmem.2, decide_eq_true_iff] at hval
    refine ⟨hmem, hval, fun i hi hij hget => ?_⟩
    obtain ⟨-, k, hk, hkj, hbefore⟩ := List.find?_eq_some_iff_getElem.mp hj
    rw [List.getElem_range', Nat.one_mul] at hkj
    have hik : i - first < k := by omega
    have hno := hbefore (i - first) hik
    rw [List.getElem_range', Nat.one_mul, Nat.add_sub_cancel' hi, htest i hi (by omega),
      decide_eq_true hget] at hno
    exact Bool.noConfusion hno
  · have hno := List.find?_eq_none.mp hnone i ((hrange i).mpr ⟨hi, hlt⟩)
    exact hno (by rw [htest i hi hlt, decide_eq_true hget])

namespace ShortStrings

variable {s : ShortStrings} {vs : List Value}

/-- A search for null in a range without positions, in an array of width 0: `find_first` reports `first`, whatever
`last` is. -/
def IgnoresEnd (s : ShortStrings) (v : Value) (first last : Nat) : Prop :=
  s.width = 0 ∧ v = none ∧ first < s.size ∧ last ≤ first

theorem Holds.findFirst (h : s.Holds vs) {v : Value} {first last : Nat} (hlast : last ≤ vs.length)
    (hend : ¬ s.IgnoresEnd v first last) : Finds vs v first last (s.findFirst v first last) := by
  have hsome : ∀ i, i < vs.length → ∃ w, vs[i]? = some w := fun i hi => ⟨_, List.getElem?_eq_getElem hi⟩
  unfold ShortStrings.findFirst
  split
  · rename_i hzero
    have hnull : ∀ (i : Nat) (w : Value), vs[i]? = some w → w = none := by
      intro i w hw
      obtain ⟨r, -, hr⟩ := h.row hw
      rw [hzero] at hr
      exact eq_none_of_width_zero hr
    split
    · rename_i hv
      obtain ⟨rfl, hlt⟩ := hv
      have hrange : first < last := Nat.lt_of_not_le fun hle => hend ⟨hzero, rfl, hlt, hle⟩
      rw [h.size_eq] at hlt
      obtain ⟨w, hw⟩ := hsome first hlt
      refine ⟨fun j hj => ?_, fun hf => absurd hf (Option.some_ne_none first)⟩
      obtain rfl := Option.some.inj hj
      refine ⟨⟨le_rfl, hrange⟩, ?_, fun i hi hlt' => absurd hlt' (Nat.not_lt.mpr hi)⟩
      rw [hw, hnull first w hw]
    · rename_i hv
      refine ⟨fun j hj => absurd hj.symm (Option.some_ne_none j), fun _ i hi hlt hget => hv ⟨?_, ?_⟩⟩
      · exact hnull i v hget
      · rw [h.size_eq]
        omega
  · rename_i hzero
    have hpos : 0 < s.width := Nat.pos_of_ne_zero hzero
    split
    · rename_i hwide
      refine ⟨fun j hj => absurd hj.symm (Option.some_ne_none j), fun _ i _ _ hget => ?_⟩
      obtain ⟨r, -, hr⟩ := h.row hget
      exact absurd (size_lt_of_rowValue hpos hr) (Nat.not_lt.mpr hwide)
    · refine finds_scan fun i _ hlt => ?_
      obtain ⟨w, hw⟩ := hsome i (by omega)
      rw [h.isMatch_eq hpos hw v, hw]
      simp

/-- What is reported is the value and the first one, for every range. -/
theorem Holds.value_of_findFirst (h : s.Holds vs) {v : Value} {first last j : Nat} (hlast : last ≤ vs.length)
    (hj : s.findFirst v first last = some j) :
    first ≤ j ∧ vs[j]? = some v ∧ ∀ i, first ≤ i → i < j → vs[i]? ≠ some v := by
  by_cases hend : s.IgnoresEnd v first last
  · obtain ⟨hzero, rfl, hlt, -⟩ := hend
    -- the answer is that for a range of one position
    have hone : s.findFirst none first (first + 1) = s.findFirst none first last := by
      unfold ShortStrings.findFirst
      rw [if_pos hzero, if_pos hzero]
    have hfinds : Finds vs none first (first + 1) (s.findFirst none first (first + 1)) :=
      h.findFirst (by rw [← h.size_eq]; exact hlt) fun hend => absurd hend.2.2.2 (Nat.not_succ_le_self _)
    obtain ⟨⟨hle, -⟩, hrest⟩ := hfinds.found j (hone.trans hj)
    exact ⟨hle, hrest⟩
  · obtain ⟨⟨hle, -⟩, hrest⟩ := (h.findFirst hlast hend).found j hj
    exact ⟨hle, hrest⟩

end ShortStrings

end Llbt.Leaf
