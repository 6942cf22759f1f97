import Llbt.Leaf.Blob

/-!
# Small and big blob arrays (`array_blobs_small.cpp`, `array_blobs_big.cpp`)

`SmallBlobs` keeps all values in one blob, with the array of their end positions and an array that
marks the nulls.  `BigBlobs` has one blob for each value, ref zero for null.  Strings are stored
with a terminating zero in both.

`ArraySmallBlobs` does not look at the ref that `ArrayBlob::replace` returns, so a blob that grows
beyond `maxBinarySize` is lost to it (`SmallBlobs.keepBlob`).  `ArrayBigBlobs::get` answers null for
a split blob.
-/

set_option autoImplicit false

namespace Llbt.Leaf

open Ownership BPlusTree Segments

/-- What a blob array stores for a value. -/
def payload (addZeroTerm : Bool) (v : Value) : Bytes := Blob.stored (v.getD []) addZeroTerm

/-- `Array::adjust` on the elements from `first` on, by `plus - minus`. -/
def Arr.adjust (a : Arr Nat) (first plus minus : Nat) : Prog (Arr Nat) :=
  if plus = minus ∨ a.elems.length ≤ first then pure a
  else a.grow (a.elems.take first ++ (a.elems.drop first).map (fun o => o + plus - minus))

structure SmallBlobs where
  ref : Ref
  offsets : Arr Nat
  blob : Arr UInt8
  nulls : Arr Bool

namespace SmallBlobs

def blocks (s : SmallBlobs) : List Ref := [s.ref, s.offsets.ref, s.blob.ref, s.nulls.ref]

def size (s : SmallBlobs) : Nat := s.offsets.elems.length

/-- Where the value at `ndx` starts. -/
def start (s : SmallBlobs) (ndx : Nat) : Nat :=
  if ndx = 0 then 0 else s.offsets.elems.getD (ndx - 1) 0

def stop (s : SmallBlobs) (ndx : Nat) : Nat := s.offsets.elems.getD ndx 0

/-- A new top array with three children, as `create` and `create_array` make it. -/
def build (ends : List Nat) (bytes : Bytes) (nulls : List Bool) : Prog SmallBlobs := do
  let r ← alloc
  let offsets ← Arr.create ends
  let r ← write r
  let blob ← Arr.create bytes
  let r ← write r
  let nulls ← Arr.create nulls
  let r ← write r
  pure ⟨r, offsets, blob, nulls⟩

def create : Prog SmallBlobs := build [] [] []

/-- `create(values, count)`. -/
def createFrom (vs : List Value) : Prog SmallBlobs :=
  build (ends Value.size 0 vs) (vs.flatMap (·.getD [])) (vs.map Option.isNone)

def setOffsets (s : SmallBlobs) (a : Arr Nat) : Prog SmallBlobs := do
  let r ← updateChildRef s.ref s.offsets.ref a.ref
  pure { s with ref := r, offsets := a }

def setNulls (s : SmallBlobs) (a : Arr Bool) : Prog SmallBlobs := do
  let r ← updateChildRef s.ref s.nulls.ref a.ref
  pure { s with ref := r, nulls := a }

def setBlob (s : SmallBlobs) (a : Arr UInt8) : Prog SmallBlobs := do
  let r ← updateChildRef s.ref s.blob.ref a.ref
  pure { s with ref := r, blob := a }

/-- The accessor of the blob after `replace`: the ref it returns is not used, so a new root is not
noticed. -/
def keepBlob (s : SmallBlobs) : Blob → Prog SmallBlobs
  | .whole a => s.setBlob a
  | .split _ _ => pure s

def replaceBytes (s : SmallBlobs) (first last : Nat) (data : Bytes) (z : Bool) : Prog SmallBlobs := do
  let b ← Blob.replace s.blob first last data z
  s.keepBlob b

def add (s : SmallBlobs) (v : Value) (z : Bool) : Prog SmallBlobs := do
  let s ← s.replaceBytes s.blob.elems.length s.blob.elems.length (v.getD []) z
  let a ← s.offsets.add ((payload z v).length + s.offsets.elems.getLast?.getD 0)
  let s ← s.setOffsets a
  let n ← s.nulls.add v.isNone
  s.setNulls n

def set (s : SmallBlobs) (ndx : Nat) (v : Value) (z : Bool) : Prog SmallBlobs := do
  let first := s.start ndx
  let last := s.stop ndx
  let s ← s.replaceBytes first last (v.getD []) z
  let a ← s.offsets.adjust ndx (first + (payload z v).length) last
  let s ← s.setOffsets a
  let n ← s.nulls.set ndx v.isNone
  s.setNulls n

def insert (s : SmallBlobs) (ndx : Nat) (v : Value) (z : Bool) : Prog SmallBlobs := do
  let pos := s.start ndx
  let s ← s.replaceBytes pos pos (v.getD []) z
  let a ← s.offsets.insert ndx (pos + (payload z v).length)
  let s ← s.setOffsets a
  let a ← s.offsets.adjust (ndx + 1) (payload z v).length 0
  let s ← s.setOffsets a
  let n ← s.nulls.insert ndx v.isNone
  s.setNulls n

def erase (s : SmallBlobs) (ndx : Nat) : Prog SmallBlobs := do
  let first := s.start ndx
  let last := s.stop ndx
  let s ← s.replaceBytes first last [] false
  let a ← s.offsets.erase ndx
  let s ← s.setOffsets a
  let a ← s.offsets.adjust ndx first last
  let s ← s.setOffsets a
  let n ← s.nulls.erase ndx
  s.setNulls n

def truncate (s : SmallBlobs) (n : Nat) : Prog SmallBlobs := do
  let sz := s.start n
  let a ← s.offsets.truncate n
  let s ← s.setOffsets a
  let b ← s.blob.truncate sz
  let s ← s.setBlob b
  let c ← s.nulls.truncate n
  s.setNulls c

def clear (s : SmallBlobs) : Prog SmallBlobs := do
  let b ← s.blob.truncate 0
  let s ← s.setBlob b
  let a ← s.offsets.truncate 0
  let s ← s.setOffsets a
  let c ← s.nulls.truncate 0
  s.setNulls c

def destroy (s : SmallBlobs) : Prog Unit :=
  freeAll [s.blob.ref, s.offsets.ref, s.nulls.ref, s.ref]

/-- The bytes from `first` to `last`; `none` is a read outside the blob. -/
def read (s : SmallBlobs) (first last : Nat) : Option Bytes :=
  if last ≤ s.blob.elems.length then some ((s.blob.elems.drop first).take (last - first)) else none

def get (s : SmallBlobs) (ndx : Nat) : Option Value :=
  match s.nulls.elems[ndx]? with
  | none => none
  | some true => some none
  | some false => (s.read (s.start ndx) (s.stop ndx)).map some

/-- Whether `find_first` stops at `ndx`. -/
def isMatch (s : SmallBlobs) (v : Value) (isString : Bool) (ndx : Nat) : Bool :=
  match v with
  | none => s.nulls.elems.getD ndx false
  | some data =>
    !s.nulls.elems.getD ndx false && s.stop ndx - s.start ndx == (Blob.stored data isString).length &&
      (s.blob.elems.drop (s.start ndx)).take data.length == data

/-! ### The list it stands for -/

/-- The length of what is stored for a value. -/
abbrev plen (z : Bool) (v : Value) : Nat := (payload z v).length

/-- `s` stores the values `vs`. -/
structure Holds (z : Bool) (s : SmallBlobs) (vs : List Value) : Prop where
  offsets_eq : s.offsets.elems = ends (plen z) 0 vs
  blob_eq : s.blob.elems = vs.flatMap (payload z)
  nulls_eq : s.nulls.elems = vs.map Option.isNone

/-- `s` stores the values `xs`, where `bytes` is what is stored for each and `null` says which are null. -/
structure Keeps {α : Type} (bytes : α → Bytes) (null : α → Bool) (s : SmallBlobs) (xs : List α) : Prop where
  offsets_eq : s.offsets.elems = ends (fun x => (bytes x).length) 0 xs
  blob_eq : s.blob.elems = xs.flatMap bytes
  nulls_eq : s.nulls.elems = xs.map null

/-! #### What the operations call -/

section Calls

variable {z : Bool} {s : SmallBlobs}

theorem yields_setOffsets (s : SmallBlobs) (a : Arr Nat) :
    Yields (s.setOffsets a) (fun s' => s'.offsets = a ∧ s'.blob = s.blob ∧ s'.nulls = s.nulls) :=
  (Blob.yields_updateChildRef _ _ _).bind fun _ _ => Yields.pure ⟨rfl, rfl, rfl⟩

theorem yields_setBlob (s : SmallBlobs) (a : Arr UInt8) :
    Yields (s.setBlob a) (fun s' => s'.offsets = s.offsets ∧ s'.blob = a ∧ s'.nulls = s.nulls) :=
  (Blob.yields_updateChildRef _ _ _).bind fun _ _ => Yields.pure ⟨rfl, rfl, rfl⟩

theorem yields_setNulls (s : SmallBlobs) (a : Arr Bool) :
    Yields (s.setNulls a) (fun s' => s'.offsets = s.offsets ∧ s'.blob = s.blob ∧ s'.nulls = a) :=
  (Blob.yields_updateChildRef _ _ _).bind fun _ _ => Yields.pure ⟨rfl, rfl, rfl⟩

theorem yields_replaceBytes {first last : Nat} {data : Bytes} (hle : first ≤ last)
    (hfit : s.blob.elems.length - (last - first) + (Blob.stored data z).length ≤ maxBinarySize)
    (hzero : z = true → last = first + data.length + 1 → s.blob.elems[first + data.length]? = some 0) :
    Yields (s.replaceBytes first last data z) (fun s' => s'.offsets = s.offsets ∧
      s'.blob.elems = s.blob.elems.take first ++ Blob.stored data z ++ s.blob.elems.drop last ∧
      s'.nulls = s.nulls) := by
  unfold replaceBytes Blob.replace
  rw [if_neg (Nat.not_lt.mpr hfit)]
  refine ((Blob.yields_storeWhole hle hzero).bind fun a ha =>
    (Yields.pure (P := fun b => ∃ a, b = Blob.whole a ∧ a.elems = s.blob.elems.take first ++
      Blob.stored data z ++ s.blob.elems.drop last) ⟨a, rfl, ha⟩)).bind fun b hb => ?_
  obtain ⟨a, rfl, ha⟩ := hb
  refine (yields_setBlob s a).mono fun s' hs' => ⟨hs'.1, ?_, hs'.2.2⟩
  rw [hs'.2.1, ha]

theorem yields_adjust (a : Arr Nat) (first plus minus : Nat) :
    Yields (a.adjust first plus minus) (fun a' =>
      a'.elems = a.elems.take first ++ (a.elems.drop first).map (fun o => o + plus - minus)) := by
  unfold Arr.adjust
  split
  · rename_i h
    refine Yields.pure ?_
    rcases h with h | h
    · have hid : (fun o : Nat => o + plus - minus) = id := by
        funext o
        rw [h]
        exact Nat.add_sub_cancel o minus
      rw [hid, List.map_id, List.take_append_drop]
    · rw [List.take_of_length_le h, List.drop_eq_nil_of_le h, List.map_nil, List.append_nil]
  · exact (Arr.yields_grow a _).mono fun a' ha' => ha'.2

theorem yields_build (es : List Nat) (bs : Bytes) (ns : List Bool) :
    Yields (build es bs ns) (fun s => s.offsets.elems = es ∧ s.blob.elems = bs ∧ s.nulls.elems = ns) :=
  Yields.alloc.bind fun r₀ _ => (Arr.yields_create es).bind fun _ ho =>
    (Yields.write r₀).bind fun r₁ _ => (Arr.yields_create bs).bind fun _ hb =>
      (Yields.write r₁).bind fun r₂ _ => (Arr.yields_create ns).bind fun _ hn =>
        (Yields.write r₂).bind fun _ _ => Yields.pure ⟨ho.2, hb.2, hn.2⟩

end Calls

/-! #### Values of any kind -/

section Keeps

variable {α : Type} {bytes : α → Bytes} {null : α → Bool} {s : SmallBlobs} {xs pre post : List α} {x w : α}
  {v : Value} {z : Bool}

/-- The length of what is stored for `x`. -/
abbrev len (bytes : α → Bytes) (x : α) : Nat := (bytes x).length

/-- `x` is what the value `v` becomes when it is stored, with a terminating zero or without. -/
structure Stores (bytes : α → Bytes) (null : α → Bool) (x : α) (v : Value) (z : Bool) : Prop where
  bytes_eq : Blob.stored (v.getD []) z = bytes x
  null_eq : v.isNone = null x

theorem Keeps.size_eq (h : s.Keeps bytes null xs) : s.size = xs.length := by
  rw [size, h.offsets_eq, ends_length]

theorem Keeps.start_eq (h : s.Keeps bytes null (pre ++ post)) : s.start pre.length = span (len bytes) pre := by
  unfold start
  split
  · rename_i h0
    rw [List.length_eq_zero_iff.mp h0, span_nil]
  · rename_i h0
    have hne : pre ≠ [] := fun he => h0 (by rw [he]; rfl)
    have hlast := ends_getLast? (len bytes) 0 pre hne
    rw [List.getLast?_eq_getElem?, ends_length, Nat.zero_add] at hlast
    have hlt : pre.length - 1 < (ends (len bytes) 0 pre).length := by
      rw [ends_length]
      exact Nat.pred_lt h0
    rw [h.offsets_eq, ends_append, List.getD_append _ _ _ _ hlt, List.getD_eq_getElem?_getD, hlast]
    rfl

theorem Keeps.stop_eq (h : s.Keeps bytes null (pre ++ w :: post)) :
    s.stop pre.length = span (len bytes) pre + len bytes w := by
  have hlen : (ends (len bytes) 0 pre).length = pre.length := ends_length _ _ _
  have hget : (ends (len bytes) 0 (pre ++ w :: post))[pre.length]? =
      some (span (len bytes) pre + len bytes w) := by
    rw [ends_append, List.getElem?_append_right (by rw [hlen]), hlen, Nat.sub_self, Nat.zero_add]
    rfl
  rw [stop, h.offsets_eq, List.getD_eq_getElem?_getD, hget]
  rfl

theorem length_flatMap_bytes (xs : List α) : (xs.flatMap bytes).length = span (len bytes) xs := by
  rw [List.length_flatMap]
  rfl

theorem Keeps.blob_length (h : s.Keeps bytes null xs) : s.blob.elems.length = span (len bytes) xs := by
  rw [h.blob_eq, length_flatMap_bytes]

theorem Keeps.blob_take (h : s.Keeps bytes null (pre ++ post)) :
    s.blob.elems.take (span (len bytes) pre) = pre.flatMap bytes := by
  rw [h.blob_eq, List.flatMap_append, ← length_flatMap_bytes, List.take_left]

theorem Keeps.blob_drop (h : s.Keeps bytes null (pre ++ post)) :
    s.blob.elems.drop (span (len bytes) pre) = post.flatMap bytes := by
  rw [h.blob_eq, List.flatMap_append, ← length_flatMap_bytes, List.drop_left]

theorem Keeps.blob_drop_value (h : s.Keeps bytes null (pre ++ w :: post)) :
    s.blob.elems.drop (span (len bytes) pre + len bytes w) = post.flatMap bytes := by
  rw [← List.drop_drop, h.blob_drop, List.flatMap_cons, List.drop_left]

theorem Keeps.add (h : s.Keeps bytes null xs) (hx : Stores bytes null x v z)
    (hfit : span (len bytes) (xs ++ [x]) ≤ maxBinarySize) : Yields (s.add v z) (Keeps bytes null · (xs ++ [x])) := by
  have hlen := h.blob_length
  have hsize : (payload z v).length = len bytes x := congrArg List.length hx.bytes_eq
  rw [span_append, span_cons, span_nil, Nat.add_zero] at hfit
  refine (yields_replaceBytes le_rfl (by rw [Nat.sub_self, Nat.sub_zero, hlen, hx.bytes_eq]; exact hfit)
    fun _ he => absurd he (by omega)).bind fun s₁ hs₁ => ?_
  obtain ⟨ho₁, hb₁, hn₁⟩ := hs₁
  refine (Arr.yields_grow _ _).bind fun a ha => (yields_setOffsets s₁ a).bind fun s₂ hs₂ => ?_
  obtain ⟨ho₂, hb₂, hn₂⟩ := hs₂
  refine (Arr.yields_grow _ _).bind fun n hn => (yields_setNulls s₂ n).mono fun s₃ hs₃ => ?_
  obtain ⟨ho₃, hb₃, hn₃⟩ := hs₃
  refine ⟨?_, ?_, ?_⟩
  · rw [ho₃, ho₂, ha.2, ho₁, h.offsets_eq, getLastD_ends, ends_append, Nat.zero_add, Nat.add_comm, hsize]
    rfl
  · rw [hb₃, hb₂, hb₁, List.take_length, List.drop_length, List.append_nil, h.blob_eq,
      List.flatMap_append, List.flatMap_singleton, hx.bytes_eq]
  · rw [hn₃, hn.2, hn₂, hn₁, h.nulls_eq, List.map_append, hx.null_eq]
    rfl

theorem ends_shift (bytes : α → Bytes) (k k' : Nat) (acc : Nat) (xs : List α) :
    (ends (len bytes) (acc + k) xs).map (fun o => o + (acc + k') - (acc + k)) =
      ends (len bytes) (acc + k') xs := by
  have hfrom : ∀ m, ends (len bytes) m xs = (ends (len bytes) 0 xs).map (· + m) := by
    intro m
    rw [← ends_add, Nat.zero_add]
  rw [hfrom (acc + k), hfrom (acc + k'), List.map_map]
  apply List.map_congr_left
  intro o _
  simp only [Function.comp_apply]
  omega

/-- **`set`.**  Where a terminating zero is stored and the length stays, the last byte must already be zero:
it may be left as it is. -/
theorem Keeps.set (h : s.Keeps bytes null xs) (hx : Stores bytes null x v z) {ndx : Nat} (hw : xs[ndx]? = some w)
    (hfit : span (len bytes) (xs.set ndx x) ≤ maxBinarySize)
    (hzero : z = true → len bytes w = (v.getD []).length + 1 → (bytes w)[(v.getD []).length]? = some 0) :
    Yields (s.set ndx v z) (Keeps bytes null · (xs.set ndx x)) := by
  obtain ⟨pre, post, rfl, rfl⟩ := exists_mid hw
  rw [set_mid] at hfit ⊢
  have hlen := h.blob_length
  have hsize : (payload z v).length = len bytes x := congrArg List.length hx.bytes_eq
  rw [span_append, span_cons] at hfit hlen
  unfold SmallBlobs.set
  dsimp only
  rw [h.start_eq, h.stop_eq]
  refine (yields_replaceBytes (Nat.le_add_right _ _)
    (by rw [hlen, hx.bytes_eq]; change _ + len bytes x ≤ _; omega) fun hz he => ?_).bind fun s₁ hs₁ => ?_
  · have hat := hzero hz (by omega)
    obtain ⟨hlt, -⟩ := List.getElem?_eq_some_iff.mp hat
    rw [← List.getElem?_drop, h.blob_drop, List.flatMap_cons, List.getElem?_append_left hlt]
    exact hat
  · obtain ⟨ho₁, hb₁, hn₁⟩ := hs₁
    refine (yields_adjust _ _ _ _).bind fun a ha => (yields_setOffsets s₁ a).bind fun s₂ hs₂ => ?_
    obtain ⟨ho₂, hb₂, hn₂⟩ := hs₂
    refine (Arr.yields_set _ _ _).bind fun n hn => (yields_setNulls s₂ n).mono fun s₃ hs₃ => ?_
    obtain ⟨ho₃, hb₃, hn₃⟩ := hs₃
    refine ⟨?_, ?_, ?_⟩
    · have hcut : (ends (len bytes) 0 pre).length = pre.length := ends_length _ _ _
      rw [ho₃, ho₂, ha, ho₁, h.offsets_eq, ends_append, ends_append, List.take_left' hcut,
        List.drop_left' hcut, Nat.zero_add, hsize]
      congr 1
      have hshift := ends_shift bytes (len bytes w) (len bytes x) (span (len bytes) pre) post
      simp only [ends, List.map_cons, hshift]
      congr 1
      change span (len bytes) pre + len bytes w + (span (len bytes) pre + len bytes x) -
        (span (len bytes) pre + len bytes w) = span (len bytes) pre + len bytes x
      omega
    · rw [hb₃, hb₂, hb₁, h.blob_take, h.blob_drop_value, List.flatMap_append, List.flatMap_cons,
        List.append_assoc, hx.bytes_eq]
    · rw [hn₃, hn.2, hn₂, hn₁, h.nulls_eq, hx.null_eq]
      simp

theorem Keeps.insert (h : s.Keeps bytes null xs) (hx : Stores bytes null x v z) {ndx : Nat} (hndx : ndx ≤ xs.length)
    (hfit : span (len bytes) (xs.insertIdx ndx x) ≤ maxBinarySize) :
    Yields (s.insert ndx v z) (Keeps bytes null · (xs.insertIdx ndx x)) := by
  obtain ⟨pre, post, rfl, rfl⟩ := exists_cut hndx
  rw [insertIdx_mid] at hfit ⊢
  have hlen := h.blob_length
  have hsize : (payload z v).length = len bytes x := congrArg List.length hx.bytes_eq
  rw [span_append] at hlen
  rw [span_append, span_cons] at hfit
  unfold SmallBlobs.insert
  dsimp only
  rw [h.start_eq, hsize]
  refine (yields_replaceBytes le_rfl
    (by rw [hlen, Nat.sub_self, hx.bytes_eq]; change _ + len bytes x ≤ _; omega)
    fun _ he => absurd he (by omega)).bind fun s₁ hs₁ => ?_
  obtain ⟨ho₁, hb₁, hn₁⟩ := hs₁
  refine (Arr.yields_grow _ _).bind fun a ha => (yields_setOffsets s₁ a).bind fun s₂ hs₂ => ?_
  obtain ⟨ho₂, hb₂, hn₂⟩ := hs₂
  refine (yields_adjust _ _ _ _).bind fun a' ha' => (yields_setOffsets s₂ a').bind fun s₃ hs₃ => ?_
  obtain ⟨ho₃, hb₃, hn₃⟩ := hs₃
  refine (Arr.yields_grow _ _).bind fun n hn => (yields_setNulls s₃ n).mono fun s₄ hs₄ => ?_
  obtain ⟨ho₄, hb₄, hn₄⟩ := hs₄
  have hcut : (ends (len bytes) 0 pre).length = pre.length := ends_length _ _ _
  refine ⟨?_, ?_, ?_⟩
  · have hins : (ends (len bytes) 0 pre ++ ends (len bytes) (span (len bytes) pre) post).insertIdx pre.length
        (span (len bytes) pre + len bytes x) =
        (ends (len bytes) 0 pre ++ [span (len bytes) pre + len bytes x]) ++
          ends (len bytes) (span (len bytes) pre) post := by
      rw [← hcut, insertIdx_mid, List.append_assoc, List.singleton_append]
    have hcut' : (ends (len bytes) 0 pre ++ [span (len bytes) pre + len bytes x]).length = pre.length + 1 := by
      rw [List.length_append, hcut, List.length_singleton]
    rw [ho₄, ho₃, ha', ho₂, ha.2, ho₁, h.offsets_eq, ends_append, Nat.zero_add, hins,
      List.take_left' hcut', List.drop_left' hcut', ends_append, Nat.zero_add, List.append_assoc,
      List.singleton_append, ends, ends_add]
    rfl
  · rw [hb₄, hb₃, hb₂, hb₁, h.blob_take, h.blob_drop, List.flatMap_append, List.flatMap_cons,
      List.append_assoc, hx.bytes_eq]
  · rw [hn₄, hn.2, hn₃, hn₂, hn₁, h.nulls_eq, hx.null_eq, List.map_append, ← List.length_map (f := null),
      insertIdx_mid, List.map_append, List.map_cons]

theorem Keeps.erase (h : s.Keeps bytes null xs) {ndx : Nat} (hndx : ndx < xs.length)
    (hfit : span (len bytes) xs ≤ maxBinarySize) : Yields (s.erase ndx) (Keeps bytes null · (xs.eraseIdx ndx)) := by
  obtain ⟨w, hw⟩ : ∃ w, xs[ndx]? = some w := ⟨_, List.getElem?_eq_getElem hndx⟩
  obtain ⟨pre, post, rfl, rfl⟩ := exists_mid hw
  rw [eraseIdx_mid]
  have hlen := h.blob_length
  unfold SmallBlobs.erase
  dsimp only
  rw [h.start_eq, h.stop_eq]
  refine (yields_replaceBytes (z := false) (Nat.le_add_right _ _)
    (by rw [hlen]; change _ + 0 ≤ _; omega) fun hz _ => absurd hz (by decide)).bind fun s₁ hs₁ => ?_
  obtain ⟨ho₁, hb₁, hn₁⟩ := hs₁
  refine (Arr.yields_change _ _).bind fun a ha => (yields_setOffsets s₁ a).bind fun s₂ hs₂ => ?_
  obtain ⟨ho₂, hb₂, hn₂⟩ := hs₂
  refine (yields_adjust _ _ _ _).bind fun a' ha' => (yields_setOffsets s₂ a').bind fun s₃ hs₃ => ?_
  obtain ⟨ho₃, hb₃, hn₃⟩ := hs₃
  refine (Arr.yields_change _ _).bind fun n hn => (yields_setNulls s₃ n).mono fun s₄ hs₄ => ?_
  obtain ⟨ho₄, hb₄, hn₄⟩ := hs₄
  have hcut : (ends (len bytes) 0 pre).length = pre.length := ends_length _ _ _
  refine ⟨?_, ?_, ?_⟩
  · have hers : (ends (len bytes) 0 (pre ++ w :: post)).eraseIdx pre.length =
        ends (len bytes) 0 pre ++ ends (len bytes) (span (len bytes) pre + len bytes w) post := by
      rw [ends_append, ← hcut, Nat.zero_add, ends, eraseIdx_mid]
    rw [ho₄, ho₃, ha', ho₂, ha.2, ho₁, h.offsets_eq, hers, List.take_left' hcut,
      List.drop_left' hcut, ends_append, Nat.zero_add]
    congr 1
    exact ends_shift bytes (len bytes w) 0 (span (len bytes) pre) post
  · rw [hb₄, hb₃, hb₂, hb₁, h.blob_take, h.blob_drop_value, List.flatMap_append, Blob.stored_false,
      List.append_nil]
  · rw [hn₄, hn.2, hn₃, hn₂, hn₁, h.nulls_eq, List.map_append, List.map_cons,
      ← List.length_map (f := null), eraseIdx_mid, List.map_append]

theorem Keeps.truncate (h : s.Keeps bytes null xs) {n : Nat} (hn : n ≤ xs.length) :
    Yields (s.truncate n) (Keeps bytes null · (xs.take n)) := by
  obtain ⟨pre, post, rfl, rfl⟩ := exists_cut hn
  rw [List.take_left]
  have hstart := h.start_eq
  unfold SmallBlobs.truncate
  dsimp only
  rw [hstart]
  refine (Arr.yields_truncate _ _).bind fun a ha => (yields_setOffsets s a).bind fun s₁ hs₁ => ?_
  obtain ⟨ho₁, hb₁, hn₁⟩ := hs₁
  refine (Arr.yields_truncate _ _).bind fun b hb => (yields_setBlob s₁ b).bind fun s₂ hs₂ => ?_
  obtain ⟨ho₂, hb₂, hn₂⟩ := hs₂
  refine (Arr.yields_truncate _ _).bind fun n hn => (yields_setNulls s₂ n).mono fun s₃ hs₃ => ?_
  obtain ⟨ho₃, hb₃, hn₃⟩ := hs₃
  refine ⟨?_, ?_, ?_⟩
  · rw [ho₃, ho₂, ho₁, ha.2, h.offsets_eq, ends_append, List.take_left' (ends_length _ _ _)]
  · rw [hb₃, hb₂, hb.2, hb₁, h.blob_take]
  · rw [hn₃, hn.2, hn₂, hn₁, h.nulls_eq, List.map_append, List.take_left' (List.length_map _)]

/-- **`get`**: null is null, any other value is what was stored for it. -/
theorem Keeps.getAt (h : s.Keeps bytes null xs) {ndx : Nat} (hw : xs[ndx]? = some w) :
    s.get ndx = some (if null w then none else some (bytes w)) := by
  obtain ⟨pre, post, rfl, rfl⟩ := exists_mid hw
  have hnull : s.nulls.elems[pre.length]? = some (null w) := by
    rw [h.nulls_eq, List.getElem?_map, getElem?_mid, Option.map_some]
  have hlen := h.blob_length
  rw [span_append, span_cons] at hlen
  have hread : s.read (span (len bytes) pre) (span (len bytes) pre + len bytes w) = some (bytes w) := by
    unfold read
    rw [if_pos (by omega), h.blob_drop, List.flatMap_cons, Nat.add_sub_cancel_left, List.take_left]
  unfold SmallBlobs.get
  rw [hnull, h.start_eq, h.stop_eq, hread]
  cases null w <;> rfl

theorem Keeps.isMatchAt (h : s.Keeps bytes null xs) {ndx : Nat} (hw : xs[ndx]? = some w) (v : Value)
    (isString : Bool) : s.isMatch v isString ndx = match v with
      | none => null w
      | some data => !null w && (len bytes w == (Blob.stored data isString).length &&
          (bytes w).take data.length == data) := by
  obtain ⟨pre, post, rfl, rfl⟩ := exists_mid hw
  have hnull : s.nulls.elems.getD pre.length false = null w := by
    rw [h.nulls_eq, List.getD_eq_getElem?_getD, List.getElem?_map, getElem?_mid, Option.map_some, Option.getD_some]
  unfold isMatch
  rw [hnull, h.start_eq, h.stop_eq, h.blob_drop, List.flatMap_cons, Nat.add_sub_cancel_left]
  cases v with
  | none => rfl
  | some data =>
    dsimp only
    rw [Bool.and_assoc]
    by_cases hlen : len bytes w = (Blob.stored data isString).length
    · have hle : data.length ≤ len bytes w := by
        rw [hlen]
        cases isString <;> simp
      rw [List.take_append_of_le_length hle]
    · rw [beq_eq_false_iff_ne.mpr hlen, Bool.false_and, Bool.false_and]

end Keeps

/-! #### Values that all have, or all lack, a terminating zero -/

variable {z : Bool} {s : SmallBlobs} {vs : List Value} {v w : Value}

theorem Holds.keeps (h : s.Holds z vs) : s.Keeps (payload z) Option.isNone vs :=
  ⟨h.offsets_eq, h.blob_eq, h.nulls_eq⟩

theorem Keeps.holds (h : s.Keeps (payload z) Option.isNone vs) : s.Holds z vs :=
  ⟨h.offsets_eq, h.blob_eq, h.nulls_eq⟩

theorem stores_payload (v : Value) (z : Bool) : Stores (payload z) Option.isNone v v z := ⟨rfl, rfl⟩

theorem Holds.size_eq (h : s.Holds z vs) : s.size = vs.length := h.keeps.size_eq

theorem holds_create (z : Bool) : Yields create (Holds z · []) :=
  (yields_build [] [] []).mono fun _ h => ⟨h.1, h.2.1, h.2.2⟩

theorem Holds.add (h : s.Holds z vs) (v : Value) (hfit : span (plen z) vs + plen z v ≤ maxBinarySize) :
    Yields (s.add v z) (Holds z · (vs ++ [v])) := by
  refine (h.keeps.add (stores_payload v z) ?_).mono fun _ => Keeps.holds
  rw [span_append, span_cons, span_nil, Nat.add_zero]
  exact hfit

/-- A blob that outgrows one block gets a new root, which `keepBlob` does not notice: the value just
added lies behind the end of the blob that is read. -/
theorem Holds.add_overflow (h : s.Holds z vs) {data : Bytes} (hle : span (plen z) vs ≤ maxBinarySize)
    (hover : maxBinarySize < span (plen z) vs + plen z (some data)) :
    Yields (s.add (some data) z) (fun s' => s'.get vs.length = none) := by
  have hlen : s.blob.elems.length = span (plen z) vs := h.keeps.blob_length
  have hnulls : s.nulls.elems.length = vs.length := by rw [h.nulls_eq, List.length_map]
  have hoffsets : s.offsets.elems.length = vs.length := h.size_eq
  have hsame : Yields (s.replaceBytes s.blob.elems.length s.blob.elems.length data z) (· = s) := by
    unfold replaceBytes
    rw [Blob.replace_end]
    refine (Blob.yields_add_of_lt (hlen.le.trans hle) (by rw [hlen]; exact hover)).bind fun b hb => ?_
    obtain ⟨r, cs, rfl, -, -⟩ := hb
    exact Yields.pure rfl
  refine hsame.bind fun s₁ hs₁ => ?_
  subst hs₁
  refine (Arr.yields_grow _ _).bind fun a ha => (yields_setOffsets s₁ a).bind fun s₂ hs₂ => ?_
  obtain ⟨ho₂, hb₂, hn₂⟩ := hs₂
  refine (Arr.yields_grow _ _).bind fun n hn => (yields_setNulls s₂ n).mono fun s₃ hs₃ => ?_
  obtain ⟨ho₃, hb₃, hn₃⟩ := hs₃
  have hnull : s₃.nulls.elems[vs.length]? = some false := by
    rw [hn₃, hn.2, hn₂, ← hnulls, List.getElem?_concat_length]
    rfl
  have hstop : s₃.stop vs.length = plen z (some data) + span (plen z) vs := by
    unfold stop
    rw [ho₃, ho₂, ha.2, ← hoffsets, List.getD_eq_getElem?_getD, List.getElem?_concat_length,
      h.offsets_eq, getLastD_ends]
    rfl
  have hout : ¬ s₃.stop vs.length ≤ s₃.blob.elems.length := by
    rw [hstop, hb₃, hb₂, hlen]
    omega
  unfold get read
  rw [hnull, if_neg hout]
  rfl

theorem Holds.setAt (h : s.Holds z vs) {ndx : Nat} (hndx : ndx < vs.length)
    (hfit : span (plen z) (vs.set ndx v) ≤ maxBinarySize) :
    Yields (s.set ndx v z) (Holds z · (vs.set ndx v)) := by
  refine (h.keeps.set (stores_payload v z) (List.getElem?_eq_getElem hndx) hfit fun hz hw => ?_).mono
    fun _ => Keeps.holds
  -- the value there has the same length, so its last byte is its terminating zero
  subst hz
  generalize vs[ndx] = w at hw
  have hlen : (w.getD []).length = (v.getD []).length := by simpa [payload, len] using hw
  rw [← hlen]
  simp [payload]

theorem Holds.insertAt (h : s.Holds z vs) {ndx : Nat} (hndx : ndx ≤ vs.length)
    (hfit : span (plen z) (vs.insertIdx ndx v) ≤ maxBinarySize) :
    Yields (s.insert ndx v z) (Holds z · (vs.insertIdx ndx v)) :=
  (h.keeps.insert (stores_payload v z) hndx hfit).mono fun _ => Keeps.holds

theorem Holds.eraseAt (h : s.Holds z vs) {ndx : Nat} (hndx : ndx < vs.length)
    (hfit : span (plen z) vs ≤ maxBinarySize) : Yields (s.erase ndx) (Holds z · (vs.eraseIdx ndx)) :=
  (h.keeps.erase hndx hfit).mono fun _ => Keeps.holds

theorem Holds.truncateTo (h : s.Holds z vs) {n : Nat} (hn : n ≤ vs.length) :
    Yields (s.truncate n) (Holds z · (vs.take n)) := (h.keeps.truncate hn).mono fun _ => Keeps.holds

theorem holds_clear (s : SmallBlobs) (z : Bool) : Yields s.clear (Holds z · []) := by
  refine (Arr.yields_truncate _ _).bind fun b hb => (yields_setBlob s b).bind fun s₁ hs₁ => ?_
  refine (Arr.yields_truncate _ _).bind fun a ha => (yields_setOffsets s₁ a).bind fun s₂ hs₂ => ?_
  refine (Arr.yields_truncate _ _).bind fun n hn => (yields_setNulls s₂ n).mono fun s₃ hs₃ => ?_
  refine ⟨?_, ?_, ?_⟩
  · rw [hs₃.1, hs₂.1, ha.2]
    rfl
  · rw [hs₃.2.1, hs₂.2.1, hs₁.2.1, hb.2]
    rfl
  · rw [hs₃.2.2, hn.2]
    rfl

theorem Holds.getAt (h : s.Holds z vs) {ndx : Nat} (hw : vs[ndx]? = some w) :
    s.get ndx = some (w.map (Blob.stored · z)) := by
  rw [h.keeps.getAt hw]
  cases w <;> rfl

/-- **`find_first` stops at exactly the places of the value.** -/
theorem Holds.isMatchAt (h : s.Holds z vs) {ndx : Nat} (hw : vs[ndx]? = some w) (v : Value) :
    s.isMatch v z ndx = decide (w = v) := by
  rw [h.keeps.isMatchAt hw]
  cases v with
  | none => cases w <;> simp
  | some data =>
    cases w with
    | none => simp
    | some data' =>
      have hpay : payload z (some data') = Blob.stored data' z := rfl
      simp only [Option.isNone_some, Bool.not_false, Bool.true_and, len, hpay]
      by_cases hlen : (Blob.stored data' z).length = (Blob.stored data z).length
      · have hdata : data'.length = data.length := by
          cases z <;> simpa using hlen
        have htake : (Blob.stored data' z).take data.length = data' := by
          cases z <;> simp [← hdata]
        rw [htake, hlen]
        by_cases he : data' = data <;> simp [he]
      · have hne : data' ≠ data := fun he => hlen (by rw [he])
        simp [hlen, hne]

end SmallBlobs

structure BigBlobs where
  ref : Ref
  slots : List (Option Blob)

namespace BigBlobs

def slotBlocks : Option Blob → List Ref
  | none => []
  | some b => b.blocks

def blocks (b : BigBlobs) : List Ref := b.ref :: b.slots.flatMap slotBlocks

def size (b : BigBlobs) : Nat := b.slots.length

def create : Prog BigBlobs := do
  let r ← alloc
  pure ⟨r, []⟩

/-- A new blob as `create(values, count)` and `set` make it: one block of the right size, or split. -/
def makeBlob (data : Bytes) (z : Bool) : Prog Blob :=
  if maxBinarySize < (Blob.stored data z).length then Blob.createWith data z
  else do
    let a ← Arr.create (Blob.stored data z)
    pure (.whole a)

/-- The loop of `create(values, count)`: the slots are zero at first. -/
def fill (r : Ref) (slots : List (Option Blob)) : List Value → Prog BigBlobs
  | [] => pure ⟨r, slots⟩
  | none :: vs => fill r (slots ++ [none]) vs
  | some data :: vs => do
    let b ← makeBlob data false
    let r ← write r
    fill r (slots ++ [some b]) vs

def createFrom (vs : List Value) : Prog BigBlobs := do
  let r ← alloc
  fill r [] vs

/-- The blob that `add` and `insert` make. -/
def newSlot (v : Value) (z : Bool) : Prog (Option Blob) :=
  match v with
  | none => pure none
  | some data => do
    let b ← Blob.createWith data z
    pure (some b)

def add (b : BigBlobs) (v : Value) (z : Bool) : Prog BigBlobs := do
  let x ← newSlot v z
  let r ← write b.ref
  pure ⟨r, b.slots ++ [x]⟩

def insert (b : BigBlobs) (ndx : Nat) (v : Value) (z : Bool) : Prog BigBlobs := do
  let x ← newSlot v z
  let r ← write b.ref
  pure ⟨r, b.slots.insertIdx ndx x⟩

/-- `set_as_ref` on slot `ndx`, which held `old`. -/
def setSlot (b : BigBlobs) (ndx : Nat) (old : Ref) (x : Blob) : Prog BigBlobs := do
  let r ← updateChildRef b.ref old x.ref
  pure ⟨r, b.slots.set ndx (some x)⟩

/-- A blob in one block gets a new value: a read-only block is replaced, any other rewritten. -/
def setWhole (b : BigBlobs) (ndx : Nat) (a : Arr UInt8) (data : Bytes) (z : Bool) (readOnly : Bool) :
    Prog BigBlobs :=
  if readOnly then do
    let x ← makeBlob data z
    let b ← b.setSlot ndx a.ref x
    free a.ref
    pure b
  else do
    let x ← Blob.replace a 0 a.elems.length data z
    b.setSlot ndx a.ref x

def set (b : BigBlobs) (ndx : Nat) (v : Value) (z : Bool) : Prog BigBlobs :=
  match b.slots[ndx]?.join, v with
  | none, none => pure b
  | none, some data => do
    let x ← makeBlob data z
    b.setSlot ndx 0 x
  | some (.whole a), some data => do
    let readOnly ← isReadOnly a.ref
    b.setWhole ndx a data z readOnly
  | some (.split r chunks), some data => do
    let x ← Blob.blobReplace r chunks 0 (chunks.flatMap Arr.elems).length data z
    b.setSlot ndx r x
  | some x, none => do
    freeAll x.blocks
    let r ← write b.ref
    pure ⟨r, b.slots.set ndx none⟩

def erase (b : BigBlobs) (ndx : Nat) : Prog BigBlobs := do
  freeAll (slotBlocks b.slots[ndx]?.join)
  let r ← copyOnWrite b.ref
  pure ⟨r, b.slots.eraseIdx ndx⟩

def truncate (b : BigBlobs) (n : Nat) : Prog BigBlobs :=
  if n = b.slots.length then pure b
  else do
    let r ← copyOnWrite b.ref
    freeAll ((b.slots.drop n).flatMap slotBlocks)
    pure ⟨r, b.slots.take n⟩

def clear (b : BigBlobs) : Prog BigBlobs := b.truncate 0

def destroy (b : BigBlobs) : Prog Unit := freeAll b.blocks

/-- What `get` makes of a slot: null for ref zero, and null for a split blob. -/
def slotValue : Option Blob → Value
  | none => none
  | some (.whole a) => some a.elems
  | some (.split _ _) => none

def get (b : BigBlobs) (ndx : Nat) : Option Value := b.slots[ndx]?.map slotValue

/-- `get_at`, called until the position is zero again. -/
def readAll (b : BigBlobs) (ndx : Nat) : Option Value :=
  b.slots[ndx]?.bind fun
    | none => some none
    | some x => (x.readFrom x.pieces 0).map some

/-- Whether `find_first` stops at `ndx`.  For a split blob the size in the header is the number of
chunks and the data are the refs; `refBytes` is how an array of refs is laid out. -/
def isMatch (refBytes : List Ref → Bytes) (b : BigBlobs) (v : Value) (isString : Bool) (ndx : Nat) :
    Bool :=
  match v, b.slots[ndx]?.join with
  | none, none => true
  | none, some _ => false
  | some _, none => false
  | some data, some (.whole a) =>
    a.elems.length == (Blob.stored data isString).length && a.elems.take data.length == data
  | some data, some (.split _ chunks) =>
    chunks.length == (Blob.stored data isString).length &&
      (refBytes (chunks.map Arr.ref)).take data.length == data

/-! ### The list it stands for -/

/-- The slot stores the value, in one block. -/
structure SlotHolds (z : Bool) (x : Option Blob) (v : Value) : Prop where
  value_eq : slotValue x = v.map (Blob.stored · z)
  whole : ∀ y, x = some y → ∃ a, y = Blob.whole a ∧ a.elems.length ≤ maxBinarySize

/-- `b` stores the values `vs`, each in one block. -/
structure Holds (z : Bool) (b : BigBlobs) (vs : List Value) : Prop where
  values_eq : b.slots.map slotValue = vs.map (Option.map (Blob.stored · z))
  whole : ∀ y, some y ∈ b.slots → ∃ a, y = Blob.whole a ∧ a.elems.length ≤ maxBinarySize

/-- What is stored for a value fits into one block. -/
def Fits (z : Bool) (v : Value) : Prop := (payload z v).length ≤ maxBinarySize

instance (z : Bool) (v : Value) : Decidable (Fits z v) := inferInstanceAs (Decidable (_ ≤ _))

variable {z : Bool} {b : BigBlobs} {vs : List Value} {v w : Value} {ndx : Nat}

theorem slotHolds_none (z : Bool) : SlotHolds z none none := ⟨rfl, fun _ h => by cases h⟩

theorem slotHolds_whole {a : Arr UInt8} {data : Bytes} (ha : a.elems = Blob.stored data z)
    (hfit : Fits z (some data)) : SlotHolds z (some (.whole a)) (some data) := by
  refine ⟨congrArg some ha, fun y hy => ?_⟩
  cases hy
  refine ⟨a, rfl, ?_⟩
  rw [ha]
  exact hfit

theorem Holds.length_eq (h : b.Holds z vs) : b.slots.length = vs.length := by
  simpa using congrArg List.length h.values_eq

theorem Holds.slot (h : b.Holds z vs) (hv : vs[ndx]? = some w) :
    ∃ x, b.slots[ndx]? = some x ∧ SlotHolds z x w := by
  have hlt : ndx < vs.length := (List.getElem?_eq_some_iff.mp hv).1
  have hlt' : ndx < b.slots.length := by rw [h.length_eq]; exact hlt
  refine ⟨b.slots[ndx], List.getElem?_eq_getElem hlt', ?_, fun y hy => h.whole y ?_⟩
  · have hmap := congrArg (·[ndx]?) h.values_eq
    simp only [List.getElem?_map, List.getElem?_eq_getElem hlt', hv, Option.map_some] at hmap
    exact Option.some.inj hmap
  · rw [← hy]
    exact List.getElem_mem hlt'

theorem yields_createWith {data : Bytes} (hfit : Fits z (some data)) :
    Yields (Blob.createWith data z) (fun y => SlotHolds z (some y) (some data)) := by
  refine (Arr.yields_create []).bind fun a ha => ?_
  have hnil : a.elems = [] := ha.2
  refine (Blob.yields_add_of_le ?_).mono fun y hy => ?_
  · rw [hnil, List.length_nil, Nat.zero_add]
    exact hfit
  · obtain ⟨a', rfl, ha'⟩ := hy
    rw [hnil, List.nil_append] at ha'
    exact slotHolds_whole ha' hfit

theorem yields_makeBlob {data : Bytes} (hfit : Fits z (some data)) :
    Yields (makeBlob data z) (fun y => SlotHolds z (some y) (some data)) := by
  have hle : (Blob.stored data z).length ≤ maxBinarySize := hfit
  unfold makeBlob
  rw [if_neg (Nat.not_lt.mpr hle)]
  exact (Arr.yields_create _).bind fun a ha => Yields.pure (slotHolds_whole ha.2 hfit)

theorem yields_newSlot (hfit : Fits z v) : Yields (newSlot v z) (SlotHolds z · v) := by
  cases v with
  | none => exact Yields.pure (slotHolds_none z)
  | some data => exact (yields_createWith hfit).bind fun y hy => Yields.pure hy

theorem holds_create (z : Bool) : Yields create (Holds z · []) :=
  Yields.alloc.bind fun _ _ => Yields.pure ⟨rfl, fun _ h => by cases h⟩

theorem Holds.snoc (h : b.Holds z vs) {x : Option Blob} (hx : SlotHolds z x v) (r : Ref) :
    Holds z ⟨r, b.slots ++ [x]⟩ (vs ++ [v]) := by
  refine ⟨?_, fun y hy => ?_⟩
  · rw [List.map_append, List.map_append, h.values_eq, List.map_singleton, List.map_singleton,
      hx.value_eq]
  · rcases List.mem_append.mp hy with hy | hy
    · exact h.whole y hy
    · exact hx.whole y (List.mem_singleton.mp hy).symm

theorem Holds.add (h : b.Holds z vs) (hfit : Fits z v) : Yields (b.add v z) (Holds z · (vs ++ [v])) :=
  (yields_newSlot hfit).bind fun _ hx => (Yields.write b.ref).bind fun r _ => Yields.pure (h.snoc hx r)

/-- The values of a leaf that is converted are added one by one. -/
def addAll (b : BigBlobs) (z : Bool) : List Value → Prog BigBlobs
  | [] => pure b
  | v :: vs => do
    let b ← b.add v z
    b.addAll z vs

theorem Holds.addAll : ∀ (ws : List Value) {b : BigBlobs} {vs : List Value}, b.Holds z vs →
    (∀ w ∈ ws, Fits z w) → Yields (b.addAll z ws) (Holds z · (vs ++ ws))
  | [], b, vs, h, _ => Yields.pure (by rw [List.append_nil]; exact h)
  | w :: ws, b, vs, h, hfit => by
    refine (h.add (hfit w List.mem_cons_self)).bind fun b' hb' => ?_
    have hrec := Holds.addAll ws hb' fun u hu => hfit u (List.mem_cons_of_mem w hu)
    rw [List.append_assoc] at hrec
    exact hrec

theorem Holds.insert (h : b.Holds z vs) (hndx : ndx ≤ vs.length) (hfit : Fits z v) :
    Yields (b.insert ndx v z) (Holds z · (vs.insertIdx ndx v)) := by
  refine (yields_newSlot hfit).bind fun x hx => (Yields.write b.ref).bind fun r _ => Yields.pure ?_
  refine ⟨?_, fun y hy => ?_⟩
  · change (b.slots.insertIdx ndx x).map slotValue = _
    rw [List.map_insertIdx, List.map_insertIdx, h.values_eq, hx.value_eq]
  · have hndx' : ndx ≤ b.slots.length := by rw [h.length_eq]; exact hndx
    rcases (List.mem_insertIdx hndx').mp hy with hy | hy
    · exact hx.whole y hy.symm
    · exact h.whole y hy

theorem Holds.update (h : b.Holds z vs) {x : Option Blob} (hx : SlotHolds z x v) (r : Ref) (ndx : Nat) :
    Holds z ⟨r, b.slots.set ndx x⟩ (vs.set ndx v) := by
  refine ⟨?_, fun y hy => ?_⟩
  · change (b.slots.set ndx x).map slotValue = _
    rw [List.map_set, List.map_set, h.values_eq, hx.value_eq]
  · rcases List.mem_or_eq_of_mem_set hy with hy | hy
    · exact h.whole y hy
    · exact hx.whole y hy.symm

theorem Holds.setSlot (h : b.Holds z vs) {y : Blob} (hy : SlotHolds z (some y) v) (ndx : Nat) (old : Ref) :
    Yields (b.setSlot ndx old y) (Holds z · (vs.set ndx v)) :=
  (Blob.yields_updateChildRef _ _ _).bind fun r _ => Yields.pure (h.update hy r ndx)

theorem yields_replace_whole {a : Arr UInt8} {data data' : Bytes} (ha : a.elems = Blob.stored data' z)
    (hfit : Fits z (some data)) :
    Yields (Blob.replace a 0 a.elems.length data z) (fun y => SlotHolds z (some y) (some data)) := by
  have hle : a.elems.length - (a.elems.length - 0) + (Blob.stored data z).length ≤ maxBinarySize := by
    rw [Nat.sub_zero, Nat.sub_self, Nat.zero_add]
    exact hfit
  unfold Blob.replace
  rw [if_neg (Nat.not_lt.mpr hle)]
  refine (Blob.yields_storeWhole (Nat.zero_le _) fun hz hlen => ?_).bind fun a' ha' =>
    Yields.pure (slotHolds_whole ?_ hfit)
  · -- The block held a string of the same length.
    subst hz
    rw [ha, Blob.stored_true, List.length_append, List.length_singleton] at hlen
    have hdata : data'.length = 0 + data.length := by omega
    rw [ha, Blob.stored_true, ← hdata]
    simp
  · rw [ha', List.take_zero, List.nil_append, List.drop_length, List.append_nil]

theorem Holds.set (h : b.Holds z vs) (hv : vs[ndx]? = some w) (hfit : Fits z v) :
    Yields (b.set ndx v z) (Holds z · (vs.set ndx v)) := by
  obtain ⟨x, hx, hslot⟩ := h.slot hv
  unfold BigBlobs.set
  rw [hx, Option.join_some]
  cases x with
  | none =>
    cases v with
    | none =>
      have hw : w = none := by
        have hval := hslot.value_eq
        cases w with
        | none => rfl
        | some data => cases hval
      subst hw
      refine Yields.pure ?_
      rw [Arr.set_eq_self hv]
      exact h
    | some data => exact (yields_makeBlob hfit).bind fun y hy => h.setSlot hy ndx 0
  | some y =>
    obtain ⟨a, rfl, -⟩ := hslot.whole y rfl
    cases v with
    | none =>
      exact (Yields.freeAll _).bind fun _ _ => (Yields.write b.ref).bind fun r _ =>
        Yields.pure (h.update (slotHolds_none z) r ndx)
    | some data =>
      refine (Yields.isReadOnly a.ref).bind fun readOnly _ => ?_
      unfold setWhole
      cases readOnly with
      | true =>
        exact (yields_makeBlob hfit).bind fun y hy => (h.setSlot hy ndx a.ref).bind fun b' hb' =>
          (Yields.free a.ref).bind fun _ _ => Yields.pure hb'
      | false =>
        have hval := hslot.value_eq
        cases w with
        | none => cases hval
        | some data' =>
          have ha : a.elems = Blob.stored data' z := Option.some.inj hval
          exact (yields_replace_whole ha hfit).bind fun y hy => h.setSlot hy ndx a.ref

theorem Holds.erase (h : b.Holds z vs) (ndx : Nat) :
    Yields (b.erase ndx) (Holds z · (vs.eraseIdx ndx)) := by
  refine (Yields.freeAll _).bind fun _ _ => (Yields.copyOnWrite b.ref).bind fun r _ => Yields.pure ?_
  refine ⟨?_, fun y hy => h.whole y (List.mem_of_mem_eraseIdx hy)⟩
  change (b.slots.eraseIdx ndx).map slotValue = _
  rw [← List.eraseIdx_map, ← List.eraseIdx_map, h.values_eq]

theorem Holds.truncate (h : b.Holds z vs) (n : Nat) :
    Yields (b.truncate n) (Holds z · (vs.take n)) := by
  unfold BigBlobs.truncate
  split
  · rename_i hn
    refine Yields.pure ?_
    rw [hn, h.length_eq, List.take_length]
    exact h
  · refine (Yields.copyOnWrite b.ref).bind fun r _ => (Yields.freeAll _).bind fun _ _ => Yields.pure ?_
    refine ⟨?_, fun y hy => h.whole y (List.mem_of_mem_take hy)⟩
    change (b.slots.take n).map slotValue = _
    rw [List.map_take, List.map_take, h.values_eq]

theorem Holds.get_eq (h : b.Holds z vs) (hv : vs[ndx]? = some w) :
    b.get ndx = some (w.map (Blob.stored · z)) := by
  obtain ⟨x, hx, hslot⟩ := h.slot hv
  rw [BigBlobs.get, hx, Option.map_some, hslot.value_eq]

theorem Holds.readAll_eq (h : b.Holds z vs) (hv : vs[ndx]? = some w) :
    b.readAll ndx = some (w.map (Blob.stored · z)) := by
  obtain ⟨x, hx, hslot⟩ := h.slot hv
  have hval := hslot.value_eq
  unfold readAll
  rw [hx, Option.bind_some]
  cases x with
  | none => exact congrArg some hval
  | some y =>
    obtain ⟨a, rfl, hle⟩ := hslot.whole y rfl
    have hread := Blob.readFrom_pieces (b := .whole a) hle
    simp only [hread, Option.map_some]
    exact congrArg some hval

/-- **`find_first` stops at exactly the places of the value.** -/
theorem Holds.isMatch_eq (refBytes : List Ref → Bytes) (h : b.Holds z vs) (hv : vs[ndx]? = some w)
    (v : Value) : b.isMatch refBytes v z ndx = decide (w = v) := by
  obtain ⟨x, hx, hslot⟩ := h.slot hv
  have hval := hslot.value_eq
  unfold isMatch
  rw [hx, Option.join_some]
  cases x with
  | none =>
    cases w with
    | none => cases v <;> simp
    | some data => cases hval
  | some y =>
    obtain ⟨a, rfl, -⟩ := hslot.whole y rfl
    cases w with
    | none => cases hval
    | some data' =>
      have ha : a.elems = Blob.stored data' z := Option.some.inj hval
      cases v with
      | none => simp
      | some data =>
        by_cases he : data' = data
        · subst he
          cases z <;> simp [ha]
        · have hneg : ¬ (a.elems.length = (Blob.stored data z).length ∧ a.elems.take data.length = data) := by
            rintro ⟨hlen, htake⟩
            have hdata : data'.length = data.length := by
              cases z <;> simpa [ha] using hlen
            apply he
            rw [← htake, ha, ← hdata]
            cases z <;> simp
          simp only [Option.some.injEq, he, decide_false, Bool.and_eq_false_iff, beq_eq_false_iff_ne]
          by_cases hlen : a.elems.length = (Blob.stored data z).length
          · exact Or.inr fun htake => hneg ⟨hlen, htake⟩
          · exact Or.inl hlen

end BigBlobs

end Llbt.Leaf
