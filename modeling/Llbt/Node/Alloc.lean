import Llbt.Node.Header

/-!
# Growing a node

A node is its header, its payload as one little-endian number, and what its accessor knows of it.  `blocks` are the
contents of the blocks that the allocator will hand out, which are arbitrary.  `none` is a failed release assertion.

* `newCapacity`, `doCopyOnWrite`, `realloc`, `alloc` — how a node grows: by doubling, or to the needed size;
* `alloc_isSome`, `alloc_spec` — when `alloc` returns and what it leaves: payload, flags, a capacity that suffices;
* `Reached.sized` — the payload of every node reached from a new one fits its capacity;
* `growth_granted_iff` — of the requests below the limit of the allocator, those that are granted.  Doubling asks for up
  to `maxArrayPayloadAligned` bytes, which is more than the allocator hands out.
-/

set_option autoImplicit false

namespace Llbt

/-- A node, together with the number of elements that its accessor has cached. -/
structure Node where
  header : Nat
  data : Nat
  size : Nat
  readOnly : Bool
  blocks : Nat → Nat

namespace Node

open Fields

/-! ## Sizes in bytes -/

/-- `(n + 7) & ~7` -/
def alignUp8 (n : Nat) : Nat := (n + 7) / 8 * 8

/-- The bytes that the elements take. -/
def payloadBytes : (wtype : WidthType) → (size width : Nat) → Nat
  | .bits, size, width => (size * width + 7) >>> 3
  | .multiply, size, width => size * width
  | .ignore, size, _ => size
  | .unused, _, _ => 0

def calcByteSize (wtype : WidthType) (size width : Nat) : Nat := alignUp8 (payloadBytes wtype size width) + headerSize

/-- The virtual `calc_byte_len` of a class of nodes with a given way to read the width: room for the elements and the
header. -/
structure ByteLen (wtype : WidthType) where
  len : Nat → Nat → Nat
  covers : ∀ size width, payloadBytes wtype size width + headerSize ≤ len size width

/-- `Node::calc_byte_len` -/
def calcByteLen (numItems width : Nat) : Nat := (numItems * width + 7) / 8 + headerSize

theorem calcByteLen_covers (size width : Nat) :
    payloadBytes .bits size width + headerSize ≤ calcByteLen size width := by
  rw [payloadBytes, calcByteLen, Nat.shiftRight_eq_div_pow]

def bitsLen : ByteLen .bits := ⟨calcByteLen, calcByteLen_covers⟩

/-! ## The code -/

/-- The allocator hands out blocks below the size of a memory section. -/
def sectionShift : Nat := 26

def capacity (n : Node) : Nat := getCapacityFromHeader n.header

def width (n : Node) : Nat := getWidthFromHeader n.header

/-- The size of the node in bytes, as it is computed when it is copied. -/
def byteSize (n : Node) : Nat := calcByteSize (getWtypeFromHeader n.header) n.size n.width

/-- A new block of which the first `bytes` bytes are copied from the old one. -/
def moved (bytes : Nat) (header : Nat) (n : Node) : Node :=
  { n with
    header := header
    data := put (n.blocks 0) 0 (8 * (bytes - headerSize)) n.data
    readOnly := false
    blocks := fun k => n.blocks (k + 1) }

/-- The size of the copy that copy-on-write makes. -/
def copySize (n : Node) (minimumSize : Nat) : Nat := alignUp8 (max n.byteSize minimumSize) + 64

def doCopyOnWrite (minimumSize : Nat) (n : Node) : Option Node :=
  if n.copySize minimumSize < 1 <<< sectionShift then
    some (n.moved n.byteSize (setCapacityInHeader (n.copySize minimumSize) n.header))
  else none

def copyOnWrite (n : Node) : Option Node := if n.readOnly then n.doCopyOnWrite 0 else some n

/-- The capacity that `alloc` asks for when `neededBytes` exceed the old one. -/
def newCapacity (origCapacityBytes neededBytes : Nat) : Nat :=
  let doubled := origCapacityBytes * 2 % 2 ^ 64
  let clamped := if doubled < origCapacityBytes then maxArrayPayloadAligned else doubled
  let capped := if maxArrayPayloadAligned < clamped then maxArrayPayloadAligned else clamped
  if capped < neededBytes then
    -- `(~needed_bytes & 0x7) + 1`
    let rest := 7 - neededBytes % 8 + 1
    if rest < 8 then neededBytes + rest else neededBytes
  else capped

/-- `realloc_` of the whole block, and the new capacity entered in the header. -/
def realloc (newCapacityBytes : Nat) (n : Node) : Option Node :=
  if newCapacityBytes < 1 <<< sectionShift then
    some (n.moved n.capacity (setCapacityInHeader newCapacityBytes n.header))
  else none

/-- The part of `alloc` after copy-on-write. -/
def grow (neededBytes : Nat) (n : Node) : Option Node :=
  if n.capacity < neededBytes then n.realloc (newCapacity n.capacity neededBytes) else some n

/-- The header and the accessor get the new width and the new number of elements. -/
def relabel (initSize newWidth : Nat) (n : Node) : Node :=
  { n with
    header := setSizeInHeader initSize (if newWidth ≠ n.width then setWidthInHeader newWidth n.header else n.header)
    size := initSize }

def alloc (len : Nat → Nat → Nat) (initSize newWidth : Nat) (n : Node) : Option Node :=
  let neededBytes := len initSize newWidth
  if initSize ≤ maxArraySize then
    (if n.readOnly then n.doCopyOnWrite neededBytes else some n).bind fun n =>
      (n.grow neededBytes).map (relabel initSize newWidth)
  else none

/-- `create_node` -/
def createNode (size : Nat) (contextFlag isInnerBptreeNode hasRefs : Bool) (widthType : WidthType) (width : Nat)
    (blocks : Nat → Nat) : Option Node :=
  let byteSize := max (calcByteSize widthType size width) 128
  if byteSize < 1 <<< sectionShift then
    some {
      header := initHeader isInnerBptreeNode hasRefs contextFlag widthType width size byteSize
      data := blocks 0
      size := size
      readOnly := false
      blocks := fun k => blocks (k + 1) }
  else none

/-! ## The request -/

/-- What is asked of the allocator when `needed` bytes are needed. -/
def requested (n : Node) (needed : Nat) : Option Nat :=
  if n.readOnly then some (n.copySize needed)
  else if n.capacity < needed then some (newCapacity n.capacity needed)
  else none

theorem alignUp8_mod (n : Nat) : alignUp8 n % 8 = 0 := by rw [alignUp8]; omega

theorem le_alignUp8 (n : Nat) : n ≤ alignUp8 n := by rw [alignUp8]; omega

theorem alignUp8_le {n k : Nat} (h : n ≤ k) (h8 : k % 8 = 0) : alignUp8 n ≤ k := by rw [alignUp8]; omega

theorem headerSize_le_byteSize (n : Node) : headerSize ≤ n.byteSize := Nat.le_add_left _ _

theorem newCapacity_eq {orig needed : Nat} (horig : orig ≤ 0xffffff <<< 3) :
    newCapacity orig needed =
      if min (2 * orig) maxArrayPayloadAligned < needed then alignUp8 needed
        else min (2 * orig) maxArrayPayloadAligned := by
  have hmax : 0xffffff <<< 3 = 134217720 := by decide
  rw [hmax] at horig
  have hdouble : orig * 2 % 2 ^ 64 = 2 * orig := by omega
  have hcap : (if maxArrayPayloadAligned < 2 * orig then maxArrayPayloadAligned else 2 * orig) =
      min (2 * orig) maxArrayPayloadAligned := by
    split
    · exact (Nat.min_eq_right (by omega)).symm
    · exact (Nat.min_eq_left (by omega)).symm
  have hround : (if 7 - needed % 8 + 1 < 8 then needed + (7 - needed % 8 + 1) else needed) = alignUp8 needed := by
    rw [alignUp8]
    split <;> omega
  rw [newCapacity, hdouble, if_neg (by omega : ¬ 2 * orig < orig), hcap, hround]

theorem le_newCapacity {orig needed : Nat} (horig : orig ≤ 0xffffff <<< 3) : needed ≤ newCapacity orig needed := by
  rw [newCapacity_eq horig]
  split
  · exact le_alignUp8 needed
  · omega

theorem newCapacity_mod {orig needed : Nat} (horig : orig ≤ 0xffffff <<< 3) (h8 : orig % 8 = 0) :
    newCapacity orig needed % 8 = 0 := by
  rw [newCapacity_eq horig]
  split
  · exact alignUp8_mod needed
  · rw [maxArrayPayloadAligned]
    omega

theorem newCapacity_lt_iff {orig needed : Nat} (horig : orig ≤ 0xffffff <<< 3) (h8 : orig % 8 = 0) (hlt : orig < needed)
    (hneeded : needed < 1 <<< sectionShift) :
    newCapacity orig needed < 1 <<< sectionShift ↔ 2 * orig < 1 <<< sectionShift ∧
      alignUp8 needed < 1 <<< sectionShift := by
  have hlimit : 1 <<< sectionShift = 67108864 := by decide
  rw [hlimit] at hneeded ⊢
  rw [newCapacity_eq horig, alignUp8, maxArrayPayloadAligned]
  split <;> omega

theorem limit_le_field : 1 <<< sectionShift ≤ 0xffffff <<< 3 := by decide

theorem copySize_mod (n : Node) (minimum : Nat) : n.copySize minimum % 8 = 0 := by
  have := alignUp8_mod (max n.byteSize minimum)
  rw [copySize]
  omega

theorem le_copySize (n : Node) (minimum : Nat) : minimum ≤ n.copySize minimum := by
  have := le_alignUp8 (max n.byteSize minimum)
  rw [copySize]
  omega

theorem byteSize_le_copySize (n : Node) (minimum : Nat) : n.byteSize ≤ n.copySize minimum := by
  have := le_alignUp8 (max n.byteSize minimum)
  rw [copySize]
  omega

theorem requested_covers {n : Node} {needed r : Nat} (h : n.requested needed = some r) : needed ≤ r ∧ r % 8 = 0 := by
  rw [requested] at h
  split at h
  · obtain rfl := Option.some.inj h
    exact ⟨n.le_copySize needed, n.copySize_mod needed⟩
  · split at h
    · obtain rfl := Option.some.inj h
      exact ⟨le_newCapacity (getCapacity_le n.header), newCapacity_mod (getCapacity_le n.header)
        (getCapacity_mod_eight n.header)⟩
    · cases h

/-! ## What copying and growing leave -/

/-- The first `bytes` bytes are the same. -/
def SameBytes (bytes data data' : Nat) : Prop := field data' 0 (8 * bytes) = field data 0 (8 * bytes)

theorem SameBytes.field_eq {bytes data data' p k : Nat} (h : SameBytes bytes data data') (hk : p + k ≤ 8 * bytes) :
    field data' p k = field data p k := by
  have := congrArg (field · p k) h
  simp only [field_field _ _ hk, Nat.zero_add] at this
  exact this

theorem SameBytes.refl (bytes data : Nat) : SameBytes bytes data data := rfl

theorem SameBytes.mono {bytes bytes' data data' : Nat} (h : SameBytes bytes data data') (hle : bytes' ≤ bytes) :
    SameBytes bytes' data data' := h.field_eq (by omega)

theorem sameBytes_moved (bytes header : Nat) (n : Node) :
    SameBytes (bytes - headerSize) n.data (n.moved bytes header).data := by
  rw [SameBytes, moved, field_put_self, field, Nat.shiftRight_zero]

/-- `n'` is a copy of `n` that has kept everything but its place and its capacity. -/
structure Copied (n n' : Node) : Prop where
  payload : SameBytes (n.byteSize - headerSize) n.data n'.data
  flags_eq : flags n'.header = flags n.header
  width_eq : n'.width = n.width
  size_eq : n'.size = n.size
  headerSize_eq : getSizeFromHeader n'.header = getSizeFromHeader n.header

theorem Copied.refl (n : Node) : Copied n n := ⟨SameBytes.refl _ _, rfl, rfl, rfl, rfl⟩

theorem Copied.byteSize_eq {n n' : Node} (h : Copied n n') : n'.byteSize = n.byteSize := by
  rw [byteSize, getWtype_of_flags h.flags_eq, h.size_eq, h.width_eq, byteSize]

theorem copied_moved {n : Node} {bytes : Nat} (capacity : Nat) (h : n.byteSize ≤ bytes) :
    Copied n (n.moved bytes (setCapacityInHeader capacity n.header)) where
  payload := (sameBytes_moved bytes _ n).mono (Nat.sub_le_sub_right h _)
  flags_eq := flags_setCapacity _ _
  width_eq := getWidth_setCapacity _ _
  size_eq := rfl
  headerSize_eq := getSize_setCapacity _ _

theorem capacity_moved {n : Node} {bytes capacity : Nat} (hlt : capacity < 1 <<< sectionShift) (h8 : capacity % 8 = 0) :
    (n.moved bytes (setCapacityInHeader capacity n.header)).capacity = capacity :=
  getCapacity_setCapacity _ (Nat.le_trans (Nat.le_of_lt hlt) limit_le_field) h8

/-- The payload of a node that may be written fits its capacity. -/
def Fits (n : Node) : Prop := n.readOnly = false → n.byteSize ≤ n.capacity

theorem doCopyOnWrite_spec {n n' : Node} {minimum : Nat} (h : n.doCopyOnWrite minimum = some n') :
    Copied n n' ∧ n'.readOnly = false ∧ n'.capacity = n.copySize minimum := by
  rw [doCopyOnWrite] at h
  split at h
  · rename_i hlt
    obtain rfl := Option.some.inj h
    exact ⟨copied_moved _ (Nat.le_refl _), rfl, capacity_moved hlt (n.copySize_mod minimum)⟩
  · cases h

theorem copyOnWrite_spec {n n' : Node} (hfits : n.Fits) (h : n.copyOnWrite = some n') :
    Copied n n' ∧ n'.readOnly = false ∧ n'.Fits := by
  rw [copyOnWrite] at h
  split at h
  · obtain ⟨hcopied, hwritable, hcap⟩ := doCopyOnWrite_spec h
    refine ⟨hcopied, hwritable, fun _ => ?_⟩
    rw [hcopied.byteSize_eq, hcap]
    exact n.byteSize_le_copySize 0
  · rename_i hwritable
    obtain rfl := Option.some.inj h
    exact ⟨Copied.refl n, Bool.eq_false_iff.mpr hwritable, hfits⟩

theorem grow_spec {n n' : Node} {needed : Nat} (hwritable : n.readOnly = false) (hfits : n.Fits)
    (h : n.grow needed = some n') :
    Copied n n' ∧ n'.readOnly = false ∧
      n'.capacity = if n.capacity < needed then newCapacity n.capacity needed else n.capacity := by
  rw [grow] at h
  split at h
  · rename_i hlt
    rw [realloc] at h
    split at h
    · rename_i hlimit
      obtain rfl := Option.some.inj h
      refine ⟨copied_moved _ (hfits hwritable), rfl, ?_⟩
      rw [if_pos hlt]
      exact capacity_moved hlimit (newCapacity_mod (getCapacity_le _) (getCapacity_mod_eight _))
    · cases h
  · rename_i hlt
    obtain rfl := Option.some.inj h
    exact ⟨Copied.refl n, hwritable, (if_neg hlt).symm⟩

/-! ## What `alloc` does -/

/-- `n'` is `n` with room for `initSize` elements of `newWidth`. -/
structure Grown (n n' : Node) (needed initSize newWidth : Nat) : Prop where
  payload : SameBytes (n.byteSize - headerSize) n.data n'.data
  flags_eq : flags n'.header = flags n.header
  width_eq : n'.width = newWidth
  size_eq : n'.size = initSize
  headerSize_eq : getSizeFromHeader n'.header = initSize
  writable : n'.readOnly = false
  capacity_eq : n'.capacity = (n.requested needed).getD n.capacity
  covers : needed ≤ n'.capacity

theorem flags_relabel {n : Node} {initSize newWidth : Nat} (hw : IsWidth newWidth) :
    flags (n.relabel initSize newWidth).header = flags n.header := by
  rw [relabel, flags_setSize]
  split
  · exact flags_setWidth _ hw
  · rfl

theorem width_relabel {n : Node} {initSize newWidth : Nat} (hw : IsWidth newWidth) :
    (n.relabel initSize newWidth).width = newWidth := by
  rw [width, relabel, getWidth_setSize]
  split
  · exact getWidth_setWidth _ hw
  · rename_i heq
    exact (not_not.mp heq).symm

theorem capacity_relabel (n : Node) (initSize newWidth : Nat) :
    (n.relabel initSize newWidth).capacity = n.capacity := by
  rw [capacity, relabel, getCapacity_setSize]
  split
  · exact getCapacity_setWidth _ _
  · rfl

theorem grow_of_covered {n : Node} {needed : Nat} (h : needed ≤ n.capacity) : n.grow needed = some n := by
  rw [grow, if_neg (by omega)]

theorem alloc_isSome {len : Nat → Nat → Nat} {initSize newWidth : Nat} {n : Node} (hsize : initSize ≤ maxArraySize) :
    (n.alloc len initSize newWidth).isSome ↔ ∀ r, n.requested (len initSize newWidth) = some r →
      r < 1 <<< sectionShift := by
  rw [alloc, if_pos hsize, requested]
  cases hro : n.readOnly with
  | true =>
    simp only [if_true, Option.some.injEq, forall_eq']
    cases hcow : n.doCopyOnWrite (len initSize newWidth) with
    | none =>
      rw [doCopyOnWrite] at hcow
      split at hcow
      · cases hcow
      · rename_i hlt
        simpa using hlt
    | some n' =>
      have hcovers : len initSize newWidth ≤ n'.capacity := by
        rw [(doCopyOnWrite_spec hcow).2.2]
        exact n.le_copySize _
      rw [Option.bind_some, grow_of_covered hcovers]
      rw [doCopyOnWrite] at hcow
      split at hcow
      · rename_i hlt
        simpa using hlt
      · cases hcow
  | false =>
    simp only [Bool.false_eq_true, if_false, Option.bind_some, Option.isSome_map]
    rw [grow]
    split
    · rw [realloc]
      split
      · rename_i hlt
        simpa using hlt
      · rename_i hlt
        simpa using hlt
    · simp

theorem alloc_spec {len : Nat → Nat → Nat} {initSize newWidth : Nat} {n n' : Node} (hw : IsWidth newWidth)
    (hfits : n.Fits)
    (h : n.alloc len initSize newWidth = some n') : Grown n n' (len initSize newWidth) initSize newWidth := by
  rw [alloc] at h
  split at h
  swap
  · cases h
  rename_i hsize
  -- the node after copy-on-write, which is the node itself where it may be written
  obtain ⟨m, hm, hrest⟩ := Option.bind_eq_some_iff.mp h
  obtain ⟨g, hg, rfl⟩ := Option.map_eq_some_iff.mp hrest
  have hfinish : ∀ {c : Nat}, Copied n g → g.readOnly = false → g.capacity = c →
    (n.requested (len initSize newWidth)).getD n.capacity = c →
      len initSize newWidth ≤ c → Grown n (g.relabel initSize newWidth) (len initSize newWidth) initSize newWidth := by
    intro c hcopied hwritable hcap hreq hcovers
    refine ⟨hcopied.payload, (flags_relabel hw).trans hcopied.flags_eq, width_relabel hw, rfl, getSize_setSize _ hsize,
      hwritable, ?_, ?_⟩
    · rw [capacity_relabel, hcap, hreq]
    · rw [capacity_relabel, hcap]
      exact hcovers
  cases hro : n.readOnly with
  | true =>
    rw [hro, if_pos rfl] at hm
    obtain ⟨hcopied, hwritable, hcap⟩ := doCopyOnWrite_spec hm
    have hcovers : len initSize newWidth ≤ m.capacity := hcap ▸ n.le_copySize _
    obtain rfl : m = g := Option.some.inj ((grow_of_covered hcovers).symm.trans hg)
    refine hfinish hcopied hwritable hcap ?_ (n.le_copySize _)
    rw [requested, hro, if_pos rfl, Option.getD_some]
  | false =>
    rw [hro, if_neg Bool.false_ne_true] at hm
    obtain rfl : n = m := Option.some.inj hm
    obtain ⟨hcopied, hwritable, hcap⟩ := grow_spec hro hfits hg
    refine hfinish hcopied hwritable hcap ?_ ?_
    · rw [requested, hro, if_neg Bool.false_ne_true]
      split <;> rfl
    · split
      · exact le_newCapacity (getCapacity_le _)
      · omega

/-! ## The nodes that are reached -/

/-- The accessor agrees with the header, and the payload fits. -/
structure Sized (wtype : WidthType) (n : Node) : Prop where
  wtype_eq : getWtypeFromHeader n.header = wtype
  size_eq : getSizeFromHeader n.header = n.size
  fits : n.Fits

/-- The nodes of a class: created, grown, cut down, written, and committed, which makes them read-only and replaces the
capacity by a checksum. -/
inductive Reached {wtype : WidthType} (L : ByteLen wtype) : Node → Prop where
  | create {size width : Nat} {contextFlag isInner hasRefs : Bool} {blocks : Nat → Nat} {n : Node}
      (hwidth : IsWidth width)
      (hsize : size ≤ maxArraySize) (h : createNode size contextFlag isInner hasRefs wtype width blocks = some n) :
      Reached L n
  | alloc {n n' : Node} {initSize newWidth : Nat} (hwidth : IsWidth newWidth) (hn : Reached L n)
      (h : n.alloc L.len initSize newWidth = some n') : Reached L n'
  | cut {n n' : Node} {size width : Nat} (hwidth : IsWidth width) (hn : Reached L n) (h : n.copyOnWrite = some n')
      (hsize : size ≤ n.size)
      (hbytes : payloadBytes wtype size width ≤ payloadBytes wtype n.size n.width) : Reached L (n'.relabel size width)
  | write {n n' : Node} (data : Nat) (hn : Reached L n) (h : n.copyOnWrite = some n') :
    Reached L { n' with data := data }
  | commit {n : Node} {header data : Nat} (hn : Reached L n) (hkept : ∀ i, 4 ≤ i → byte header i = byte n.header i)
      (hdata : SameBytes (n.byteSize - headerSize) n.data data) :
      Reached L { n with header := header, data := data, readOnly := true }

theorem calcByteSize_le {wtype : WidthType} {size width needed capacity : Nat}
    (hlen : payloadBytes wtype size width + headerSize ≤ needed)
    (hcap : needed ≤ capacity) (h8 : capacity % 8 = 0) : calcByteSize wtype size width ≤ capacity := by
  have hle : payloadBytes wtype size width ≤ capacity - 8 := by
    rw [headerSize] at hlen
    omega
  have := alignUp8_le hle (by omega)
  rw [calcByteSize, headerSize]
  rw [headerSize] at hlen
  omega

theorem Fits.relabel {wtype : WidthType} {n : Node} {size width : Nat} (hwidth : IsWidth width)
    (hwtype : getWtypeFromHeader n.header = wtype) (h : calcByteSize wtype size width ≤ n.capacity) :
    (n.relabel size width).Fits := by
  intro _
  rw [byteSize, getWtype_of_flags (flags_relabel hwidth), hwtype, width_relabel hwidth, capacity_relabel]
  exact h

theorem sized_createNode {wtype : WidthType} {size width : Nat} {contextFlag isInner hasRefs : Bool}
    {blocks : Nat → Nat} {n : Node}
    (hwidth : IsWidth width) (hsize : size ≤ maxArraySize)
    (h : createNode size contextFlag isInner hasRefs wtype width blocks = some n) :
    n.Sized wtype ∧ n.width = width ∧ n.size = size ∧ n.capacity = max (calcByteSize wtype size width) 128 := by
  rw [createNode] at h
  split at h
  · rename_i hlimit
    obtain rfl := Option.some.inj h
    have h8 : max (calcByteSize wtype size width) 128 % 8 = 0 := by
      have := alignUp8_mod (payloadBytes wtype size width)
      rw [calcByteSize, headerSize]
      omega
    have hcap := getCapacity_initHeader isInner hasRefs contextFlag wtype width size
      (Nat.le_trans (Nat.le_of_lt hlimit) limit_le_field) h8
    have hw := getWidth_initHeader isInner hasRefs contextFlag wtype size
      (max (calcByteSize wtype size width) 128) hwidth
    have ht := getWtype_initHeader isInner hasRefs contextFlag wtype size
      (max (calcByteSize wtype size width) 128) hwidth
    refine ⟨⟨ht, getSize_initHeader isInner hasRefs contextFlag wtype _ _ hsize, fun _ => ?_⟩, hw, rfl, hcap⟩
    rw [byteSize, ht, Node.width, hw, capacity, hcap]
    exact Nat.le_max_left _ _
  · cases h

theorem Sized.alloc {wtype : WidthType} (L : ByteLen wtype) {n n' : Node} {initSize newWidth : Nat}
    (hwidth : IsWidth newWidth)
    (hn : n.Sized wtype) (h : n.alloc L.len initSize newWidth = some n') : n'.Sized wtype := by
  have hg := alloc_spec hwidth hn.fits h
  have hwtype := (getWtype_of_flags hg.flags_eq).trans hn.wtype_eq
  refine ⟨hwtype, hg.headerSize_eq.trans hg.size_eq.symm, fun _ => ?_⟩
  rw [byteSize, hwtype, hg.size_eq, hg.width_eq]
  exact calcByteSize_le (L.covers initSize newWidth) hg.covers (getCapacity_mod_eight _)

theorem Sized.copyOnWrite {wtype : WidthType} {n n' : Node} (hn : n.Sized wtype) (h : n.copyOnWrite = some n') :
    n'.Sized wtype := by
  obtain ⟨hcopied, -, hfits⟩ := copyOnWrite_spec hn.fits h
  exact ⟨(getWtype_of_flags hcopied.flags_eq).trans hn.wtype_eq,
    hcopied.headerSize_eq.trans (hn.size_eq.trans hcopied.size_eq.symm), hfits⟩

theorem Sized.relabel {wtype : WidthType} {n : Node} {size width : Nat} (hn : n.Sized wtype)
    (hwritable : n.readOnly = false)
    (hwidth : IsWidth width) (hsize : size ≤ n.size)
    (hbytes : payloadBytes wtype size width ≤ payloadBytes wtype n.size n.width) :
    (n.relabel size width).Sized wtype := by
  have hmax : size ≤ maxArraySize := Nat.le_trans hsize (hn.size_eq ▸ getSize_le n.header)
  refine ⟨(getWtype_of_flags (flags_relabel hwidth)).trans hn.wtype_eq, getSize_setSize _ hmax, ?_⟩
  refine Fits.relabel hwidth hn.wtype_eq (Nat.le_trans ?_ (hn.fits hwritable))
  rw [byteSize, hn.wtype_eq, calcByteSize, calcByteSize]
  exact Nat.add_le_add_right (alignUp8_le (Nat.le_trans hbytes (le_alignUp8 _)) (alignUp8_mod _)) _

theorem Reached.sized {wtype : WidthType} {L : ByteLen wtype} {n : Node} (hn : Reached L n) : n.Sized wtype := by
  induction hn with
  | create hwidth hsize h => exact (sized_createNode hwidth hsize h).1
  | alloc hwidth _ h ih => exact ih.alloc L hwidth h
  | cut hwidth _ h hsize hbytes ih =>
    obtain ⟨hcopied, hwritable, -⟩ := copyOnWrite_spec ih.fits h
    refine (ih.copyOnWrite h).relabel hwritable hwidth ?_ ?_
    · rw [hcopied.size_eq]
      exact hsize
    · rw [hcopied.size_eq, hcopied.width_eq]
      exact hbytes
  | write data _ h ih =>
    have := ih.copyOnWrite h
    exact ⟨this.wtype_eq, this.size_eq, this.fits⟩
  | commit _ hkept _ ih =>
    refine ⟨?_, ?_, fun h => by cases h⟩
    · rw [getWtypeFromHeader, hkept 4 (by decide), ← getWtypeFromHeader]
      exact ih.wtype_eq
    · simp only [getSizeFromHeader, hkept 5 (by decide), hkept 6 (by decide), hkept 7 (by decide)]
      exact ih.size_eq

/-! ## Which growth is granted -/

/-- What growing a node to `initSize` elements of `newWidth` should do: what is asked of the allocator covers the need,
is a multiple of eight, fits the header field and stays below the allocator's limit; so the call returns, with the
payload and the flags unchanged. -/
def GrowthOk (len : Nat → Nat → Nat) (n : Node) (initSize newWidth : Nat) : Prop :=
  (∀ r, n.requested (len initSize newWidth) = some r →
    len initSize newWidth ≤ r ∧ r % 8 = 0 ∧ r ≤ 0xffffff <<< 3 ∧ r < 1 <<< sectionShift) ∧
  ∃ n', n.alloc len initSize newWidth = some n' ∧ len initSize newWidth ≤ n'.capacity ∧ n'.capacity % 8 = 0 ∧
    SameBytes (n.byteSize - headerSize) n.data n'.data ∧ flags n'.header = flags n.header

/-- The capacity suffices, or both twice the capacity and the needed size rounded up are below the limit; a read-only
node needs room for its copy. -/
def Growable (n : Node) (needed : Nat) : Prop :=
  if n.readOnly then alignUp8 (max n.byteSize needed) + 64 < 1 <<< sectionShift
  else needed ≤ n.capacity ∨ (2 * n.capacity < 1 <<< sectionShift ∧ alignUp8 needed < 1 <<< sectionShift)

theorem requested_lt_iff {n : Node} {needed : Nat} (hneeded : needed < 1 <<< sectionShift) :
    (∀ r, n.requested needed = some r → r < 1 <<< sectionShift) ↔ n.Growable needed := by
  rw [requested, Growable]
  cases n.readOnly with
  | true => simp only [if_true, Option.some.injEq, forall_eq', copySize]
  | false =>
    simp only [Bool.false_eq_true, if_false]
    split
    · rename_i hlt
      have := newCapacity_lt_iff (getCapacity_le n.header) (getCapacity_mod_eight n.header) hlt hneeded
      simp only [Option.some.injEq, forall_eq']
      rw [capacity] at hlt ⊢
      rw [this]
      exact ⟨Or.inr, fun h => h.resolve_left (by omega)⟩
    · simp only [reduceCtorEq, false_implies, implies_true, true_iff]
      left
      omega

/-- **Growth below the limit.**  A request whose needed size is below the limit of the allocator does what it should
exactly where the capacity that doubling asks for is below the limit as well. -/
theorem growth_granted_iff {wtype : WidthType} (L : ByteLen wtype) {n : Node} {initSize newWidth : Nat}
    (hn : Reached L n)
    (hwidth : IsWidth newWidth) (hsize : initSize ≤ maxArraySize)
    (hneeded : L.len initSize newWidth < 1 <<< sectionShift) :
    GrowthOk L.len n initSize newWidth ↔ n.Growable (L.len initSize newWidth) := by
  rw [← requested_lt_iff hneeded]
  constructor
  · intro h r hr
    exact (h.1 r hr).2.2.2
  · intro h
    obtain ⟨n', hn'⟩ := Option.isSome_iff_exists.mp ((alloc_isSome hsize).mpr h)
    have hg := alloc_spec hwidth hn.sized.fits hn'
    refine ⟨fun r hr => ?_, n', hn', hg.covers, getCapacity_mod_eight _, hg.payload, hg.flags_eq⟩
    obtain ⟨hcovers, hmod⟩ := requested_covers hr
    exact ⟨hcovers, hmod, Nat.le_trans (Nat.le_of_lt (h r hr)) limit_le_field, h r hr⟩

theorem createNode_empty {width : Nat} (hwidth : IsWidth width) (blocks : Nat → Nat) :
    ∃ n, createNode 0 false false false .bits width blocks = some n ∧ n.readOnly = false ∧ n.Sized .bits ∧
      n.width = width ∧ n.size = 0 ∧
      n.capacity = 128 := by
  have hbytes : max (calcByteSize .bits 0 width) 128 = 128 := by
    rw [calcByteSize, payloadBytes, Nat.zero_mul, headerSize, alignUp8]; rfl
  have hcreate : ∃ n, createNode 0 false false false .bits width blocks = some n ∧ n.readOnly = false := by
    rw [createNode, hbytes, if_pos (by decide)]
    exact ⟨_, rfl, rfl⟩
  obtain ⟨n, hn, hwritable⟩ := hcreate
  obtain ⟨hsized, hw, hsize, hcap⟩ := sized_createNode hwidth (Nat.zero_le _) hn
  exact ⟨n, hn, hwritable, hsized, hw, hsize, hcap.trans hbytes⟩

theorem exists_created : ∃ n, Reached bitsLen n ∧ n.readOnly = false ∧ n.capacity = 128 := by
  obtain ⟨n, hn, hwritable, -, -, -, hcap⟩ := createNode_empty (by decide : IsWidth 0) fun _ => 0
  exact ⟨n, .create (by decide) (by decide) hn, hwritable, hcap⟩

theorem growth_granted_created : ∃ n, Reached bitsLen n ∧ GrowthOk bitsLen.len n 100 64 := by
  obtain ⟨n, hn, hwritable, hcap⟩ := exists_created
  refine ⟨n, hn, (growth_granted_iff bitsLen hn (by decide) (by decide) (by decide)).mpr ?_⟩
  rw [Growable, hwritable, hcap, if_neg Bool.false_ne_true]
  decide

theorem exists_doubled : ∀ k, k ≤ 18 → ∃ n, Reached bitsLen n ∧ n.readOnly = false ∧ n.capacity = 128 * 2 ^ k
  | 0, _ => by simpa using exists_created
  | k + 1, hk => by
    obtain ⟨n, hn, hwritable, hcap⟩ := exists_doubled k (by omega)
    have hpow : 2 ^ k ≤ 2 ^ 17 := Nat.pow_le_pow_right (by decide) (by omega)
    have hneeded : bitsLen.len (16 * 2 ^ k) 64 = 128 * 2 ^ k + 8 := by
      change (16 * 2 ^ k * 64 + 7) / 8 + 8 = _
      omega
    have hnew : newCapacity (128 * 2 ^ k) (128 * 2 ^ k + 8) = 128 * 2 ^ (k + 1) := by
      rw [newCapacity_eq (by rw [Nat.shiftLeft_eq]; omega), maxArrayPayloadAligned, Nat.pow_succ]
      have hpos : 1 ≤ 2 ^ k := Nat.one_le_two_pow
      rw [if_neg (by omega), Nat.min_eq_left (by omega)]
      omega
    have hreq : n.requested (bitsLen.len (16 * 2 ^ k) 64) = some (128 * 2 ^ (k + 1)) := by
      rw [requested, hwritable, if_neg Bool.false_ne_true, hneeded, hcap, if_pos (by omega), hnew]
    have hsome : (n.alloc bitsLen.len (16 * 2 ^ k) 64).isSome := by
      refine (alloc_isSome (by rw [maxArraySize]; omega)).mpr fun r hr => ?_
      obtain rfl := Option.some.inj (hreq.symm.trans hr)
      rw [Nat.pow_succ, sectionShift]
      omega
    obtain ⟨n', hn'⟩ := Option.isSome_iff_exists.mp hsome
    have hg := alloc_spec (by decide) hn.sized.fits hn'
    refine ⟨n', .alloc (by decide) hn hn', hg.writable, ?_⟩
    rw [hg.capacity_eq, hreq, Option.getD_some]

/-- A node of 32 MiB cannot grow by eight bytes: doubling asks for 64 MiB, which the allocator refuses. -/
theorem doubling_is_refused :
    ∃ n, Reached bitsLen n ∧ bitsLen.len 4194304 64 < 1 <<< sectionShift ∧ 4194304 ≤ maxArraySize ∧
      n.requested (bitsLen.len 4194304 64) = some (1 <<< sectionShift) ∧ n.alloc bitsLen.len 4194304 64 = none ∧
      ¬ GrowthOk bitsLen.len n 4194304 64 := by
  obtain ⟨n, hn, hwritable, hcap⟩ := exists_doubled 18 (by decide)
  have hreq : n.requested (bitsLen.len 4194304 64) = some (1 <<< sectionShift) := by
    rw [requested, hwritable, hcap, if_neg Bool.false_ne_true]
    decide
  have hnone : n.alloc bitsLen.len 4194304 64 = none := by
    rw [← Option.not_isSome_iff_eq_none, alloc_isSome (by decide)]
    intro h
    exact Nat.lt_irrefl _ (h _ hreq)
  refine ⟨n, hn, by decide, by decide, hreq, hnone, ?_⟩
  rintro ⟨-, n', hn', -⟩
  rw [hnone] at hn'
  cases hn'

end Node

end Llbt
