import Llbt.Node.Alloc

/-!
# Nodes of packed elements

What the classes of arrays whose width counts bits need to know of a node:

* `Room W n` — `n` elements of `W` bits take at most 32 MiB; with room, `alloc` and copy-on-write return
  (`Sized.exists_alloc`, `Sized.exists_copyOnWrite`), with every field of the old elements kept;
* `Doubled.alloc` — a node that grows element by element has a capacity that is a power of two, so that it cannot grow
  past 32 MiB.
-/

set_option autoImplicit false

namespace Llbt.Node

open Fields

variable {n n' : Node} {W s w : Nat}

/-! ## Parts that an accessor sets -/

/-- `m_size` and the header get a new number of elements. -/
def setSize (size : Nat) (n : Node) : Node := { n with header := setSizeInHeader size n.header, size := size }

def setWidth (width : Nat) (n : Node) : Node := { n with header := setWidthInHeader width n.header }

def setData (data : Nat) (n : Node) : Node := { n with data := data }

theorem Sized.setData (d : Nat) (h : n.Sized .bits) : (n.setData d).Sized .bits := ⟨h.wtype_eq, h.size_eq, h.fits⟩

theorem calcByteSize_mono {size size' : Nat} (h : size ≤ size') (width : Nat) :
    calcByteSize .bits size width ≤ calcByteSize .bits size' width := by
  have := Nat.mul_le_mul_right width h
  rw [calcByteSize, calcByteSize, payloadBytes, payloadBytes, Nat.shiftRight_eq_div_pow, Nat.shiftRight_eq_div_pow,
    alignUp8, alignUp8]
  omega

theorem Sized.setSize {size : Nat} (hn : n.Sized .bits) (hsize : size ≤ n.size) : (n.setSize size).Sized .bits := by
  have hmax : size ≤ maxArraySize := Nat.le_trans hsize (hn.size_eq ▸ getSize_le n.header)
  have hflags : flags (n.setSize size).header = flags n.header := flags_setSize _ _
  have hwidth : (n.setSize size).width = n.width := getWidth_setSize _ _
  refine ⟨(getWtype_of_flags hflags).trans hn.wtype_eq, getSize_setSize _ hmax, fun hwritable => ?_⟩
  calc (n.setSize size).byteSize = calcByteSize .bits size n.width := by
        rw [byteSize, (getWtype_of_flags hflags).trans hn.wtype_eq, hwidth]
        rfl
    _ ≤ calcByteSize .bits n.size n.width := calcByteSize_mono hsize _
    _ = n.byteSize := by rw [byteSize, hn.wtype_eq]
    _ ≤ n.capacity := hn.fits hwritable
    _ = (n.setSize size).capacity := (getCapacity_setSize _ _).symm

theorem Sized.setWidth (hn : n.Sized .bits) (hw : IsWidth w) (hsize : n.size = 0) : (n.setWidth w).Sized .bits := by
  have hflags : flags (n.setWidth w).header = flags n.header := flags_setWidth _ hw
  have hwtype := (getWtype_of_flags hflags).trans hn.wtype_eq
  refine ⟨hwtype, (getSize_setWidth _ _).trans hn.size_eq, fun hwritable => ?_⟩
  have hbytes : (n.setWidth w).byteSize = headerSize := by
    have hnone : (n.setWidth w).size = 0 := hsize
    rw [byteSize, hwtype, hnone, calcByteSize, payloadBytes, Nat.zero_mul]
    rfl
  calc (n.setWidth w).byteSize = headerSize := hbytes
    _ ≤ n.byteSize := n.headerSize_le_byteSize
    _ ≤ n.capacity := hn.fits hwritable
    _ = (n.setWidth w).capacity := (getCapacity_setWidth _ _).symm

/-! ## Room -/

/-- `n` elements of width `W` take at most 32 MiB, and their number fits the header. -/
def Room (W n : Nat) : Prop := n ≤ maxArraySize ∧ n * W ≤ 8 * (2 ^ 25 - headerSize)

theorem Room.mono {n k : Nat} (h : Room W n) (hk : k ≤ n) : Room W k :=
  ⟨Nat.le_trans hk h.1, Nat.le_trans (Nat.mul_le_mul_right W hk) h.2⟩

theorem room_words (h : s ≤ 4194303) : Room 64 s := by
  refine ⟨?_, ?_⟩
  · rw [maxArraySize]
    omega
  · rw [headerSize]
    omega

theorem Room.calcByteLen_le {n : Nat} (h : Room W n) (hw : w ≤ W) : calcByteLen n w ≤ 2 ^ 25 := by
  have hbits : n * w ≤ 8 * (2 ^ 25 - headerSize) := Nat.le_trans (Nat.mul_le_mul_left n hw) h.2
  rw [calcByteLen]
  rw [headerSize] at hbits ⊢
  omega

theorem byteSize_le_of_room (hwtype : getWtypeFromHeader n.header = .bits) (h : Room W n.size) (hw : n.width ≤ W) :
    n.byteSize ≤ 2 ^ 25 := by
  have hbits : n.size * n.width ≤ 8 * (2 ^ 25 - headerSize) := Nat.le_trans (Nat.mul_le_mul_left _ hw) h.2
  rw [byteSize, hwtype, calcByteSize, payloadBytes, Nat.shiftRight_eq_div_pow, alignUp8]
  rw [headerSize] at hbits ⊢
  omega

theorem copySize_lt {needed : Nat} (hbytes : n.byteSize ≤ 2 ^ 25) (hneeded : needed ≤ 2 ^ 25) :
    n.copySize needed < 1 <<< sectionShift := by
  rw [copySize, alignUp8, sectionShift]
  omega

theorem growable_of_room (hn : n.Sized .bits) (hnow : Room W n.size) (hw : n.width ≤ W) {needed : Nat}
    (hneeded : needed ≤ 2 ^ 25) :
    n.Growable needed := by
  have hcopy := copySize_lt (byteSize_le_of_room hn.wtype_eq hnow hw) hneeded
  rw [Growable]
  split
  · exact hcopy
  · rcases Nat.lt_or_ge n.capacity needed with hlt | hge
    · right
      rw [alignUp8, sectionShift]
      omega
    · exact Or.inl hge

/-- The fields of the elements are those of the node before. -/
def KeepsElements (n n' : Node) : Prop := ∀ p k, p + k ≤ n.width * n.size → field n'.data p k = field n.data p k

theorem keepsElements_of_sameBytes (hwtype : getWtypeFromHeader n.header = .bits)
    (h : SameBytes (n.byteSize - headerSize) n.data n'.data) : n.KeepsElements n' := by
  intro p k hk
  refine h.field_eq (Nat.le_trans hk ?_)
  rw [byteSize, hwtype, calcByteSize, payloadBytes, Nat.shiftRight_eq_div_pow, alignUp8, Nat.add_sub_cancel,
    Nat.mul_comm]
  omega

theorem Sized.exists_alloc (hn : n.Sized .bits) (hnow : Room W n.size) (hnw : n.width ≤ W) (hw : IsWidth w)
    (hle : w ≤ W)
    (hroom : Room W s) :
    ∃ n', n.alloc calcByteLen s w = some n' ∧ n'.Sized .bits ∧ n'.width = w ∧ n'.size = s ∧ n.KeepsElements n' := by
  have hneeded := hroom.calcByteLen_le hle
  have hlimit : calcByteLen s w < 1 <<< sectionShift := by
    rw [sectionShift]
    omega
  obtain ⟨n', hn'⟩ := Option.isSome_iff_exists.mp
    ((alloc_isSome hroom.1).mpr ((requested_lt_iff hlimit).mpr (growable_of_room hn hnow hnw hneeded)))
  have hg := alloc_spec hw hn.fits hn'
  exact ⟨n', hn', hn.alloc bitsLen hw hn', hg.width_eq, hg.size_eq, keepsElements_of_sameBytes hn.wtype_eq hg.payload⟩

theorem Sized.exists_copyOnWrite (hn : n.Sized .bits) (hnow : Room W n.size) (hw : n.width ≤ W) :
    ∃ n', n.copyOnWrite = some n' ∧ n'.Sized .bits ∧ n'.width = n.width ∧ n'.size = n.size ∧ n.KeepsElements n' := by
  have hsome : ∃ n', n.copyOnWrite = some n' := by
    rw [Node.copyOnWrite]
    split
    · rw [doCopyOnWrite, if_pos (copySize_lt (byteSize_le_of_room hn.wtype_eq hnow hw) (by decide))]
      exact ⟨_, rfl⟩
    · exact ⟨n, rfl⟩
  obtain ⟨n', hn'⟩ := hsome
  obtain ⟨hcopied, -, -⟩ := copyOnWrite_spec hn.fits hn'
  exact ⟨n', hn', hn.copyOnWrite hn', hcopied.width_eq, hcopied.size_eq,
    keepsElements_of_sameBytes hn.wtype_eq hcopied.payload⟩

theorem Sized.exists_cut (hn : n.Sized .bits) (hnow : Room W n.size) (hw : n.width ≤ W) {size : Nat}
    (hsize : size ≤ n.size) :
    ∃ n', ({ n with size := size } : Node).copyOnWrite = some n' ∧ (n'.setSize size).Sized .bits ∧
      (n'.setSize size).width = n.width ∧
      ∀ p k, p + k ≤ n.width * size → field n'.data p k = field n.data p k := by
  have hbytes : ({ n with size := size } : Node).byteSize ≤ n.byteSize := by
    rw [byteSize, byteSize, hn.wtype_eq]
    exact calcByteSize_mono hsize _
  have hfits : ({ n with size := size } : Node).Fits := fun hwritable => Nat.le_trans hbytes (hn.fits hwritable)
  have hsome : ∃ n', ({ n with size := size } : Node).copyOnWrite = some n' := by
    rw [Node.copyOnWrite]
    split
    · rw [doCopyOnWrite, if_pos (copySize_lt (Nat.le_trans hbytes (byteSize_le_of_room hn.wtype_eq hnow hw))
        (by decide))]
      exact ⟨_, rfl⟩
    · exact ⟨_, rfl⟩
  obtain ⟨n', hn'⟩ := hsome
  obtain ⟨hcopied, -, hfits'⟩ := copyOnWrite_spec hfits hn'
  have hmax : size ≤ maxArraySize := Nat.le_trans hsize (hn.size_eq ▸ getSize_le n.header)
  have hflags : flags (n'.setSize size).header = flags n.header := (flags_setSize _ _).trans hcopied.flags_eq
  have hwidth : (n'.setSize size).width = n.width := (getWidth_setSize _ _).trans hcopied.width_eq
  refine ⟨n', hn', ⟨(getWtype_of_flags hflags).trans hn.wtype_eq, getSize_setSize _ hmax, fun hwritable => ?_⟩, hwidth,
    keepsElements_of_sameBytes (n := { n with size := size }) hn.wtype_eq hcopied.payload⟩
  calc (n'.setSize size).byteSize = n'.byteSize := by
        have hwtype : getWtypeFromHeader (n'.setSize size).header = getWtypeFromHeader n'.header :=
          getWtype_of_flags (flags_setSize _ _)
        rw [byteSize, byteSize, hwtype, hwidth, hcopied.width_eq, hcopied.size_eq]
        rfl
    _ ≤ n'.capacity := hfits' hwritable
    _ = (n'.setSize size).capacity := (getCapacity_setSize _ _).symm

/-! ## Commits -/

/-- What a commit makes of a node: it is read-only, its header has a checksum where the capacity was, and what lies
beyond its payload is not kept. -/
def committed (checksum beyond : Nat) (n : Node) : Node :=
  { n with
    header := put n.header 0 32 checksum
    data := put beyond 0 (8 * (n.byteSize - headerSize)) n.data
    readOnly := true }

theorem byte_put_low {header checksum i : Nat} (hi : 4 ≤ i) : byte (put header 0 32 checksum) i = byte header i := by
  rw [byte, byte, toNat_load, toNat_load, field_put_of_disjoint _ (by omega)]

theorem Sized.committed (hn : n.Sized .bits) (checksum beyond : Nat) :
    (n.committed checksum beyond).Sized .bits ∧ (n.committed checksum beyond).width = n.width ∧
      KeepsElements n (n.committed checksum beyond) := by
  have hwtype : getWtypeFromHeader (put n.header 0 32 checksum) = getWtypeFromHeader n.header := by
    rw [getWtypeFromHeader, byte_put_low (by decide), getWtypeFromHeader]
  have hwidth : getWidthFromHeader (put n.header 0 32 checksum) = getWidthFromHeader n.header := by
    rw [getWidthFromHeader, byte_put_low (by decide), getWidthFromHeader]
  have hsize : getSizeFromHeader (put n.header 0 32 checksum) = getSizeFromHeader n.header := by
    simp only [getSizeFromHeader, byte_put_low (by decide : 4 ≤ 5), byte_put_low (by decide : 4 ≤ 6),
      byte_put_low (by decide : 4 ≤ 7)]
  have hsame : SameBytes (n.byteSize - headerSize) n.data (n.committed checksum beyond).data := by
    rw [SameBytes, Node.committed, field_put_self, field, Nat.shiftRight_zero]
  exact ⟨⟨hwtype.trans hn.wtype_eq, hsize.trans hn.size_eq, fun hro => by cases hro⟩, hwidth,
    keepsElements_of_sameBytes hn.wtype_eq hsame⟩

/-! ## Growth element by element -/

/-- The capacity of a node that has grown by doubling only. -/
def Doubled (n : Node) : Prop := n.readOnly = false ∧ ∃ j, j ≤ 18 ∧ n.capacity = 128 * 2 ^ j

theorem Doubled.alloc (hn : Doubled n) (hfits : n.Fits) (hold : 8 * s + 8 ≤ n.capacity)
    (h : n.alloc calcByteLen (s + 1) 64 = some n') : Doubled n' ∧ 8 * (s + 1) + 8 ≤ n'.capacity := by
  obtain ⟨hwritable, j, hj, hcap⟩ := hn
  have hpow : 2 ^ j ≤ 2 ^ 18 := Nat.pow_le_pow_right (by decide) hj
  have hneeded : calcByteLen (s + 1) 64 = 8 * (s + 1) + 8 := by
    rw [calcByteLen, headerSize]
    omega
  have hg := alloc_spec (by decide) hfits h
  rw [hneeded] at hg
  refine ⟨⟨hg.writable, ?_⟩, hg.covers⟩
  rw [hg.capacity_eq]
  cases hreq : n.requested (8 * (s + 1) + 8) with
  | none => exact ⟨j, hj, hcap⟩
  | some r =>
    have hlimit := (alloc_isSome (by rw [maxArraySize]; omega)).mp (Option.isSome_iff_exists.mpr ⟨n', h⟩) r
      (by rw [hneeded, hreq])
    rw [requested, hwritable, if_neg Bool.false_ne_true] at hreq
    split at hreq
    · rename_i hlt
      have hnew : newCapacity n.capacity (8 * (s + 1) + 8) = 128 * 2 ^ (j + 1) := by
        have hle : n.capacity ≤ 0xffffff <<< 3 := getCapacity_le n.header
        rw [newCapacity_eq hle, maxArrayPayloadAligned, if_neg (by omega), Nat.min_eq_left (by omega), hcap,
          Nat.pow_succ]
        omega
      obtain rfl : 128 * 2 ^ (j + 1) = r := hnew.symm.trans (Option.some.inj hreq)
      refine ⟨j + 1, ?_, rfl⟩
      by_contra hgt
      have : 2 ^ 19 ≤ 2 ^ (j + 1) := Nat.pow_le_pow_right (by decide) (by omega)
      rw [sectionShift] at hlimit
      omega
    · cases hreq

theorem Doubled.full (hn : Doubled n) : n.capacity ≤ 2 ^ 25 := by
  obtain ⟨-, j, hj, hcap⟩ := hn
  have : 2 ^ j ≤ 2 ^ 18 := Nat.pow_le_pow_right (by decide) hj
  omega

theorem Sized.elements_fit (hn : n.Sized .bits) (hwritable : n.readOnly = false) (hw : n.width = 64 ∨ n.size = 0) :
    8 * n.size + 8 ≤ n.capacity := by
  have hbytes := hn.fits hwritable
  rw [byteSize, hn.wtype_eq, calcByteSize, payloadBytes, alignUp8, headerSize, Nat.shiftRight_eq_div_pow] at hbytes
  rcases hw with hw | hzero
  · rw [hw] at hbytes
    omega
  · rw [hzero] at hbytes ⊢
    omega

theorem Doubled.grown {m : Node} (hn : Doubled n) (hsized : n.Sized .bits) (hsize : n.size = s)
    (hw : n.width = 64 ∨ s = 0)
    (h : n.alloc calcByteLen (s + 1) 64 = some m) (hcapacity : n'.capacity = m.capacity)
    (hreadOnly : n'.readOnly = m.readOnly) :
    Doubled n' ∧ 8 * (s + 1) + 8 ≤ n'.capacity := by
  subst hsize
  obtain ⟨hdoubled, hcovers⟩ := hn.alloc hsized.fits (hsized.elements_fit hn.1 hw) h
  rw [Doubled, hcapacity, hreadOnly]
  exact ⟨hdoubled, hcovers⟩

end Llbt.Node
