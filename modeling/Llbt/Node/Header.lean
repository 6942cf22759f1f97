import Llbt.Lib.Fields

/-!
# The node header

Every node starts with a header of eight bytes: three for the capacity in units of eight bytes, one that is not used,
one for the flags and the width, three for the number of elements.

* `getSizeFromHeader`, `getCapacityFromHeader`, `getWidthFromHeader` and their setters, byte by byte as in the source;
* a value that a field can represent is read back (`getSize_setSize`, `getCapacity_setCapacity`, `getWidth_setWidth`);
* every setter leaves the other fields alone; `flags` are the five bits beside the width.
-/

set_option autoImplicit false

namespace Llbt.Node

open Fields

def headerSize : Nat := 8

/-- Maximum number of elements in an array. -/
def maxArraySize : Nat := 0x00ffffff

/-- The largest capacity that growth by doubling asks for. -/
def maxArrayPayloadAligned : Nat := 0x07ffffc0

/-- How the width of a node is to be read.  The field has two bits and the fourth code is not in use. -/
inductive WidthType where
  | bits
  | multiply
  | ignore
  | unused
  deriving DecidableEq, Repr

def WidthType.ofCode : Nat → WidthType
  | 0 => .bits
  | 1 => .multiply
  | 2 => .ignore
  | _ => .unused

def WidthType.code : WidthType → Nat
  | .bits => 0
  | .multiply => 1
  | .ignore => 2
  | .unused => 3

/-! ## Getters -/

def byte (header i : Nat) : Nat := (load header 8 i).toNat

def getCapacityFromHeader (header : Nat) : Nat :=
  (byte header 0 <<< 19) + (byte header 1 <<< 11) + (byte header 2 <<< 3)

def getSizeFromHeader (header : Nat) : Nat :=
  (byte header 5 <<< 16) + (byte header 6 <<< 8) + byte header 7

def getWidthFromHeader (header : Nat) : Nat := (1 <<< (byte header 4 &&& 0x07)) >>> 1

def getWtypeFromHeader (header : Nat) : WidthType := WidthType.ofCode ((byte header 4 &&& 0x18) >>> 3)

/-! ## Setters -/

/-- The bits `mask` of the byte with the flags become those of `value`. -/
def setFlags (mask value : BitVec 8) (header : Nat) : Nat := store header 4 ((load header 8 4 &&& ~~~mask) ||| value)

def setIsInnerBptreeNodeInHeader (value : Bool) : Nat → Nat := setFlags 0x80#8 (BitVec.ofNat 8 (value.toNat <<< 7))

def setHasrefsInHeader (value : Bool) : Nat → Nat := setFlags 0x40#8 (BitVec.ofNat 8 (value.toNat <<< 6))

def setContextFlagInHeader (value : Bool) : Nat → Nat := setFlags 0x20#8 (BitVec.ofNat 8 (value.toNat <<< 5))

def setWtypeInHeader (value : WidthType) : Nat → Nat := setFlags 0x18#8 (BitVec.ofNat 8 (value.code <<< 3))

/-- The loop of `set_width_in_header`: how often an `int` of `n` bits is shifted until it is zero. -/
def widthCode : (n value : Nat) → Nat
  | 0, _ => 0
  | n + 1, value => if value = 0 then 0 else widthCode n (value >>> 1) + 1

def setWidthInHeader (value : Nat) : Nat → Nat := setFlags 0x7#8 (BitVec.ofNat 8 (widthCode 32 value))

def setSizeInHeader (value header : Nat) : Nat :=
  store (store (store header 5 (BitVec.ofNat 8 (value >>> 16))) 6 (BitVec.ofNat 8 (value >>> 8))) 7
    (BitVec.ofNat 8 value)

def setCapacityInHeader (value header : Nat) : Nat :=
  store (store (store header 0 (BitVec.ofNat 8 (value >>> 19))) 1 (BitVec.ofNat 8 (value >>> 11))) 2
    (BitVec.ofNat 8 (value >>> 3))

def initHeader (isInnerBptreeNode hasRefs contextFlag : Bool) (widthType : WidthType) (width size capacity : Nat) :
    Nat :=
  let header := setIsInnerBptreeNodeInHeader isInnerBptreeNode 0
  let header := setHasrefsInHeader hasRefs header
  let header := setContextFlagInHeader contextFlag header
  let header := setWtypeInHeader widthType header
  let header := setWidthInHeader width header
  let header := setSizeInHeader size header
  setCapacityInHeader capacity header

/-! ## Which bytes a setter writes -/

section Bytes

variable (header value : Nat)

theorem byte_setFlags (mask bits : BitVec 8) {i : Nat} (h : i ≠ 4) :
    byte (setFlags mask bits header) i = byte header i := by
  rw [byte, setFlags, load_store_of_ne _ _ (Ne.symm h), byte]

theorem byte_setSize {i : Nat} (h : i < 5) : byte (setSizeInHeader value header) i = byte header i := by
  rw [byte, setSizeInHeader, load_store_of_ne _ _ (by omega), load_store_of_ne _ _ (by omega),
    load_store_of_ne _ _ (by omega), byte]

theorem byte_setCapacity {i : Nat} (h : 3 ≤ i) : byte (setCapacityInHeader value header) i = byte header i := by
  rw [byte, setCapacityInHeader, load_store_of_ne _ _ (by omega), load_store_of_ne _ _ (by omega),
    load_store_of_ne _ _ (by omega), byte]

end Bytes

/-! ## What is written is read back -/

theorem getSize_setSize {value : Nat} (header : Nat) (h : value ≤ maxArraySize) :
    getSizeFromHeader (setSizeInHeader value header) = value := by
  rw [maxArraySize] at h
  have h5 : byte (setSizeInHeader value header) 5 = value / 65536 % 256 := by
    rw [byte, setSizeInHeader, load_store_of_ne _ _ (by decide), load_store_of_ne _ _ (by decide), load_store_self,
      BitVec.toNat_ofNat, Nat.shiftRight_eq_div_pow]
  have h6 : byte (setSizeInHeader value header) 6 = value / 256 % 256 := by
    rw [byte, setSizeInHeader, load_store_of_ne _ _ (by decide), load_store_self, BitVec.toNat_ofNat,
      Nat.shiftRight_eq_div_pow]
  have h7 : byte (setSizeInHeader value header) 7 = value % 256 := by
    rw [byte, setSizeInHeader, load_store_self, BitVec.toNat_ofNat]
  rw [getSizeFromHeader, h5, h6, h7, Nat.shiftLeft_eq, Nat.shiftLeft_eq]
  omega

theorem getCapacity_setCapacity {value : Nat} (header : Nat) (h : value ≤ 0xffffff <<< 3) (h8 : value % 8 = 0) :
    getCapacityFromHeader (setCapacityInHeader value header) = value := by
  have h0 : byte (setCapacityInHeader value header) 0 = value / 524288 % 256 := by
    rw [byte, setCapacityInHeader, load_store_of_ne _ _ (by decide), load_store_of_ne _ _ (by decide), load_store_self,
      BitVec.toNat_ofNat, Nat.shiftRight_eq_div_pow]
  have h1 : byte (setCapacityInHeader value header) 1 = value / 2048 % 256 := by
    rw [byte, setCapacityInHeader, load_store_of_ne _ _ (by decide), load_store_self, BitVec.toNat_ofNat,
      Nat.shiftRight_eq_div_pow]
  have h2 : byte (setCapacityInHeader value header) 2 = value / 8 % 256 := by
    rw [byte, setCapacityInHeader, load_store_self, BitVec.toNat_ofNat, Nat.shiftRight_eq_div_pow]
  have hmax : 0xffffff <<< 3 = 134217720 := by decide
  rw [getCapacityFromHeader, h0, h1, h2, Nat.shiftLeft_eq, Nat.shiftLeft_eq, Nat.shiftLeft_eq]
  omega

theorem getCapacity_mod_eight (header : Nat) : getCapacityFromHeader header % 8 = 0 := by
  rw [getCapacityFromHeader, Nat.shiftLeft_eq, Nat.shiftLeft_eq, Nat.shiftLeft_eq]
  omega

theorem getCapacity_le (header : Nat) : getCapacityFromHeader header ≤ 0xffffff <<< 3 := by
  have h0 : byte header 0 < 256 := (load header 8 0).isLt
  have h1 : byte header 1 < 256 := (load header 8 1).isLt
  have h2 : byte header 2 < 256 := (load header 8 2).isLt
  have hmax : 0xffffff <<< 3 = 134217720 := by decide
  rw [getCapacityFromHeader, Nat.shiftLeft_eq, Nat.shiftLeft_eq, Nat.shiftLeft_eq]
  omega

theorem getSize_le (header : Nat) : getSizeFromHeader header ≤ maxArraySize := by
  have h5 : byte header 5 < 256 := (load header 8 5).isLt
  have h6 : byte header 6 < 256 := (load header 8 6).isLt
  have h7 : byte header 7 < 256 := (load header 8 7).isLt
  rw [getSizeFromHeader, maxArraySize, Nat.shiftLeft_eq, Nat.shiftLeft_eq]
  omega

/-- The widths that the three bits of the width can represent. -/
def IsWidth (w : Nat) : Prop := w ∈ [0, 1, 2, 4, 8, 16, 32, 64]

instance (w : Nat) : Decidable (IsWidth w) := inferInstanceAs (Decidable (w ∈ _))

theorem IsWidth.cases {w : Nat} (h : IsWidth w) : w = 0 ∨ w = 1 ∨ w = 2 ∨ w = 4 ∨ w = 8 ∨ w = 16 ∨ w = 32 ∨ w = 64 := by
  rw [IsWidth] at h
  simpa only [List.mem_cons, List.not_mem_nil, or_false] using h

theorem isWidth_getWidth (header : Nat) : IsWidth (getWidthFromHeader header) := by
  have hlt : byte header 4 &&& 0x07 < 8 := Nat.lt_of_le_of_lt Nat.and_le_right (by decide)
  rw [getWidthFromHeader]
  generalize byte header 4 &&& 0x07 = code at hlt
  interval_cases code <;> decide

/-- The five bits beside the width: the type of the node, the context flag and how the width is to be read. -/
def flags (header : Nat) : Nat := byte header 4 &&& 0xf8

theorem widthCode_of_isWidth {w : Nat} (h : IsWidth w) :
    widthCode 32 w < 8 ∧ (1 <<< widthCode 32 w) >>> 1 = w := by
  rw [IsWidth] at h
  fin_cases h <;> decide

theorem byte_setWidth (w header : Nat) :
    byte (setWidthInHeader w header) 4 = (load header 8 4 &&& ~~~0x7#8 ||| BitVec.ofNat 8 (widthCode 32 w)).toNat := by
  rw [byte, setWidthInHeader, setFlags, load_store_self]

theorem getWidth_setWidth {w : Nat} (header : Nat) (h : IsWidth w) :
    getWidthFromHeader (setWidthInHeader w header) = w := by
  obtain ⟨hlt, heq⟩ := widthCode_of_isWidth h
  have hcode : byte (setWidthInHeader w header) 4 &&& 0x07 = widthCode 32 w := by
    rw [byte_setWidth]
    generalize widthCode 32 w = code at hlt
    generalize load header 8 4 = b
    have hmask : ((b &&& ~~~0x7#8 ||| BitVec.ofNat 8 code) &&& 0x7#8) = BitVec.ofNat 8 code := by
      interval_cases code <;> (revert b; decide)
    have := congrArg BitVec.toNat hmask
    rw [BitVec.toNat_and, BitVec.toNat_ofNat code 8, Nat.mod_eq_of_lt (by omega)] at this
    exact this
  rw [getWidthFromHeader, hcode, heq]

theorem flags_setWidth {w : Nat} (header : Nat) (h : IsWidth w) : flags (setWidthInHeader w header) = flags header := by
  obtain ⟨hlt, -⟩ := widthCode_of_isWidth h
  rw [flags, flags, byte_setWidth, byte]
  generalize widthCode 32 w = code at hlt
  generalize load header 8 4 = b
  have hmask : ((b &&& ~~~0x7#8 ||| BitVec.ofNat 8 code) &&& 0xf8#8) = b &&& 0xf8#8 := by
    interval_cases code <;> (revert b; decide)
  exact congrArg BitVec.toNat hmask

/-! ## What a setter leaves alone -/

section Frames

variable (header value : Nat)

@[simp] theorem getCapacity_setSize : getCapacityFromHeader (setSizeInHeader value header) =
    getCapacityFromHeader header := by
  simp only [getCapacityFromHeader, byte_setSize header value (by decide : 0 < 5),
    byte_setSize header value (by decide : 1 < 5), byte_setSize header value (by decide : 2 < 5)]

@[simp] theorem getCapacity_setWidth : getCapacityFromHeader (setWidthInHeader value header) =
    getCapacityFromHeader header := by
  simp only [getCapacityFromHeader, setWidthInHeader, byte_setFlags _ _ _ (by decide : 0 ≠ 4),
    byte_setFlags _ _ _ (by decide : 1 ≠ 4), byte_setFlags _ _ _ (by decide : 2 ≠ 4)]

@[simp] theorem getSize_setWidth : getSizeFromHeader (setWidthInHeader value header) = getSizeFromHeader header := by
  simp only [getSizeFromHeader, setWidthInHeader, byte_setFlags _ _ _ (by decide : 5 ≠ 4),
    byte_setFlags _ _ _ (by decide : 6 ≠ 4), byte_setFlags _ _ _ (by decide : 7 ≠ 4)]

@[simp] theorem getSize_setCapacity : getSizeFromHeader (setCapacityInHeader value header) =
    getSizeFromHeader header := by
  simp only [getSizeFromHeader, byte_setCapacity header value (by decide : 3 ≤ 5),
    byte_setCapacity header value (by decide : 3 ≤ 6), byte_setCapacity header value (by decide : 3 ≤ 7)]

@[simp] theorem byte_four_setSize : byte (setSizeInHeader value header) 4 = byte header 4 :=
    byte_setSize header value (by decide)

@[simp] theorem byte_four_setCapacity : byte (setCapacityInHeader value header) 4 = byte header 4 :=
  byte_setCapacity header value (by decide)

@[simp] theorem getWidth_setSize : getWidthFromHeader (setSizeInHeader value header) = getWidthFromHeader header := by
  rw [getWidthFromHeader, byte_four_setSize, getWidthFromHeader]

@[simp] theorem getWidth_setCapacity : getWidthFromHeader (setCapacityInHeader value header) =
    getWidthFromHeader header := by
  rw [getWidthFromHeader, byte_four_setCapacity, getWidthFromHeader]

@[simp] theorem flags_setSize : flags (setSizeInHeader value header) = flags header := by
  rw [flags, byte_four_setSize, flags]

@[simp] theorem flags_setCapacity : flags (setCapacityInHeader value header) = flags header := by
  rw [flags, byte_four_setCapacity, flags]

end Frames

/-! ## The flags decide the rest -/

theorem byte_and_of_flags {header mask : Nat} (h : 0xf8 &&& mask = mask) :
    byte header 4 &&& mask = flags header &&& mask := by
  rw [flags, Nat.and_assoc, h]

theorem getWtype_of_flags {header header' : Nat} (h : flags header' = flags header) :
    getWtypeFromHeader header' = getWtypeFromHeader header := by
  rw [getWtypeFromHeader, byte_and_of_flags (by decide), h, ← byte_and_of_flags (by decide), getWtypeFromHeader]

theorem getWtype_setWtype (value : WidthType) (header : Nat) :
    getWtypeFromHeader (setWtypeInHeader value header) = value := by
  have hbyte : byte (setWtypeInHeader value header) 4 =
    (load header 8 4 &&& ~~~0x18#8 ||| BitVec.ofNat 8 (value.code <<< 3)).toNat := by
    rw [byte, setWtypeInHeader, setFlags, load_store_self]
  have hmask : ∀ b : BitVec 8, (b &&& ~~~0x18#8 ||| BitVec.ofNat 8 (value.code <<< 3)).toNat &&& 0x18 =
    value.code <<< 3 := by
    cases value <;> decide
  rw [getWtypeFromHeader, hbyte, hmask]
  cases value <;> rfl

/-! ## A new header -/

section Initial

variable (isInner hasRefs contextFlag : Bool) (widthType : WidthType)

theorem getWtype_initHeader {width : Nat} (size capacity : Nat) (hwidth : IsWidth width) :
    getWtypeFromHeader (initHeader isInner hasRefs contextFlag widthType width size capacity) = widthType := by
  have hflags : flags (initHeader isInner hasRefs contextFlag widthType width size capacity) =
      flags (setWtypeInHeader widthType (setContextFlagInHeader contextFlag (setHasrefsInHeader hasRefs
        (setIsInnerBptreeNodeInHeader isInner 0)))) := by
    simp only [initHeader, flags_setCapacity, flags_setSize, flags_setWidth _ hwidth]
  rw [getWtype_of_flags hflags, getWtype_setWtype]

theorem getWidth_initHeader {width : Nat} (size capacity : Nat) (hwidth : IsWidth width) :
    getWidthFromHeader (initHeader isInner hasRefs contextFlag widthType width size capacity) = width := by
  simp only [initHeader, getWidth_setCapacity, getWidth_setSize, getWidth_setWidth _ hwidth]

theorem getSize_initHeader {size : Nat} (width capacity : Nat) (hsize : size ≤ maxArraySize) :
    getSizeFromHeader (initHeader isInner hasRefs contextFlag widthType width size capacity) = size := by
  simp only [initHeader, getSize_setCapacity, getSize_setSize _ hsize]

theorem getCapacity_initHeader {capacity : Nat} (width size : Nat) (h : capacity ≤ 0xffffff <<< 3)
    (h8 : capacity % 8 = 0) :
    getCapacityFromHeader (initHeader isInner hasRefs contextFlag widthType width size capacity) = capacity :=
  getCapacity_setCapacity _ h h8

end Initial

end Llbt.Node
