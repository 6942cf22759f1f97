import Llbt.Leaf.Binary

/-!
# Attaching to a binary leaf by its ref (`ArrayBinary::init_from_mem`)

A `Cell` is a node in memory with what its refs lead to.  `store` is what a leaf has written,
`attach` what `init_from_mem` makes of it: the context flag in the header tells a small leaf from the
others, and a packed leaf is known by its six slots, the first of which is the tagged
`packedMagic` (`isPacked`).

`attach_store` — the leaf that was written is found again, in the same representation.
-/

set_option autoImplicit false

namespace Llbt.Leaf

open Ownership

mutual

/-- A node in memory. -/
inductive Cell where
  | ints (ref : Ref) (elems : List Nat)
  | bytes (ref : Ref) (elems : Bytes)
  | node (ref : Ref) (context : Bool) (slots : List Slot)

/-- A slot of an array of refs: a null ref, a tagged integer or the ref of a node. -/
inductive Slot where
  | null
  | tagged (n : Nat)
  | child (c : Cell)

end

namespace Cell

def ref : Cell → Ref
  | ints r _ => r
  | bytes r _ => r
  | node r _ _ => r

def contextFlag : Cell → Bool
  | node _ context _ => context
  | _ => false

def hasRefs : Cell → Bool
  | node _ _ _ => true
  | _ => false

def size : Cell → Nat
  | ints _ xs => xs.length
  | bytes _ bs => bs.length
  | node _ _ slots => slots.length

end Cell

/-- The 64-bit value of a slot.  Blocks are aligned to 8 bytes; `Ref` counts them. -/
def Slot.raw : Slot → Nat
  | .null => 0
  | .tagged n => 2 * n + 1
  | .child c => 8 * c.ref

def packedMagic : Nat := 0x4c4c42545041434b

/-- Whether slot 0 is a tagged integer with the value `packedMagic`. -/
def firstIsMagic : Cell → Bool
  | .node _ _ (s :: _) => s.raw % 2 == 1 && s.raw / 2 == packedMagic
  | _ => false

def isPacked (c : Cell) : Bool := c.contextFlag && c.hasRefs && c.size == 6 && firstIsMagic c

namespace Binary

def storeInts (a : Arr Nat) : Slot := .child (.ints a.ref a.elems)

def storeBytes (a : Arr UInt8) : Slot := .child (.bytes a.ref a.elems)

def storeBools (a : Arr Bool) : Slot := .child (.ints a.ref (a.elems.map Bool.toNat))

def storeBlocks (a : Arr (Arr UInt8)) : Slot := .child (.node a.ref false (a.elems.map storeBytes))

def storeBlob : Option Blob → Slot
  | none => .null
  | some (.whole a) => storeBytes a
  | some (.split r chunks) => .child (.node r true (chunks.map storeBytes))

/-- The nodes that a leaf has written. -/
def store : Binary → Cell
  | small s => .node s.ref false [storeInts s.offsets, storeBytes s.blob, storeBools s.nulls]
  | big b => .node b.ref true (b.slots.map storeBlob)
  | packed p => .node p.ref true [.tagged packedMagic, storeBlocks p.baseBlocks, storeInts p.baseEnds,
      storeBlocks p.deltaBlocks, storeInts p.overrides, storeInts p.order]

def attachInts : Slot → Option (Arr Nat)
  | .child (.ints r xs) => some ⟨r, xs⟩
  | _ => none

def attachBytes : Slot → Option (Arr UInt8)
  | .child (.bytes r bs) => some ⟨r, bs⟩
  | _ => none

def attachBools : Slot → Option (Arr Bool)
  | .child (.ints r xs) => some ⟨r, xs.map (· != 0)⟩
  | _ => none

def attachBlocks : Slot → Option (Arr (Arr UInt8))
  | .child (.node r _ slots) => do
    let blocks ← slots.mapM attachBytes
    pure ⟨r, blocks⟩
  | _ => none

def attachBlob : Slot → Option (Option Blob)
  | .null => some none
  | .child (.bytes r bs) => some (some (.whole ⟨r, bs⟩))
  | .child (.node r true slots) => do
    let chunks ← slots.mapM attachBytes
    pure (some (.split r chunks))
  | _ => none

def attachSmall : Cell → Option Binary
  | .node r _ [o, b, n] => do
    let offsets ← attachInts o
    let blob ← attachBytes b
    let nulls ← attachBools n
    pure (small ⟨r, offsets, blob, nulls⟩)
  | _ => none

def attachPacked : Cell → Option Binary
  | .node r _ [_, bb, be, db, ov, od] => do
    let baseBlocks ← attachBlocks bb
    let baseEnds ← attachInts be
    let deltaBlocks ← attachBlocks db
    let overrides ← attachInts ov
    let order ← attachInts od
    pure (packed ⟨r, baseBlocks, baseEnds, deltaBlocks, overrides, order⟩)
  | _ => none

/-- `ArrayBigBlobs` attached by its ref. -/
def attachBig : Cell → Option Binary
  | .node r _ slots => do
    let blobs ← slots.mapM attachBlob
    pure (big ⟨r, blobs⟩)
  | _ => none

def attach (c : Cell) : Option Binary :=
  if c.contextFlag = false then attachSmall c
  else if isPacked c = true then attachPacked c
  else attachBig c

/-! ## The leaf that was written is found again -/

theorem mapM_attachBytes (xs : List (Arr UInt8)) : (xs.map storeBytes).mapM attachBytes = some xs := by
  refine mapM_eq_some_of_map ?_
  rw [List.map_map]
  rfl

theorem attachBlocks_storeBlocks (a : Arr (Arr UInt8)) : attachBlocks (storeBlocks a) = some a := by
  unfold storeBlocks attachBlocks
  dsimp only
  rw [mapM_attachBytes]
  rfl

theorem attachBools_storeBools (a : Arr Bool) : attachBools (storeBools a) = some a := by
  obtain ⟨r, xs⟩ := a
  have hid : (xs.map Bool.toNat).map (· != 0) = xs := by
    rw [List.map_map]
    conv_rhs => rw [← List.map_id xs]
    apply List.map_congr_left
    intro b _
    cases b <;> rfl
  exact congrArg (fun ys => some (⟨r, ys⟩ : Arr Bool)) hid

theorem attachBlob_storeBlob (x : Option Blob) : attachBlob (storeBlob x) = some x := by
  rcases x with _ | ⟨a⟩ | ⟨r, chunks⟩
  · rfl
  · rfl
  · unfold storeBlob attachBlob
    dsimp only
    rw [mapM_attachBytes]
    rfl

theorem firstIsMagic_storeBig (b : BigBlobs) : firstIsMagic (big b).store = false := by
  obtain ⟨r, slots⟩ := b
  cases slots with
  | nil => rfl
  | cons x xs =>
    have heven : (storeBlob x).raw % 2 = 0 := by
      rcases x with _ | ⟨a⟩ | ⟨r', chunks⟩
      · rfl
      · simp only [storeBlob, storeBytes, Slot.raw, Cell.ref]
        omega
      · simp only [storeBlob, Slot.raw, Cell.ref]
        omega
    simp only [store, List.map_cons, firstIsMagic, heven]
    rfl

theorem isPacked_storePacked (p : PackedBlobs) : isPacked (packed p).store = true := rfl

/-- **Re-attaching by ref**: the leaf and its representation are the ones that were written. -/
theorem attach_store (l : Binary) : attach l.store = some l := by
  cases l with
  | small s =>
    have hnulls := attachBools_storeBools s.nulls
    have hcontext : (small s).store.contextFlag = false := rfl
    unfold attach
    rw [if_pos hcontext]
    unfold store attachSmall
    dsimp only
    rw [hnulls]
    rfl
  | big b =>
    have hnot : ¬ isPacked (big b).store = true := by
      unfold isPacked
      rw [firstIsMagic_storeBig, Bool.and_false]
      exact Bool.false_ne_true
    unfold attach
    rw [if_neg (fun h : (big b).store.contextFlag = false => by cases h), if_neg hnot]
    have hslots : (b.slots.map storeBlob).mapM attachBlob = some b.slots := by
      refine mapM_eq_some_of_map ?_
      rw [List.map_map]
      exact List.map_congr_left fun x _ => attachBlob_storeBlob x
    unfold store attachBig
    dsimp only
    rw [hslots]
    rfl
  | packed p =>
    unfold attach
    rw [if_neg (fun h : (packed p).store.contextFlag = false => by cases h),
      if_pos (isPacked_storePacked p)]
    unfold store attachPacked
    dsimp only
    rw [attachBlocks_storeBlocks, attachBlocks_storeBlocks]
    rfl

end Binary

end Llbt.Leaf
