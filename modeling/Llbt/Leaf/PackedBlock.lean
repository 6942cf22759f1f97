import Llbt.Lib.Bytes
import Llbt.Leaf.Blob

/-!
# Blocks of packed values (`array_packed_blobs.cpp`)

A block is a header of 16 bytes, a directory of 8 bytes for each value (offset and length, the
length `nullLength` for null) and the bytes of the values.

* `blockEnd` — how many of the values go into one block;
* `encodeBlock`, `getFromBlock` — the format and its reader;
* `getFromBlock_encodeBlock` — the reader finds each value, null and empty kept apart;
* `blockFits_take`, `meets_createBlock` — a block of values that `canPack` accepts is never refused.
-/

set_option autoImplicit false

namespace Llbt.Leaf.Packed

open Ownership ByteImage Segments

def targetBlockSize : Nat := 256 * 1024

def maxInlineBlockSize : Nat := 1024 * 1024

def blockMagic : Nat := 0x4b4c4250

def blockVersion : Nat := 1

def nullLength : Nat := 0xffffffff

def blockHeaderSize : Nat := 16

def directoryEntrySize : Nat := 8

/-- The largest value that `can_pack` lets into a packed leaf. -/
def maxValue : Nat := maxBinarySize - (8 + blockHeaderSize + directoryEntrySize)

def canPack (vs : List Value) : Bool := !vs.isEmpty && vs.all (fun v => v.size ≤ maxValue)

/-- `block_end` behind the first value: `used` bytes are taken. -/
def blockRest : Nat → List Value → Nat
  | _, [] => 0
  | used, v :: vs =>
    if maxInlineBlockSize < v.size ∨ targetBlockSize < used + (8 + v.size) then 0
    else blockRest (used + (8 + v.size)) vs + 1

/-- `block_end`: the number of values in the block that starts with the first value. -/
def blockEnd : List Value → Nat
  | [] => 0
  | v :: vs => if maxInlineBlockSize < v.size then 1 else blockRest (16 + (8 + v.size)) vs + 1

/-- The directory, for values whose bytes start at `offset`. -/
def directory : Nat → List Value → Bytes
  | _, [] => []
  | offset, v :: vs =>
    putLE 4 offset ++ putLE 4 (if v.isNone then nullLength else v.size) ++ directory (offset + v.size) vs

def payloadBytes (vs : List Value) : Bytes := vs.flatMap (·.getD [])

def encodeBlock (vs : List Value) : Bytes :=
  (putLE 4 blockMagic ++ putLE 2 blockVersion ++ putLE 2 vs.length) ++
    (putLE 4 (vs.length * directoryEntrySize) ++
      (putLE 4 (payloadBytes vs).length ++ (directory 0 vs ++ payloadBytes vs)))

/-- `create_block`.  The size of a block that overflows 32 bits is over `maxBinarySize` too, so one
check stands for both errors. -/
def createBlock (vs : List Value) : Prog (Arr UInt8) :=
  if vs = [] ∨ 0xffff < vs.length then failure
  else if maxBinarySize < blockHeaderSize + vs.length * directoryEntrySize + (payloadBytes vs).length then
    failure
  else Arr.create (encodeBlock vs)

/-- `read_u32` at position `o`. -/
def readU32 (data : Bytes) (o : Nat) : Nat := leVal ((data.drop o).take 4)

def getFromBlock (data : Bytes) (row : Nat) : Value :=
  let directorySize := readU32 data 8
  let entry := blockHeaderSize + row * directoryEntrySize
  let length := readU32 data (entry + 4)
  if length = nullLength then none
  else some ((data.drop (blockHeaderSize + directorySize + readU32 data entry)).take length)

/-! ## Reading a block back -/

theorem readU32_of_eq {data a b : Bytes} {v o : Nat} (hdata : data = a ++ (putLE 4 v ++ b))
    (ho : o = a.length) (hv : v < 256 ^ 4) : readU32 data o = v := by
  subst hdata ho
  rw [readU32, List.drop_left, List.take_left' (putLE_length 4 v), leVal_putLE_of_lt hv]

theorem directory_length : ∀ (offset : Nat) (vs : List Value), (directory offset vs).length = vs.length * 8
  | _, [] => rfl
  | offset, v :: vs => by
    simp only [directory, List.length_append, putLE_length, directory_length (offset + v.size) vs,
      List.length_cons]
    omega

theorem directory_append : ∀ (offset : Nat) (vs ws : List Value),
    directory offset (vs ++ ws) = directory offset vs ++ directory (offset + span Value.size vs) ws
  | offset, [], ws => by simp [directory]
  | offset, v :: vs, ws => by
    simp only [List.cons_append, directory, directory_append (offset + v.size) vs ws, span_cons,
      List.append_assoc, Nat.add_assoc]

theorem payloadBytes_length (vs : List Value) : (payloadBytes vs).length = span Value.size vs := by
  rw [payloadBytes, List.length_flatMap]
  rfl

theorem encodeBlock_eq (vs : List Value) : ∃ header : Bytes, header.length = 16 ∧
    encodeBlock vs = header ++ (directory 0 vs ++ payloadBytes vs) := by
  refine ⟨putLE 4 blockMagic ++ putLE 2 blockVersion ++ putLE 2 vs.length ++
    putLE 4 (vs.length * directoryEntrySize) ++ putLE 4 (payloadBytes vs).length, ?_, ?_⟩
  · simp only [List.length_append, putLE_length]
  · simp only [encodeBlock, List.append_assoc]

/-- The size of a block is within the limit that `create_block` checks. -/
def BlockFits (vs : List Value) : Prop := 16 + vs.length * 8 + span Value.size vs ≤ maxBinarySize

theorem getFromBlock_encodeBlock {pre post : List Value} {v : Value}
    (hfit : BlockFits (pre ++ v :: post)) :
    getFromBlock (encodeBlock (pre ++ v :: post)) pre.length = v := by
  have hmax : maxBinarySize < nullLength := by decide
  have hnull : nullLength < 256 ^ 4 := by decide
  have hlen : (pre ++ v :: post).length = pre.length + (post.length + 1) := by simp
  have hspan : span Value.size (pre ++ v :: post) =
      span Value.size pre + (v.size + span Value.size post) := by simp
  unfold BlockFits at hfit
  have hdirSize : readU32 (encodeBlock (pre ++ v :: post)) 8 = (pre ++ v :: post).length * 8 :=
    readU32_of_eq rfl (by simp) (by omega)
  obtain ⟨header, hheader, henc⟩ := encodeBlock_eq (pre ++ v :: post)
  have hdir : directory 0 (pre ++ v :: post) = directory 0 pre ++
      (putLE 4 (span Value.size pre) ++ (putLE 4 (if v.isNone then nullLength else v.size) ++
        directory (span Value.size pre + v.size) post)) := by
    rw [directory_append, Nat.zero_add, directory, List.append_assoc]
  have hdirLen := directory_length 0 pre
  have hoffset : readU32 (encodeBlock (pre ++ v :: post)) (16 + pre.length * 8) = span Value.size pre := by
    refine readU32_of_eq (a := header ++ directory 0 pre)
      (b := putLE 4 (if v.isNone then nullLength else v.size) ++
        directory (span Value.size pre + v.size) post ++ payloadBytes (pre ++ v :: post)) ?_ ?_ (by omega)
    · rw [henc, hdir]
      simp only [List.append_assoc]
    · rw [List.length_append, hheader, hdirLen]
  have hlength : readU32 (encodeBlock (pre ++ v :: post)) (16 + pre.length * 8 + 4) =
      if v.isNone then nullLength else v.size := by
    refine readU32_of_eq (a := header ++ directory 0 pre ++ putLE 4 (span Value.size pre))
      (b := directory (span Value.size pre + v.size) post ++ payloadBytes (pre ++ v :: post)) ?_ ?_ ?_
    · rw [henc, hdir]
      simp only [List.append_assoc]
    · rw [List.length_append, List.length_append, hheader, hdirLen, putLE_length]
    · split <;> omega
  unfold getFromBlock
  dsimp only [blockHeaderSize, directoryEntrySize]
  rw [hdirSize, hoffset, hlength]
  cases v with
  | none => rfl
  | some data =>
    have hsize : Value.size (some data) = data.length := rfl
    rw [hsize] at hspan ⊢
    have hne : data.length ≠ nullLength := by omega
    have hpayload : payloadBytes (pre ++ some data :: post) =
        payloadBytes pre ++ (data ++ payloadBytes post) := by
      simp [payloadBytes]
    have hbefore : 16 + (pre ++ some data :: post).length * 8 + span Value.size pre =
        (header ++ (directory 0 (pre ++ some data :: post) ++ payloadBytes pre)).length := by
      have hdirAll := directory_length 0 (pre ++ some data :: post)
      have hbefore := payloadBytes_length pre
      simp only [List.length_append, hheader] at hdirAll ⊢
      omega
    have hsplit : encodeBlock (pre ++ some data :: post) =
        (header ++ (directory 0 (pre ++ some data :: post) ++ payloadBytes pre)) ++
          (data ++ payloadBytes post) := by
      rw [henc, hpayload]
      simp only [List.append_assoc]
    simp only [Option.isNone_some, Bool.false_eq_true, if_false, if_neg hne]
    rw [hbefore, hsplit, List.drop_left, List.take_left]

/-! ## What goes into one block -/

theorem blockRest_spec : ∀ (used : Nat) (vs : List Value), blockRest used vs ≤ vs.length ∧
    (blockRest used vs = 0 ∨ used + (blockRest used vs * 8 + span Value.size (vs.take (blockRest used vs))) ≤
      targetBlockSize)
  | _, [] => ⟨le_rfl, Or.inl rfl⟩
  | used, v :: vs => by
    rw [blockRest]
    split
    · exact ⟨Nat.zero_le _, Or.inl rfl⟩
    · rename_i h
      obtain ⟨-, hused⟩ := not_or.mp h
      obtain ⟨hle, hrest⟩ := blockRest_spec (used + (8 + v.size)) vs
      refine ⟨by rw [List.length_cons]; omega, Or.inr ?_⟩
      rw [List.take_succ_cons, span_cons]
      rcases hrest with hrest | hrest
      · rw [hrest, List.take_zero, span_nil]
        omega
      · omega

theorem blockEnd_pos {vs : List Value} (h : vs ≠ []) : 0 < blockEnd vs := by
  cases vs with
  | nil => exact absurd rfl h
  | cons v vs =>
    rw [blockEnd]
    split <;> omega

theorem blockEnd_le : ∀ vs : List Value, blockEnd vs ≤ vs.length
  | [] => le_rfl
  | v :: vs => by
    have hrest := (blockRest_spec (16 + (8 + v.size)) vs).1
    rw [blockEnd, List.length_cons]
    split <;> omega

/-- **A block of values that can be packed** is within the limits of `create_block`. -/
theorem blockFits_take {vs : List Value} (hpack : ∀ v ∈ vs, v.size ≤ maxValue) :
    BlockFits (vs.take (blockEnd vs)) ∧ blockEnd vs ≤ 0xffff := by
  have hmaxValue : maxValue + 32 = maxBinarySize := by decide
  have htarget : targetBlockSize ≤ maxBinarySize := by decide
  have htarget8 : targetBlockSize ≤ 0xffff * 8 := by decide
  cases vs with
  | nil =>
    refine ⟨?_, Nat.zero_le _⟩
    change 16 + 0 * 8 + 0 ≤ maxBinarySize
    decide
  | cons v vs =>
    have hv : v.size ≤ maxValue := hpack v List.mem_cons_self
    have hone : BlockFits [v] ∧ 1 ≤ 0xffff := by
      refine ⟨?_, by decide⟩
      simp only [BlockFits, List.length_singleton, span_cons, span_nil]
      omega
    obtain ⟨hle, hrest⟩ := blockRest_spec (16 + (8 + v.size)) vs
    rw [blockEnd]
    split
    · exact hone
    · rcases hrest with hrest | hrest
      · rw [hrest]
        exact hone
      · have hlen : (vs.take (blockRest (16 + (8 + v.size)) vs)).length =
            blockRest (16 + (8 + v.size)) vs := by
          rw [List.length_take, Nat.min_eq_left hle]
        refine ⟨?_, by omega⟩
        simp only [BlockFits, List.take_succ_cons, List.length_cons, hlen, span_cons]
        omega

theorem meets_createBlock {total : Bool} {vs : List Value}
    (h : total = true → vs ≠ [] ∧ vs.length ≤ 0xffff ∧ BlockFits vs) :
    Meets total (createBlock vs)
      (fun a => a.elems = encodeBlock vs ∧ BlockFits vs ∧ vs.length ≤ 0xffff) := by
  have hthrow : ¬ (vs ≠ [] ∧ vs.length ≤ 0xffff ∧ BlockFits vs) → total = false := by
    intro hnot
    cases total with
    | true => exact absurd (h rfl) hnot
    | false => rfl
  unfold createBlock
  split
  · rename_i hcount
    refine Meets.failure (hthrow ?_)
    rintro ⟨hne, hlen, -⟩
    rcases hcount with hcount | hcount
    · exact hne hcount
    · omega
  · rename_i hcount
    split
    · rename_i hsize
      refine Meets.failure (hthrow ?_)
      rintro ⟨-, -, hfit⟩
      rw [payloadBytes_length] at hsize
      exact absurd hfit (Nat.not_le.mpr hsize)
    · rename_i hsize
      rw [payloadBytes_length] at hsize
      refine ((Arr.yields_create _).meets total).mono fun a ha => ⟨ha.2, Nat.not_lt.mp hsize, ?_⟩
      exact Nat.not_lt.mp (not_or.mp hcount).2

end Llbt.Leaf.Packed
