import Llbt.Leaf.Packed

/-!
# Cutting values into blocks (`block_end`, `create_block`, `get_from_block`)

`createBlocks` is the loop that `append_base_blocks`, `append` and `set_many` share: a block ends where `block_end`
says, is encoded by `create_block`, and the next one begins there.  `readBlock` reads every value of a block back.

* `splitBlocks` — the cut alone: no block is empty, so the loop ends, and the blocks are the values in order;
* `HeaderFits` — every field of a block is within its width, and the block within one blob;
* `blocks_read_back` — the values that `can_pack` accepts are cut, stored and read back unchanged.
-/

set_option autoImplicit false

namespace Llbt.Leaf.Packed

open Ownership ByteImage Segments PackedBlobs

/-- `read_u16` at position `o`. -/
def readU16 (data : Bytes) (o : Nat) : Nat := leVal ((data.drop o).take 2)

def blockCount (data : Bytes) : Nat := readU16 data 6

def readBlock (data : Bytes) : List Value := (List.range (blockCount data)).map (getFromBlock data)

/-- The values cut where `block_end` says. -/
def splitBlocks (vs : List Value) : List (List Value) :=
  if vs = [] then [] else vs.take (blockEnd vs) :: splitBlocks (vs.drop (blockEnd vs))
termination_by vs.length
decreasing_by
  have hpos := blockEnd_pos (by assumption : vs ≠ [])
  have hle := blockEnd_le vs
  rw [List.length_drop]
  omega

/-- The blocks of the values, each made by `create_block`. -/
def createBlocks (vs : List Value) : Prog (List (Arr UInt8)) :=
  if vs = [] then pure []
  else do
    let b ← createBlock (vs.take (blockEnd vs))
    let rest ← createBlocks (vs.drop (blockEnd vs))
    pure (b :: rest)
termination_by vs.length
decreasing_by
  have hpos := blockEnd_pos (by assumption : vs ≠ [])
  have hle := blockEnd_le vs
  rw [List.length_drop]
  omega

/-! ## One block -/

theorem blockCount_encodeBlock {g : List Value} (h : g.length ≤ 0xffff) : blockCount (encodeBlock g) = g.length := by
  have hsplit : encodeBlock g = (putLE 4 blockMagic ++ putLE 2 blockVersion) ++ (putLE 2 g.length ++
      (putLE 4 (g.length * directoryEntrySize) ++
        (putLE 4 (payloadBytes g).length ++ (directory 0 g ++ payloadBytes g)))) := by
    simp only [encodeBlock, List.append_assoc]
  have hlen : (putLE 4 blockMagic ++ putLE 2 blockVersion).length = 6 := rfl
  rw [blockCount, readU16, hsplit, ← hlen, List.drop_left, List.take_left' (putLE_length 2 _),
    leVal_putLE_of_lt (by omega)]

theorem readBlock_encodeBlock {g : List Value} (hlen : g.length ≤ 0xffff) (hfit : BlockFits g) :
    readBlock (encodeBlock g) = g := by
  refine List.ext_getElem? fun i => ?_
  rw [readBlock, blockCount_encodeBlock hlen, List.getElem?_map]
  by_cases hi : i < g.length
  · have hget : g[i]? = some g[i] := List.getElem?_eq_getElem hi
    rw [List.getElem?_range hi, hget, Option.map_some, getFromBlock_of_getElem? hfit hget]
  · rw [List.getElem?_eq_none (by simpa using hi), List.getElem?_eq_none (by omega)]
    rfl

/-- The fields of a block: the count has 16 bits, the sizes, offsets and lengths 32, of which one length stands for
null.  The node that holds the block has 24 bits for the size of its data and a capacity that is a multiple of 8. -/
structure HeaderFits (g : List Value) : Prop where
  count : g.length < 2 ^ 16
  directory_size : g.length * directoryEntrySize < 2 ^ 32
  payload_size : (payloadBytes g).length < 2 ^ 32
  entry : ∀ pre v post, g = pre ++ v :: post → span Value.size pre < 2 ^ 32 ∧ v.size < nullLength
  data_size : (encodeBlock g).length ≤ maxBinarySize
  node_size : (encodeBlock g).length < 2 ^ 24 ∧ (8 + (encodeBlock g).length + 7) / 8 * 8 ≤ 0xfffff8

theorem length_encodeBlock (g : List Value) : (encodeBlock g).length = 16 + g.length * 8 + span Value.size g := by
  obtain ⟨header, hheader, henc⟩ := encodeBlock_eq g
  rw [henc, List.length_append, List.length_append, hheader, directory_length, payloadBytes_length, Nat.add_assoc]

theorem headerFits_of_fits {g : List Value} (hlen : g.length ≤ 0xffff) (hfit : BlockFits g) : HeaderFits g := by
  have hmax : maxBinarySize = 0xfffff0 := by decide
  have hnull : nullLength = 0xffffffff := rfl
  have hentry : directoryEntrySize = 8 := rfl
  have hbytes := length_encodeBlock g
  unfold BlockFits at hfit
  refine ⟨by omega, ?_, ?_, fun pre v post hg => ?_, by omega, by omega, by omega⟩
  · rw [hentry]
    omega
  · rw [payloadBytes_length]
    omega
  · have hspan : span Value.size g = span Value.size pre + (v.size + span Value.size post) := by
      rw [hg, span_append, span_cons]
    omega

/-! ## All blocks -/

theorem flatten_splitBlocks (vs : List Value) : (splitBlocks vs).flatten = vs := by
  rw [splitBlocks]
  split
  · rename_i hnil
    rw [hnil]
    rfl
  · rw [List.flatten_cons, flatten_splitBlocks (vs.drop (blockEnd vs)), List.take_append_drop]
termination_by vs.length
decreasing_by
  have hpos := blockEnd_pos (by assumption : vs ≠ [])
  have hle := blockEnd_le vs
  rw [List.length_drop]
  omega

theorem splitBlocks_ok (vs : List Value) (hpack : ∀ v ∈ vs, v.size ≤ maxValue) :
    ∀ g ∈ splitBlocks vs, g ≠ [] ∧ g.length ≤ 0xffff ∧ BlockFits g := by
  rw [splitBlocks]
  split
  · exact fun g hg => absurd hg (List.not_mem_nil)
  · rename_i hne
    intro g hg
    rcases List.mem_cons.mp hg with rfl | hg
    · exact firstBlock_ok hne hpack
    · exact splitBlocks_ok (vs.drop (blockEnd vs)) (fun v hv => hpack v (List.mem_of_mem_drop hv)) g hg
termination_by vs.length
decreasing_by
  have hpos := blockEnd_pos (by assumption : vs ≠ [])
  have hle := blockEnd_le vs
  rw [List.length_drop]
  omega

theorem yields_createBlocks (vs : List Value) (hpack : ∀ v ∈ vs, v.size ≤ maxValue) :
    Yields (createBlocks vs) (fun bs => bs.map Arr.elems = (splitBlocks vs).map encodeBlock) := by
  rw [createBlocks, splitBlocks]
  split
  · exact Yields.pure rfl
  · rename_i hne
    refine (meets_createBlock fun _ => firstBlock_ok hne hpack).yields.bind fun b hb => ?_
    refine (yields_createBlocks (vs.drop (blockEnd vs)) fun v hv =>
      hpack v (List.mem_of_mem_drop hv)).bind fun bs hbs => ?_
    refine Yields.pure ?_
    rw [List.map_cons, List.map_cons, hb.1, hbs]
termination_by vs.length
decreasing_by
  have hpos := blockEnd_pos (by assumption : vs ≠ [])
  have hle := blockEnd_le vs
  rw [List.length_drop]
  omega

/-- **Values that can be packed are read back.**  The loop ends since no part is empty, no block is refused, no field
overflows, and the blocks read in turn give the values. -/
theorem blocks_read_back (vs : List Value) (hpack : canPack vs = true) :
    (∀ g ∈ splitBlocks vs, g ≠ [] ∧ HeaderFits g) ∧ (splitBlocks vs).flatten = vs ∧
      Yields (createBlocks vs) (fun bs => bs.map Arr.elems = (splitBlocks vs).map encodeBlock ∧
        bs.flatMap (fun b => readBlock b.elems) = vs) := by
  have hsizes := ((canPack_iff vs).mp hpack).2
  have hok := splitBlocks_ok vs hsizes
  refine ⟨fun g hg => ⟨(hok g hg).1, headerFits_of_fits (hok g hg).2.1 (hok g hg).2.2⟩, flatten_splitBlocks vs, ?_⟩
  refine (yields_createBlocks vs hsizes).mono fun bs hbs => ⟨hbs, ?_⟩
  calc bs.flatMap (fun b => readBlock b.elems)
      = (bs.map Arr.elems).flatMap readBlock := by rw [List.flatMap_map]
    _ = ((splitBlocks vs).map encodeBlock).flatMap readBlock := by rw [hbs]
    _ = (splitBlocks vs).flatMap (fun g => readBlock (encodeBlock g)) := by rw [List.flatMap_map]
    _ = (splitBlocks vs).flatMap id :=
        List.flatMap_congr fun g hg => readBlock_encodeBlock (hok g hg).2.1 (hok g hg).2.2
    _ = vs := by rw [List.flatMap_id, flatten_splitBlocks]

/-- A long value behind two short ones gets a block of its own. -/
theorem splitBlocks_long {data : Bytes} (hlong : data.length = 300000) : canPack [none, some [1, 2], some data] = true ∧
    splitBlocks [none, some [1, 2], some data] = [[none, some [1, 2]], [some data]] := by
  have hend : blockEnd [none, some [1, 2], some data] = 2 := by
    simp [blockEnd, blockRest, Value.size, maxInlineBlockSize, targetBlockSize, hlong]
  have hlast : blockEnd [some data] = 1 := by
    simp [blockEnd, blockRest]
  refine ⟨by simp [canPack, Value.size, hlong, maxValue, maxBinarySize, blockHeaderSize, directoryEntrySize], ?_⟩
  rw [splitBlocks, if_neg (List.cons_ne_nil _ _), hend]
  show [none, some [1, 2]] :: splitBlocks [some data] = _
  rw [splitBlocks, if_neg (List.cons_ne_nil _ _), hlast]
  show _ :: [some data] :: splitBlocks [] = _
  rw [splitBlocks, if_pos rfl]

theorem blocks_read_back_two : ∃ data : Bytes, data.length = 300000 ∧
    Yields (createBlocks [none, some [1, 2], some data]) (fun bs =>
      bs.map Arr.elems = [encodeBlock [none, some [1, 2]], encodeBlock [some data]] ∧
      bs.flatMap (fun b => readBlock b.elems) = [none, some [1, 2], some data]) := by
  obtain ⟨hpack, hsplit⟩ := @splitBlocks_long (List.replicate 300000 3) List.length_replicate
  have h := (blocks_read_back _ hpack).2.2
  rw [hsplit] at h
  exact ⟨_, List.length_replicate, h⟩

end Llbt.Leaf.Packed
