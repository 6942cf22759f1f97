import Llbt.Leaf.PackedBlock
import Llbt.Leaf.Blobs

/-!
# Packed blob arrays (`ArrayPackedBlobs`)

Values live in blocks that are never changed.  A value has a *slot*: the base blocks hold the slots
of the values the leaf was created with, and an entry of `overrides` other than zero says in which
row of which delta block the value of a slot is.  `order` lists the slots of the leaf in order.

`Holds p vs` ties the arrays to the list `vs`: every slot can be read (`Table`), and no slot occurs
twice in `order`.  Each operation is one step on the slots (`Table.pushBlock`, `Table.pushRow`,
`Table.setRow`) and one on the order; `Holds.append`, `Holds.setMany`, `Holds.insert`, `Holds.erase`,
`Holds.truncate` and `holds_create` are the results.
-/

set_option autoImplicit false

namespace Llbt.Leaf

open Ownership Segments Packed

/-- `ArrayPackedBlobs`.  Slot 0 of its top array is the tagged `packed_magic`. -/
structure PackedBlobs where
  ref : Ref
  baseBlocks : Arr (Arr UInt8)
  baseEnds : Arr Nat
  deltaBlocks : Arr (Arr UInt8)
  overrides : Arr Nat
  order : Arr Nat

namespace PackedBlobs

def blocks (p : PackedBlobs) : List Ref :=
  [p.ref, p.baseBlocks.ref] ++ p.baseBlocks.elems.map Arr.ref ++
    ([p.baseEnds.ref, p.deltaBlocks.ref] ++ p.deltaBlocks.elems.map Arr.ref ++
      [p.overrides.ref, p.order.ref])

def size (p : PackedBlobs) : Nat := p.order.elems.length

def setDelta (p : PackedBlobs) (a : Arr (Arr UInt8)) : Prog PackedBlobs := do
  let r ← updateChildRef p.ref p.deltaBlocks.ref a.ref
  pure { p with ref := r, deltaBlocks := a }

def setOverrides (p : PackedBlobs) (a : Arr Nat) : Prog PackedBlobs := do
  let r ← updateChildRef p.ref p.overrides.ref a.ref
  pure { p with ref := r, overrides := a }

def setOrder (p : PackedBlobs) (a : Arr Nat) : Prog PackedBlobs := do
  let r ← updateChildRef p.ref p.order.ref a.ref
  pure { p with ref := r, order := a }

def appendBaseBlocks (blocks : Arr (Arr UInt8)) (ends : Arr Nat) (vs : List Value) :
    Prog (Arr (Arr UInt8) × Arr Nat) :=
  if vs = [] then pure (blocks, ends)
  else do
    let b ← createBlock (vs.take (blockEnd vs))
    let blocks ← blocks.add b
    let ends ← ends.add (ends.elems.getLast?.getD 0 + blockEnd vs)
    appendBaseBlocks blocks ends (vs.drop (blockEnd vs))
termination_by vs.length
decreasing_by
  have hpos := blockEnd_pos (by assumption : vs ≠ [])
  have hle := blockEnd_le vs
  rw [List.length_drop]
  omega

def create (vs : List Value) : Prog PackedBlobs :=
  if canPack vs = false then failure
  else do
    let r ← alloc
    let r ← write r
    let blocks ← Arr.create []
    let ends ← Arr.create []
    let base ← appendBaseBlocks blocks ends vs
    let r ← write r
    let r ← write r
    let delta ← Arr.create []
    let r ← write r
    let overrides ← Arr.create (List.replicate vs.length 0)
    let r ← write r
    let order ← Arr.create (List.replicate vs.length 0)
    let order ← order.grow (List.range vs.length)
    let r ← write r
    pure ⟨r, base.1, base.2, delta, overrides, order⟩

/-- The value of a slot in the base blocks. -/
def baseValue (p : PackedBlobs) (slot : Nat) : Option Value :=
  let passed := p.baseEnds.elems.takeWhile (· ≤ slot)
  p.baseBlocks.elems[passed.length]?.map fun b => getFromBlock b.elems (slot - passed.getLast?.getD 0)

def getSlot (p : PackedBlobs) (slot : Nat) : Option Value :=
  match p.overrides.elems[slot]? with
  | none => none
  | some 0 => p.baseValue slot
  | some (location + 1) =>
    p.deltaBlocks.elems[location / 65536]?.map fun b => getFromBlock b.elems (location % 65536)

def get (p : PackedBlobs) (ndx : Nat) : Option Value := p.order.elems[ndx]?.bind p.getSlot

/-- `append_delta_block`; the index of the new block is the number of blocks before. -/
def appendDeltaBlock (p : PackedBlobs) (vs : List Value) : Prog PackedBlobs := do
  let b ← createBlock vs
  let d ← p.deltaBlocks.add b
  p.setDelta d

/-- The rows of a new delta block are added at the end. -/
def appendRows (p : PackedBlobs) (block : Nat) : Nat → Nat → Prog PackedBlobs
  | _, 0 => pure p
  | row, k + 1 => do
    let slot := p.overrides.elems.length
    let a ← p.overrides.add (block * 65536 + row + 1)
    let p ← p.setOverrides a
    let o ← p.order.add slot
    let p ← p.setOrder o
    p.appendRows block (row + 1) k

def append (p : PackedBlobs) (vs : List Value) : Prog PackedBlobs :=
  if vs = [] then pure p
  else do
    let block := p.deltaBlocks.elems.length
    let p ← p.appendDeltaBlock (vs.take (blockEnd vs))
    let p ← p.appendRows block 0 (blockEnd vs)
    p.append (vs.drop (blockEnd vs))
termination_by vs.length
decreasing_by
  have hpos := blockEnd_pos (by assumption : vs ≠ [])
  have hle := blockEnd_le vs
  rw [List.length_drop]
  omega

def add (p : PackedBlobs) (v : Value) : Prog PackedBlobs := p.append [v]

def insert (p : PackedBlobs) (ndx : Nat) (v : Value) : Prog PackedBlobs := do
  let block := p.deltaBlocks.elems.length
  let p ← p.appendDeltaBlock [v]
  let slot := p.overrides.elems.length
  let a ← p.overrides.add (block * 65536 + 1)
  let p ← p.setOverrides a
  let o ← p.order.insert ndx slot
  p.setOrder o

/-- The rows of a new delta block replace the values at the given positions. -/
def setRows (p : PackedBlobs) (block : Nat) : Nat → List Nat → Prog PackedBlobs
  | _, [] => pure p
  | row, pos :: rest => do
    let slot := p.order.elems.getD pos 0
    let a ← p.overrides.set slot (block * 65536 + row + 1)
    let p ← p.setOverrides a
    p.setRows block (row + 1) rest

/-- How many of the replacements go into one block. -/
def pairsEnd (pairs : List (Nat × Value)) : Nat := blockEnd (pairs.map Prod.snd)

theorem pairsEnd_pos {pairs : List (Nat × Value)} (h : pairs ≠ []) : 0 < pairsEnd pairs :=
  blockEnd_pos (by simpa using h)

theorem pairsEnd_le (pairs : List (Nat × Value)) : pairsEnd pairs ≤ pairs.length := by
  have hle := blockEnd_le (pairs.map Prod.snd)
  rwa [List.length_map] at hle

/-- `set_many`, with the positions relative to the leaf. -/
def setMany (p : PackedBlobs) (pairs : List (Nat × Value)) : Prog PackedBlobs :=
  if pairs = [] then pure p
  else do
    let block := p.deltaBlocks.elems.length
    let p ← p.appendDeltaBlock ((pairs.take (pairsEnd pairs)).map Prod.snd)
    let p ← p.setRows block 0 ((pairs.take (pairsEnd pairs)).map Prod.fst)
    p.setMany (pairs.drop (pairsEnd pairs))
termination_by pairs.length
decreasing_by
  have hpos := pairsEnd_pos (by assumption : pairs ≠ [])
  have hle := pairsEnd_le pairs
  rw [List.length_drop]
  omega

def set (p : PackedBlobs) (ndx : Nat) (v : Value) : Prog PackedBlobs := p.setMany [(ndx, v)]

def erase (p : PackedBlobs) (ndx : Nat) : Prog PackedBlobs := do
  let o ← p.order.erase ndx
  p.setOrder o

def truncate (p : PackedBlobs) (n : Nat) : Prog PackedBlobs :=
  if n < p.size then do
    let o ← p.order.truncate n
    p.setOrder o
  else pure p

def destroy (p : PackedBlobs) : Prog Unit := freeAll p.blocks

def needsNormalize (p : PackedBlobs) : Bool :=
  let baseSize := p.baseEnds.elems.getLast?.getD 0
  p.deltaBlocks.elems.length != 0 || p.order.elems.length != baseSize ||
    p.overrides.elems.length != baseSize || p.order.elems != List.range p.order.elems.length ||
    (p.overrides.elems.take p.order.elems.length).any (· != 0)

/-- Whether `find_first` stops at `ndx`. -/
def isMatch (p : PackedBlobs) (v : Value) (ndx : Nat) : Bool :=
  match p.get ndx, v with
  | some none, none => true
  | some (some candidate), some data =>
    candidate.length == data.length && (candidate.length == 0 || candidate == data)
  | _, _ => false

/-! ## Slots -/

/-- Every slot can be read, and no override points beyond the delta blocks. -/
structure Table (p : PackedBlobs) (slots : List Value) : Prop where
  length_eq : p.overrides.elems.length = slots.length
  reads : ∀ (i : Nat) (v : Value), slots[i]? = some v → p.getSlot i = some v
  bound : ∀ i location : Nat, p.overrides.elems[i]? = some (location + 1) →
    location / 65536 < p.deltaBlocks.elems.length

variable {total : Bool} {p : PackedBlobs} {slots vs : List Value} {v : Value} {block row : Nat}
  {b : Arr UInt8}

theorem yields_setDelta (p : PackedBlobs) (a : Arr (Arr UInt8)) :
    Yields (p.setDelta a) (fun p' => ∃ r, p' = { p with ref := r, deltaBlocks := a }) :=
  (Blob.yields_updateChildRef _ _ _).bind fun r _ => Yields.pure ⟨r, rfl⟩

theorem yields_setOverrides (p : PackedBlobs) (a : Arr Nat) :
    Yields (p.setOverrides a) (fun p' => ∃ r, p' = { p with ref := r, overrides := a }) :=
  (Blob.yields_updateChildRef _ _ _).bind fun r _ => Yields.pure ⟨r, rfl⟩

theorem yields_setOrder (p : PackedBlobs) (a : Arr Nat) :
    Yields (p.setOrder a) (fun p' => ∃ r, p' = { p with ref := r, order := a }) :=
  (Blob.yields_updateChildRef _ _ _).bind fun r _ => Yields.pure ⟨r, rfl⟩

theorem Table.setOrder (h : p.Table slots) (r : Ref) (o : Arr Nat) :
    Table { p with ref := r, order := o } slots := ⟨h.length_eq, h.reads, h.bound⟩

theorem Table.pushBlock (h : p.Table slots) (r : Ref) {d : Arr (Arr UInt8)}
    (hd : d.elems = p.deltaBlocks.elems ++ [b]) : Table { p with ref := r, deltaBlocks := d } slots := by
  refine ⟨h.length_eq, fun i v hv => ?_, fun i location hi => ?_⟩
  · have hread := h.reads i v hv
    unfold getSlot at hread ⊢
    dsimp only
    cases hi : p.overrides.elems[i]? with
    | none =>
      rw [hi] at hread
      exact hread
    | some e =>
      rw [hi] at hread
      cases e with
      | zero => exact hread
      | succ location =>
        have hlt := h.bound i location hi
        dsimp only at hread ⊢
        rw [hd, List.getElem?_append_left hlt]
        exact hread
  · have hlt := h.bound i location hi
    rw [hd, List.length_append]
    exact Nat.lt_add_right _ hlt

theorem location_eq (block : Nat) (hrow : row < 65536) :
    (block * 65536 + row) / 65536 = block ∧ (block * 65536 + row) % 65536 = row := by
  omega

theorem Table.pushRow (h : p.Table slots) (r : Ref) (hb : p.deltaBlocks.elems[block]? = some b)
    (hv : getFromBlock b.elems row = v) (hrow : row < 65536) {a : Arr Nat}
    (ha : a.elems = p.overrides.elems ++ [block * 65536 + row + 1]) :
    Table { p with ref := r, overrides := a } (slots ++ [v]) := by
  obtain ⟨hdiv, hmod⟩ := location_eq block hrow
  refine ⟨?_, fun i w hw => ?_, fun i location hi => ?_⟩
  · rw [ha, List.length_append, List.length_append, h.length_eq]
    rfl
  · by_cases hi : i < slots.length
    · rw [List.getElem?_append_left hi] at hw
      have hread := h.reads i w hw
      unfold getSlot at hread ⊢
      dsimp only
      rw [ha, List.getElem?_append_left (by rw [h.length_eq]; exact hi)]
      exact hread
    · have hlt := (List.getElem?_eq_some_iff.mp hw).1
      rw [List.length_append, List.length_singleton] at hlt
      have hlast : i = slots.length := by omega
      subst hlast
      rw [List.getElem?_concat_length] at hw
      cases hw
      unfold getSlot
      dsimp only
      rw [ha, ← h.length_eq, List.getElem?_concat_length]
      dsimp only
      rw [hdiv, hmod, hb, Option.map_some, hv]
  · dsimp only at hi ⊢
    rw [ha] at hi
    by_cases hlt : i < p.overrides.elems.length
    · rw [List.getElem?_append_left hlt] at hi
      exact h.bound i location hi
    · have hmem : location + 1 ∈ [block * 65536 + row + 1] := by
        rw [List.getElem?_append_right (Nat.not_lt.mp hlt)] at hi
        exact List.mem_of_getElem? hi
      have hloc : location = block * 65536 + row := by
        have := List.mem_singleton.mp hmem
        omega
      rw [hloc, hdiv]
      exact (List.getElem?_eq_some_iff.mp hb).1

theorem Table.setRow (h : p.Table slots) (r : Ref) (hb : p.deltaBlocks.elems[block]? = some b)
    (hv : getFromBlock b.elems row = v) (hrow : row < 65536) {a : Arr Nat} {slot : Nat}
    (ha : a.elems = p.overrides.elems.set slot (block * 65536 + row + 1)) :
    Table { p with ref := r, overrides := a } (slots.set slot v) := by
  obtain ⟨hdiv, hmod⟩ := location_eq block hrow
  refine ⟨?_, fun i w hw => ?_, fun i location hi => ?_⟩
  · rw [ha, List.length_set, List.length_set, h.length_eq]
  · by_cases hi : slot = i
    · subst hi
      have hlt := (List.getElem?_eq_some_iff.mp hw).1
      rw [List.length_set] at hlt
      rw [List.getElem?_set_self hlt] at hw
      cases hw
      unfold getSlot
      dsimp only
      rw [ha, List.getElem?_set_self (by rw [h.length_eq]; exact hlt)]
      dsimp only
      rw [hdiv, hmod, hb, Option.map_some, hv]
    · rw [List.getElem?_set_ne hi] at hw
      have hread := h.reads i w hw
      unfold getSlot at hread ⊢
      dsimp only
      rw [ha, List.getElem?_set_ne hi]
      exact hread
  · dsimp only at hi ⊢
    rw [ha] at hi
    by_cases hs : slot = i
    · subst hs
      have hlt := (List.getElem?_eq_some_iff.mp hi).1
      rw [List.length_set] at hlt
      rw [List.getElem?_set_self hlt] at hi
      have hloc : location = block * 65536 + row := by
        have := Option.some.inj hi
        omega
      rw [hloc, hdiv]
      exact (List.getElem?_eq_some_iff.mp hb).1
    · rw [List.getElem?_set_ne hs] at hi
      exact h.bound i location hi

/-! ## The list it stands for -/

/-- `p` stores the values `vs`. -/
def Holds (p : PackedBlobs) (vs : List Value) : Prop :=
  ∃ slots, p.Table slots ∧ p.order.elems.Nodup ∧ p.order.elems.map (slots[·]?) = vs.map some

theorem Holds.size_eq (h : p.Holds vs) : p.size = vs.length := by
  obtain ⟨slots, -, -, hmap⟩ := h
  have hlen := congrArg List.length hmap
  rw [List.length_map, List.length_map] at hlen
  exact hlen

theorem Holds.get_eq (h : p.Holds vs) (ndx : Nat) : p.get ndx = vs[ndx]? := by
  obtain ⟨slots, htable, -, hmap⟩ := h
  have hndx := congrArg (·[ndx]?) hmap
  simp only [List.getElem?_map] at hndx
  unfold get
  cases ho : p.order.elems[ndx]? with
  | none =>
    rw [ho, Option.map_none] at hndx
    cases hv : vs[ndx]? with
    | none => rfl
    | some w =>
      rw [hv] at hndx
      cases hndx
  | some i =>
    rw [ho, Option.map_some] at hndx
    cases hv : vs[ndx]? with
    | none =>
      rw [hv] at hndx
      cases hndx
    | some w =>
      rw [hv, Option.map_some] at hndx
      exact htable.reads i w (Option.some.inj hndx)

theorem slot_lt {order : List Nat} (h : order.map (slots[·]?) = vs.map some) {i : Nat}
    (hi : i ∈ order) : i < slots.length := by
  have hmem : slots[i]? ∈ vs.map some := by
    rw [← h]
    exact List.mem_map_of_mem hi
  obtain ⟨w, -, hw⟩ := List.mem_map.mp hmem
  exact (List.getElem?_eq_some_iff.mp hw.symm).1

theorem map_slots_append {order : List Nat} (h : order.map (slots[·]?) = vs.map some) (v : Value) :
    order.map ((slots ++ [v])[·]?) = vs.map some := by
  rw [← h]
  apply List.map_congr_left
  intro i hi
  exact List.getElem?_append_left (slot_lt h hi)

theorem slot_notMem {order : List Nat} (h : order.map (slots[·]?) = vs.map some) :
    slots.length ∉ order := fun hi => absurd (slot_lt h hi) (lt_irrefl _)

theorem getFromBlock_of_getElem? {g : List Value} (hfit : BlockFits g) (hv : g[row]? = some v) :
    getFromBlock (encodeBlock g) row = v := by
  obtain ⟨hlt, hget⟩ := List.getElem?_eq_some_iff.mp hv
  have hsplit : g = g.take row ++ v :: g.drop (row + 1) := by
    rw [← hget, List.cons_getElem_drop_succ, List.take_append_drop]
  have hlen : (g.take row).length = row := by
    rw [List.length_take, Nat.min_eq_left hlt.le]
  have hfit' : BlockFits (g.take row ++ v :: g.drop (row + 1)) := by
    rw [← hsplit]
    exact hfit
  have hread := getFromBlock_encodeBlock hfit'
  rw [← hsplit, hlen] at hread
  exact hread

/-- A delta block that holds the values `g`. -/
structure HasBlock (p : PackedBlobs) (block : Nat) (g : List Value) : Prop where
  fits : BlockFits g
  length_le : g.length ≤ 0xffff
  found : ∃ b, p.deltaBlocks.elems[block]? = some b ∧ b.elems = encodeBlock g

theorem HasBlock.reads {g : List Value} (h : p.HasBlock block g) (hv : g[row]? = some v) :
    row < 65536 ∧ ∃ b, p.deltaBlocks.elems[block]? = some b ∧ getFromBlock b.elems row = v := by
  obtain ⟨b, hb, hbytes⟩ := h.found
  have hlt := (List.getElem?_eq_some_iff.mp hv).1
  have hle := h.length_le
  refine ⟨by omega, b, hb, ?_⟩
  rw [hbytes]
  exact getFromBlock_of_getElem? h.fits hv

theorem Holds.appendDeltaBlock {g : List Value} (h : p.Holds vs)
    (hg : total = true → g ≠ [] ∧ g.length ≤ 0xffff ∧ BlockFits g) :
    Meets total (p.appendDeltaBlock g)
      (fun p' => p'.Holds vs ∧ p'.HasBlock p.deltaBlocks.elems.length g) := by
  obtain ⟨slots, htable, hnodup, hmap⟩ := h
  refine (meets_createBlock hg).bind fun b hb => Yields.meets ?_ total
  obtain ⟨hbytes, hfit, hlen⟩ := hb
  refine (Arr.yields_grow _ _).bind fun d hd => (yields_setDelta p d).mono fun p' hp' => ?_
  obtain ⟨r, rfl⟩ := hp'
  refine ⟨⟨slots, htable.pushBlock r hd.2, hnodup, hmap⟩, hfit, hlen, b, ?_, hbytes⟩
  change d.elems[p.deltaBlocks.elems.length]? = some b
  rw [hd.2, List.getElem?_concat_length]

theorem Holds.appendRows {g : List Value} : ∀ (k : Nat) {row : Nat} {p : PackedBlobs} {vs : List Value},
    p.Holds vs → p.HasBlock block g → row + k ≤ g.length →
      Yields (p.appendRows block row k) (Holds · (vs ++ (g.drop row).take k))
  | 0, row, p, vs, h, _, _ => Yields.pure (by rw [List.take_zero, List.append_nil]; exact h)
  | k + 1, row, p, vs, h, hblock, hle => by
    obtain ⟨slots, htable, hnodup, hmap⟩ := h
    have hlt : row < g.length := by omega
    have hget : g[row]? = some g[row] := List.getElem?_eq_getElem hlt
    obtain ⟨hrow, b, hb, hread⟩ := hblock.reads hget
    refine (Arr.yields_grow _ _).bind fun a ha => (yields_setOverrides p a).bind fun p₁ hp₁ => ?_
    obtain ⟨r₁, rfl⟩ := hp₁
    refine (Arr.yields_grow _ _).bind fun o ho => (yields_setOrder _ o).bind fun p₂ hp₂ => ?_
    obtain ⟨r₂, rfl⟩ := hp₂
    have htable' := (htable.pushRow r₁ hb hread hrow ha.2).setOrder r₂ o
    have hnext : Holds { p with ref := r₂, overrides := a, order := o } (vs ++ [g[row]]) := by
      refine ⟨slots ++ [g[row]], htable', ?_, ?_⟩
      · change o.elems.Nodup
        rw [ho.2]
        change (p.order.elems ++ [p.overrides.elems.length]).Nodup
        rw [htable.length_eq]
        exact List.nodup_append.mpr ⟨hnodup, List.nodup_singleton _, fun x hx y hy hxy =>
          slot_notMem hmap (by rw [← List.mem_singleton.mp hy, ← hxy]; exact hx)⟩
      · change o.elems.map _ = _
        rw [ho.2]
        change (p.order.elems ++ [p.overrides.elems.length]).map _ = _
        rw [htable.length_eq, List.map_append, map_slots_append hmap, List.map_append,
          List.map_singleton, List.map_singleton, List.getElem?_concat_length]
    have hrec := Holds.appendRows k hnext (⟨hblock.fits, hblock.length_le, hblock.found⟩ :
      HasBlock { p with ref := r₂, overrides := a, order := o } block g) (by omega : row + 1 + k ≤ g.length)
    rw [List.append_assoc, List.singleton_append, ← List.take_succ_cons,
      List.cons_getElem_drop_succ] at hrec
    exact hrec

theorem length_firstBlock (ws : List Value) : (ws.take (blockEnd ws)).length = blockEnd ws := by
  rw [List.length_take, Nat.min_eq_left (blockEnd_le ws)]

theorem firstBlock_ok {ws : List Value} (hne : ws ≠ []) (hpack : ∀ w ∈ ws, w.size ≤ maxValue) :
    ws.take (blockEnd ws) ≠ [] ∧ (ws.take (blockEnd ws)).length ≤ 0xffff ∧
      BlockFits (ws.take (blockEnd ws)) := by
  obtain ⟨hfit, hmax⟩ := blockFits_take hpack
  refine ⟨?_, ?_, hfit⟩
  · rw [← List.length_pos_iff, length_firstBlock]
    exact blockEnd_pos hne
  · rw [length_firstBlock]
    exact hmax

theorem Holds.append {p : PackedBlobs} {vs : List Value} (h : p.Holds vs) (ws : List Value)
    (hpack : total = true → ∀ w ∈ ws, w.size ≤ maxValue) :
    Meets total (p.append ws) (Holds · (vs ++ ws)) := by
  rw [PackedBlobs.append]
  split
  · rename_i hnil
    rw [hnil]
    exact Meets.pure (by rw [List.append_nil]; exact h)
  · rename_i hne
    refine (h.appendDeltaBlock fun ht => firstBlock_ok hne (hpack ht)).bind fun p₁ hp₁ => ?_
    refine ((hp₁.1.appendRows (blockEnd ws) hp₁.2 ?_).meets total).bind fun p₂ hp₂ => ?_
    · rw [length_firstBlock, Nat.zero_add]
    rw [List.drop_zero, List.take_take, Nat.min_self] at hp₂
    have hrec := Holds.append hp₂ (ws.drop (blockEnd ws))
      fun ht w hw => hpack ht w (List.mem_of_mem_drop hw)
    rw [List.append_assoc, List.take_append_drop] at hrec
    exact hrec
termination_by ws.length
decreasing_by
  have hpos := blockEnd_pos (by assumption : ws ≠ [])
  have hle := blockEnd_le ws
  rw [List.length_drop]
  omega

theorem blockFits_singleton (hv : v.size ≤ maxValue) : BlockFits [v] := by
  have hmaxValue : maxValue + 32 = maxBinarySize := by decide
  simp only [BlockFits, List.length_singleton, span_cons, span_nil]
  omega

theorem Holds.insert_of_fits (h : p.Holds vs) {ndx : Nat} (hndx : ndx ≤ vs.length)
    (hv : total = true → BlockFits [v]) :
    Meets total (p.insert ndx v) (Holds · (vs.insertIdx ndx v)) := by
  refine (h.appendDeltaBlock fun ht => ⟨List.cons_ne_nil v [], by simp, hv ht⟩).bind
    fun p₁ hp₁ => Yields.meets ?_ total
  obtain ⟨⟨slots, htable, hnodup, hmap⟩, hblock⟩ := hp₁
  have hfirst : [v][0]? = some v := rfl
  obtain ⟨hrow, b, hb, hread⟩ := hblock.reads hfirst
  refine (Arr.yields_grow _ _).bind fun a ha => (yields_setOverrides p₁ a).bind fun p₂ hp₂ => ?_
  obtain ⟨r₂, rfl⟩ := hp₂
  refine (Arr.yields_grow _ _).bind fun o ho => (yields_setOrder _ o).mono fun p₃ hp₃ => ?_
  obtain ⟨r₃, rfl⟩ := hp₃
  have hlen : p₁.order.elems.length = vs.length := by
    simpa using congrArg List.length hmap
  have hoelems : o.elems = p₁.order.elems.insertIdx ndx slots.length := by
    rw [ho.2, ← htable.length_eq]
  refine ⟨slots ++ [v], (htable.pushRow r₂ hb hread hrow ha.2).setOrder r₃ o, ?_, ?_⟩
  · change o.elems.Nodup
    rw [hoelems, (List.perm_insertIdx _ _ (by rw [hlen]; exact hndx)).nodup_iff]
    exact List.nodup_cons.mpr ⟨slot_notMem hmap, hnodup⟩
  · change o.elems.map _ = _
    rw [hoelems, List.map_insertIdx, map_slots_append hmap, List.map_insertIdx,
      List.getElem?_concat_length]

theorem Holds.insert (h : p.Holds vs) {ndx : Nat} (hndx : ndx ≤ vs.length)
    (hv : total = true → v.size ≤ maxValue) :
    Meets total (p.insert ndx v) (Holds · (vs.insertIdx ndx v)) :=
  h.insert_of_fits hndx fun ht => blockFits_singleton (hv ht)

theorem map_slots_set {order : List Nat} (hnodup : order.Nodup)
    (h : order.map (slots[·]?) = vs.map some) {pos slot : Nat} (hpos : order[pos]? = some slot) (v : Value) :
    order.map ((slots.set slot v)[·]?) = (vs.set pos v).map some := by
  have hslot : slot < slots.length := slot_lt h (List.mem_of_getElem? hpos)
  obtain ⟨hposlt, hposeq⟩ := List.getElem?_eq_some_iff.mp hpos
  rw [List.map_set, ← h]
  apply List.ext_getElem?
  intro i
  rw [List.getElem?_map, List.getElem?_set, List.getElem?_map, List.length_map]
  by_cases hi : pos = i
  · subst hi
    rw [if_pos rfl, if_pos hposlt, hpos, Option.map_some, List.getElem?_set_self hslot]
  · rw [if_neg hi]
    cases ho : order[i]? with
    | none => rfl
    | some j =>
      have hne : slot ≠ j := by
        intro he
        obtain ⟨hilt, hieq⟩ := List.getElem?_eq_some_iff.mp ho
        exact hi ((hnodup.getElem_inj_iff).mp (hposeq.trans (he.trans hieq.symm)))
      rw [Option.map_some, Option.map_some, List.getElem?_set_ne hne]

theorem Holds.setRows {g : List Value} : ∀ (pairs : List (Nat × Value)) {row : Nat} {p : PackedBlobs}
    {vs : List Value}, p.Holds vs → p.HasBlock block g →
      pairs.map Prod.snd = (g.drop row).take pairs.length → (∀ q ∈ pairs, q.1 < vs.length) →
      Yields (p.setRows block row (pairs.map Prod.fst)) (Holds · (setAll vs pairs))
  | [], row, p, vs, h, _, _, _ => Yields.pure h
  | (pos, v) :: pairs, row, p, vs, h, hblock, hg, hpos => by
    have hsize := h.size_eq
    obtain ⟨slots, htable, hnodup, hmap⟩ := h
    have hget : g[row]? = some v := by
      have h0 := congrArg (·[0]?) hg
      simpa using h0.symm
    obtain ⟨hrow, b, hb, hread⟩ := hblock.reads hget
    have hlt : pos < p.order.elems.length := by
      change pos < p.size
      rw [hsize]
      exact hpos (pos, v) List.mem_cons_self
    have hslot : p.order.elems[pos]? = some (p.order.elems.getD pos 0) := by
      rw [List.getD_eq_getElem _ _ hlt]
      exact List.getElem?_eq_getElem hlt
    refine (Arr.yields_set _ _ _).bind fun a ha => (yields_setOverrides p a).bind fun p₁ hp₁ => ?_
    obtain ⟨r₁, rfl⟩ := hp₁
    have hnext : Holds { p with ref := r₁, overrides := a } (vs.set pos v) :=
      ⟨_, htable.setRow r₁ hb hread hrow ha.2, hnodup, map_slots_set hnodup hmap hslot v⟩
    refine Holds.setRows pairs hnext ⟨hblock.fits, hblock.length_le, hblock.found⟩ ?_ fun q hq => ?_
    · obtain ⟨hrowlt, hroweq⟩ := List.getElem?_eq_some_iff.mp hget
      rw [List.drop_eq_getElem_cons hrowlt, List.length_cons, List.take_succ_cons, List.map_cons] at hg
      exact List.tail_eq_of_cons_eq hg
    · rw [List.length_set]
      exact hpos q (List.mem_cons_of_mem _ hq)

theorem Holds.setMany {p : PackedBlobs} {vs : List Value} (h : p.Holds vs) (pairs : List (Nat × Value))
    (hpos : ∀ q ∈ pairs, q.1 < vs.length) (hpack : total = true → ∀ q ∈ pairs, q.2.size ≤ maxValue) :
    Meets total (p.setMany pairs) (Holds · (setAll vs pairs)) := by
  rw [PackedBlobs.setMany]
  split
  · rename_i hnil
    rw [hnil]
    exact Meets.pure h
  · rename_i hne
    have hfirst : total = true → (pairs.take (pairsEnd pairs)).map Prod.snd ≠ [] ∧
        ((pairs.take (pairsEnd pairs)).map Prod.snd).length ≤ 0xffff ∧
        BlockFits ((pairs.take (pairsEnd pairs)).map Prod.snd) := by
      intro ht
      rw [List.map_take]
      refine firstBlock_ok (by simpa using hne) fun w hw => ?_
      obtain ⟨q, hq, rfl⟩ := List.mem_map.mp hw
      exact hpack ht q hq
    refine (h.appendDeltaBlock hfirst).bind fun p₁ hp₁ => ?_
    refine ((hp₁.1.setRows (pairs.take (pairsEnd pairs)) hp₁.2 ?_ fun q hq =>
      hpos q (List.mem_of_mem_take hq)).meets total).bind fun p₂ hp₂ => ?_
    · rw [List.drop_zero]
      exact (List.take_of_length_le (List.length_map _).le).symm
    · have hrec := Holds.setMany hp₂ (pairs.drop (pairsEnd pairs))
        (fun q hq => by rw [length_setAll]; exact hpos q (List.mem_of_mem_drop hq))
        (fun ht q hq => hpack ht q (List.mem_of_mem_drop hq))
      rw [← setAll_append, List.take_append_drop] at hrec
      exact hrec
termination_by pairs.length
decreasing_by
  have hpos := pairsEnd_pos (by assumption : pairs ≠ [])
  have hle := pairsEnd_le pairs
  rw [List.length_drop]
  omega

theorem Holds.erase (h : p.Holds vs) (ndx : Nat) : Yields (p.erase ndx) (Holds · (vs.eraseIdx ndx)) := by
  obtain ⟨slots, htable, hnodup, hmap⟩ := h
  refine (Arr.yields_change _ _).bind fun o ho => (yields_setOrder p o).mono fun p' hp' => ?_
  obtain ⟨r, rfl⟩ := hp'
  refine ⟨slots, htable.setOrder r o, ?_, ?_⟩
  · change o.elems.Nodup
    rw [ho.2]
    exact hnodup.sublist (List.eraseIdx_sublist _ _)
  · change o.elems.map _ = _
    rw [ho.2, ← List.eraseIdx_map, hmap, List.eraseIdx_map]

theorem Holds.truncate (h : p.Holds vs) (n : Nat) : Yields (p.truncate n) (Holds · (vs.take n)) := by
  have hsize := h.size_eq
  unfold PackedBlobs.truncate
  split
  · obtain ⟨slots, htable, hnodup, hmap⟩ := h
    refine (Arr.yields_truncate _ _).bind fun o ho => (yields_setOrder p o).mono fun p' hp' => ?_
    obtain ⟨r, rfl⟩ := hp'
    refine ⟨slots, htable.setOrder r o, ?_, ?_⟩
    · change o.elems.Nodup
      rw [ho.2]
      exact hnodup.sublist (List.take_sublist _ _)
    · change o.elems.map _ = _
      rw [ho.2, List.map_take, hmap, List.map_take]
  · rename_i hn
    refine Yields.pure ?_
    rw [List.take_of_length_le (by omega)]
    exact h

/-- **`find_first` stops at exactly the places of the value.** -/
theorem Holds.isMatch_eq (h : p.Holds vs) {ndx : Nat} {w : Value} (hw : vs[ndx]? = some w) (v : Value) :
    p.isMatch v ndx = decide (w = v) := by
  unfold isMatch
  rw [h.get_eq, hw]
  cases w with
  | none => cases v <;> simp
  | some candidate =>
    cases v with
    | none => simp
    | some data =>
      by_cases he : candidate = data
      · subst he
        simp
      · simp only [Option.some.injEq, he, decide_false, Bool.and_eq_false_iff, Bool.or_eq_false_iff,
          beq_eq_false_iff_ne, ne_eq, not_false_eq_true, and_true]
        by_cases hlen : candidate.length = data.length
        · refine Or.inr fun h0 => he ?_
          rw [List.length_eq_zero_iff.mp h0, List.length_eq_zero_iff.mp (hlen.symm.trans h0)]
        · exact Or.inl hlen

/-! ## A new leaf -/

/-- The base blocks hold the values of `groups`, one group to a block. -/
structure Base (blocks : List (Arr UInt8)) (ends : List Nat) (groups : List (List Value)) : Prop where
  blocks_eq : blocks.map Arr.elems = groups.map encodeBlock
  ends_eq : ends = Segments.ends List.length 0 groups
  fits : ∀ g ∈ groups, BlockFits g

theorem yields_appendBaseBlocks {bs : Arr (Arr UInt8)} {es : Arr Nat} {groups : List (List Value)}
    (h : Base bs.elems es.elems groups) (vs : List Value) (hpack : ∀ v ∈ vs, v.size ≤ maxValue) :
    Yields (appendBaseBlocks bs es vs)
      (fun res => ∃ groups', Base res.1.elems res.2.elems groups' ∧ groups'.flatten = groups.flatten ++ vs) := by
  rw [appendBaseBlocks]
  split
  · rename_i hnil
    exact Yields.pure ⟨groups, h, by rw [hnil, List.append_nil]⟩
  · rename_i hne
    refine (meets_createBlock fun _ => firstBlock_ok hne hpack).yields.bind fun b hb =>
      (Arr.yields_grow bs _).bind fun bs' hbs' => (Arr.yields_grow es _).bind fun es' hes' => ?_
    obtain ⟨hbytes, hfit, -⟩ := hb
    have hlast : es.elems.getLast?.getD 0 = span List.length groups := by
      rw [h.ends_eq]
      exact getLastD_ends _ groups
    have hnext : Base bs'.elems es'.elems (groups ++ [vs.take (blockEnd vs)]) := by
      refine ⟨?_, ?_, fun g hg => ?_⟩
      · rw [hbs'.2, List.map_append, List.map_append, h.blocks_eq, List.map_singleton,
          List.map_singleton, hbytes]
      · rw [hes'.2, hlast, h.ends_eq, ends_append, Nat.zero_add, Segments.ends, length_firstBlock]
        rfl
      · rcases List.mem_append.mp hg with hg | hg
        · exact h.fits g hg
        · rw [List.mem_singleton.mp hg]
          exact hfit
    refine (yields_appendBaseBlocks hnext (vs.drop (blockEnd vs)) fun v hv =>
      hpack v (List.mem_of_mem_drop hv)).mono fun res hres => ?_
    obtain ⟨groups', hbase, hflat⟩ := hres
    refine ⟨groups', hbase, ?_⟩
    rw [hflat, List.flatten_append, List.flatten_singleton, List.append_assoc, List.take_append_drop]
termination_by vs.length
decreasing_by
  have hpos := blockEnd_pos (by assumption : vs ≠ [])
  have hle := blockEnd_le vs
  rw [List.length_drop]
  omega

theorem length_flatten_eq_span (groups : List (List Value)) :
    groups.flatten.length = span List.length groups := by
  rw [List.length_flatten]
  rfl

theorem baseValue_eq {groups : List (List Value)} (h : Base p.baseBlocks.elems p.baseEnds.elems groups)
    {slot : Nat} (hv : groups.flatten[slot]? = some v) : p.baseValue slot = some v := by
  have hlt := (List.getElem?_eq_some_iff.mp hv).1
  rw [length_flatten_eq_span] at hlt
  obtain ⟨pre, g, post, hgroups, hpre, hg, htake⟩ :=
    exists_segment_ends List.length (Nat.zero_le slot) (by rw [Nat.zero_add]; exact hlt)
  rw [Nat.zero_add] at hpre hg
  have hblock : (p.baseBlocks.elems.map Arr.elems)[pre.length]? = some (encodeBlock g) := by
    rw [h.blocks_eq, hgroups, List.map_append, List.map_cons, ← List.length_map (f := encodeBlock)]
    exact getElem?_mid _ _ _
  rw [List.getElem?_map] at hblock
  obtain ⟨b, hb, hbytes⟩ := Option.map_eq_some_iff.mp hblock
  have hrow : g[slot - span List.length pre]? = some v := by
    rw [hgroups, List.flatten_append, List.flatten_cons,
      List.getElem?_append_right (by rw [length_flatten_eq_span]; exact hpre), length_flatten_eq_span,
      List.getElem?_append_left (by omega)] at hv
    exact hv
  unfold baseValue
  dsimp only
  rw [h.ends_eq, htake, ends_length, getLastD_ends, hb, Option.map_some, hbytes]
  exact congrArg some (getFromBlock_of_getElem? (h.fits g (by rw [hgroups]; simp)) hrow)

theorem canPack_iff (vs : List Value) :
    canPack vs = true ↔ vs ≠ [] ∧ ∀ v ∈ vs, v.size ≤ maxValue := by
  simp [canPack]

/-- The arrays of a new leaf: every slot is in a base block, in order. -/
structure Fresh (p : PackedBlobs) (vs : List Value) : Prop where
  base : ∃ groups, Base p.baseBlocks.elems p.baseEnds.elems groups ∧ groups.flatten = vs
  delta_eq : p.deltaBlocks.elems = []
  overrides_eq : p.overrides.elems = List.replicate vs.length 0
  order_eq : p.order.elems = List.range vs.length

theorem fresh_create (hpack : canPack vs = true) : Yields (create vs) (Fresh · vs) := by
  obtain ⟨-, hsize⟩ := (canPack_iff vs).mp hpack
  unfold create
  rw [if_neg (by rw [hpack]; decide)]
  refine Yields.alloc.bind fun r₀ _ => (Yields.write r₀).bind fun r₁ _ =>
    (Arr.yields_create []).bind fun bs hbs => (Arr.yields_create []).bind fun es hes => ?_
  have hbase : Base bs.elems es.elems [] := by
    refine ⟨?_, ?_, fun g hg => by cases hg⟩
    · rw [hbs.2]
      rfl
    · rw [hes.2]
      rfl
  refine (yields_appendBaseBlocks hbase vs hsize).bind fun base hres => ?_
  obtain ⟨groups, hgroups, hflat⟩ := hres
  rw [List.flatten_nil, List.nil_append] at hflat
  exact (Yields.write r₁).bind fun r₂ _ => (Yields.write r₂).bind fun r₃ _ =>
    (Arr.yields_create []).bind fun d hd => (Yields.write r₃).bind fun r₄ _ =>
      (Arr.yields_create _).bind fun ov hov => (Yields.write r₄).bind fun r₅ _ =>
        (Arr.yields_create _).bind fun o₀ _ => (Arr.yields_grow o₀ _).bind fun o ho =>
          (Yields.write r₅).bind fun r₆ _ => Yields.pure ⟨⟨groups, hgroups, hflat⟩, hd.2, hov.2, ho.2⟩

theorem Fresh.holds (h : p.Fresh vs) : p.Holds vs := by
  obtain ⟨⟨groups, hgroups, hflat⟩, -, hov, ho⟩ := h
  refine ⟨vs, ⟨?_, fun i v hv => ?_, fun i location hi => ?_⟩, ?_, ?_⟩
  · rw [hov, List.length_replicate]
  · have hlt := (List.getElem?_eq_some_iff.mp hv).1
    have hget : p.overrides.elems[i]? = some 0 := by
      rw [hov, List.getElem?_replicate, if_pos hlt]
    unfold getSlot
    rw [hget]
    exact baseValue_eq hgroups (by rw [hflat]; exact hv)
  · rw [hov] at hi
    exact absurd (List.eq_of_mem_replicate (List.mem_of_getElem? hi)) (Nat.succ_ne_zero location)
  · rw [ho]
    exact List.nodup_range
  · rw [ho]
    apply List.ext_getElem?
    intro i
    rw [List.getElem?_map, List.getElem?_map]
    by_cases hi : i < vs.length
    · rw [List.getElem?_range hi, Option.map_some, List.getElem?_eq_getElem hi, Option.map_some]
    · rw [List.getElem?_eq_none (by rw [List.length_range]; exact Nat.not_lt.mp hi),
        List.getElem?_eq_none (Nat.not_lt.mp hi)]
      rfl

theorem holds_create (hpack : canPack vs = true) : Yields (create vs) (Holds · vs) :=
  (fresh_create hpack).mono fun _ h => h.holds

end PackedBlobs

end Llbt.Leaf
