import Llbt.Leaf.Array

/-!
# Blobs (`array_blob.cpp`)

An `ArrayBlob` is one block of at most `maxBinarySize` bytes.  A longer value is split: a root block
with the context flag set holds the refs of the chunks.

* `add`, `blobReplace`, `replace` — the mutators, with the ref they return as a `Blob`;
* `getAt` — the piece of the value at a position, `readFrom` the loop of a reader;
* `yields_add_of_le`, `yields_add_of_lt` — what is stored, in one block or split.  The split form
  never gets the terminating zero.
-/

set_option autoImplicit false

namespace Llbt.Leaf

open Ownership BPlusTree

abbrev Bytes := List UInt8

/-- `BinaryData` or `StringData`; `none` is null. -/
abbrev Value := Option Bytes

/-- `size()` of a value: null has size zero. -/
def Value.size (v : Value) : Nat := (v.getD []).length

def maxBinarySize : Nat := 0xFFFFF8 - 8

theorem maxBinarySize_pos : 0 < maxBinarySize := by decide

/-- A slot of a parent whose child may have moved. -/
def updateChildRef (parent old new : Ref) : Prog Ref := if old = new then pure parent else write parent

/-- What a ref of a blob leads to. -/
inductive Blob where
  | whole (a : Arr UInt8)
  | split (ref : Ref) (chunks : List (Arr UInt8))

namespace Blob

def ref : Blob → Ref
  | whole a => a.ref
  | split r _ => r

def blocks : Blob → List Ref
  | whole a => [a.ref]
  | split r chunks => r :: chunks.map Arr.ref

/-- The bytes stored, in order. -/
def bytes : Blob → Bytes
  | whole a => a.elems
  | split _ chunks => chunks.flatMap Arr.elems

/-- The data and its terminating zero. -/
def stored (data : Bytes) (addZeroTerm : Bool) : Bytes := if addZeroTerm then data ++ [0] else data

/-- `ArrayBlob::replace` where the result fits into one block.  A read-only block that already has
the bytes stays as it is; the terminating zero is not compared. -/
def storeWhole (a : Arr UInt8) (first last : Nat) (data : Bytes) (addZeroTerm : Bool) :
    Prog (Arr UInt8) := do
  let readOnly ← isReadOnly a.ref
  if last - first = (stored data addZeroTerm).length ∧ readOnly = true ∧
      (a.elems.drop first).take data.length = data then
    pure a
  else
    a.grow (a.elems.take first ++ stored data addZeroTerm ++ a.elems.drop last)

/-- The loop that creates new nodes for the rest of the data. -/
def addChunks (root : Ref) (chunks : List (Arr UInt8)) (data : Bytes) : Prog Blob :=
  if data = [] then pure (split root chunks)
  else do
    let c ← Arr.create []
    let c ← c.grow (data.take maxBinarySize)
    let root ← write root
    addChunks root (chunks ++ [c]) (data.drop maxBinarySize)
termination_by data.length
decreasing_by
  have hpos := maxBinarySize_pos
  have hlen : 0 < data.length := List.length_pos_iff.mpr (by assumption)
  rw [List.length_drop]
  omega

/-- `Array::blob_replace` at the end of the data: the last node is filled first. -/
def appendSplit (root : Ref) (chunks : List (Arr UInt8)) (data : Bytes) : Prog Blob :=
  match chunks.getLast? with
  | none => failure
  | some last => do
    let space := maxBinarySize - last.elems.length
    let last' ← storeWhole last last.elems.length last.elems.length (data.take space) false
    let root ← updateChildRef root last.ref last'.ref
    addChunks root (chunks.dropLast ++ [last']) (data.drop space)

/-- The root that `ArrayBlob::replace` puts above a blob that grows too large. -/
def newRoot : Prog Ref := do
  let root ← alloc
  write root

def add (a : Arr UInt8) (data : Bytes) (addZeroTerm : Bool) : Prog Blob :=
  if maxBinarySize < a.elems.length + (stored data addZeroTerm).length then do
    let root ← newRoot
    appendSplit root [a] data
  else do
    let a ← storeWhole a a.elems.length a.elems.length data addZeroTerm
    pure (whole a)

/-- `create()` followed by `add`. -/
def createWith (data : Bytes) (addZeroTerm : Bool) : Prog Blob := do
  let a ← Arr.create []
  add a data addZeroTerm

/-- `Array::blob_replace`: only an append or a total replacement is supported. -/
def blobReplace (root : Ref) (chunks : List (Arr UInt8)) (first last : Nat) (data : Bytes)
    (addZeroTerm : Bool) : Prog Blob :=
  let sz := (chunks.flatMap Arr.elems).length
  if first = sz ∧ last = sz then appendSplit root chunks data
  else if first = 0 ∧ last = sz then do
    freeAll (split root chunks).blocks
    createWith data addZeroTerm
  else failure

def replace (a : Arr UInt8) (first last : Nat) (data : Bytes) (addZeroTerm : Bool) : Prog Blob :=
  if maxBinarySize < a.elems.length - (last - first) + (stored data addZeroTerm).length then do
    let root ← newRoot
    blobReplace root [a] first last data addZeroTerm
  else do
    let a ← storeWhole a first last data addZeroTerm
    pure (whole a)

/-! ## Reading -/

/-- The chunk that holds position `offset`, and the position in it. -/
def findChunk : List (Arr UInt8) → Nat → Option (Arr UInt8 × Nat × List (Arr UInt8))
  | [], _ => none
  | c :: rest, offset =>
    if offset < c.elems.length then some (c, offset, rest) else findChunk rest (offset - c.elems.length)

/-- `ArrayBlob::get_at`: a piece of the value and the position to continue at, zero at the end. -/
def getAt : Blob → Nat → Bytes × Nat
  | whole a, pos => (a.elems.drop pos, 0)
  | split _ chunks, pos =>
    match findChunk chunks pos with
    | none => ([], 0)
    | some (c, offset, rest) =>
      (c.elems.drop offset, if rest = [] then 0 else pos + (c.elems.length - offset))

/-- A reader that calls `get_at` until the position is zero again; `none` if that takes more than
`fuel` calls. -/
def readFrom (b : Blob) : Nat → Nat → Option Bytes
  | 0, _ => none
  | fuel + 1, pos =>
    if (b.getAt pos).2 = 0 then some (b.getAt pos).1
    else (b.readFrom fuel (b.getAt pos).2).map ((b.getAt pos).1 ++ ·)

/-! ## What is stored -/

/-- One block of at most `maxBinarySize` bytes, or chunks of which none is empty. -/
def Good : Blob → Prop
  | whole a => a.elems.length ≤ maxBinarySize
  | split _ chunks => chunks ≠ [] ∧ ∀ c ∈ chunks, c.elems ≠ []

@[simp] theorem stored_false (data : Bytes) : stored data false = data := rfl

@[simp] theorem stored_true (data : Bytes) : stored data true = data ++ [0] := rfl

theorem length_stored_le (data : Bytes) (z : Bool) : (stored data z).length ≤ data.length + 1 := by
  cases z <;> simp

theorem yields_updateChildRef (parent old new : Ref) :
    Yields (updateChildRef parent old new) (fun _ => True) := by
  unfold updateChildRef
  split
  · exact Yields.pure trivial
  · exact Yields.write parent

/-- The bytes from `first` to `last` are replaced.  A block that stays as it is must already have
the terminating zero, which the comparison leaves out. -/
theorem yields_storeWhole {a : Arr UInt8} {first last : Nat} {data : Bytes} {z : Bool}
    (hle : first ≤ last)
    (hzero : z = true → last = first + data.length + 1 → a.elems[first + data.length]? = some 0) :
    Yields (storeWhole a first last data z)
      (fun a' => a'.elems = a.elems.take first ++ stored data z ++ a.elems.drop last) := by
  refine (Yields.isReadOnly a.ref).bind fun readOnly _ => ?_
  split
  · rename_i h
    obtain ⟨hlen, -, hdata⟩ := h
    refine Yields.pure ?_
    have hmid : (a.elems.drop first).take (last - first) = stored data z := by
      cases z with
      | false =>
        rw [hlen]
        exact hdata
      | true =>
        have hlast' : last = first + data.length + 1 := by
          rw [stored_true, List.length_append, List.length_singleton] at hlen
          omega
        have hget : (a.elems.drop first)[data.length]? = some 0 := by
          rw [List.getElem?_drop]
          exact hzero rfl hlast'
        have hsucc : last - first = data.length + 1 := by omega
        rw [hsucc, List.take_add_one, hdata, hget]
        rfl
    calc a.elems = a.elems.take last ++ a.elems.drop last := (List.take_append_drop last _).symm
      _ = a.elems.take first ++ stored data z ++ a.elems.drop last := by
        have hsplit : last = first + (last - first) := by omega
        conv_lhs => rw [hsplit, List.take_add, hmid, ← hsplit]
  · exact (Arr.yields_grow a _).mono fun a' ha' => ha'.2

theorem yields_storeWhole_end (a : Arr UInt8) (data : Bytes) (z : Bool) :
    Yields (storeWhole a a.elems.length a.elems.length data z)
      (fun a' => a'.elems = a.elems ++ stored data z) := by
  refine (yields_storeWhole le_rfl fun _ h => absurd h (by omega)).mono fun a' ha' => ?_
  rw [ha', List.take_length, List.drop_length, List.append_nil]

theorem yields_addChunks (root : Ref) (chunks : List (Arr UInt8)) (data : Bytes)
    (hne : chunks ≠ []) (hchunks : ∀ c ∈ chunks, c.elems ≠ []) :
    Yields (addChunks root chunks data)
      (fun b => ∃ r cs, b = split r cs ∧ b.Good ∧ b.bytes = chunks.flatMap Arr.elems ++ data) := by
  rw [addChunks]
  split
  · rename_i h
    subst h
    exact Yields.pure ⟨root, chunks, rfl, ⟨hne, hchunks⟩, (List.append_nil _).symm⟩
  · rename_i h
    refine (Arr.yields_create []).bind fun c₀ _ => (Arr.yields_grow c₀ _).bind fun c hc =>
      (Yields.write root).bind fun root' _ => ?_
    have hcne : c.elems ≠ [] := by
      have hlen : 0 < data.length := List.length_pos_iff.mpr h
      rw [hc.2, ← List.length_pos_iff, List.length_take]
      exact Nat.lt_min.mpr ⟨maxBinarySize_pos, hlen⟩
    refine (yields_addChunks root' (chunks ++ [c]) (data.drop maxBinarySize) (by simp)
      fun d hd => ?_).mono fun b hb => ?_
    · rcases List.mem_append.mp hd with hd | hd
      · exact hchunks d hd
      · rw [List.mem_singleton.mp hd]
        exact hcne
    · obtain ⟨r, cs, hb, hgood, hbytes⟩ := hb
      refine ⟨r, cs, hb, hgood, ?_⟩
      rw [hbytes, List.flatMap_append, List.flatMap_singleton, hc.2, List.append_assoc,
        List.take_append_drop]
termination_by data.length
decreasing_by
  have hpos := maxBinarySize_pos
  have hlen : 0 < data.length := List.length_pos_iff.mpr (by assumption)
  rw [List.length_drop]
  omega

/-- **A value that fits into one block** is stored there, with its terminating zero. -/
theorem yields_add_of_le {a : Arr UInt8} {data : Bytes} {z : Bool}
    (h : a.elems.length + (stored data z).length ≤ maxBinarySize) :
    Yields (add a data z) (fun b => ∃ a', b = whole a' ∧ a'.elems = a.elems ++ stored data z) := by
  unfold add
  rw [if_neg (Nat.not_lt.mpr h)]
  exact (yields_storeWhole_end a data z).bind fun a' ha' => Yields.pure ⟨a', rfl, ha'⟩

/-- **A value that does not fit** is split, and the terminating zero is left out. -/
theorem yields_add_of_lt {a : Arr UInt8} {data : Bytes} {z : Bool}
    (ha : a.elems.length ≤ maxBinarySize)
    (h : maxBinarySize < a.elems.length + (stored data z).length) :
    Yields (add a data z)
      (fun b => ∃ r cs, b = split r cs ∧ b.Good ∧ b.bytes = a.elems ++ data) := by
  unfold add
  rw [if_pos h]
  refine (Yields.alloc.bind fun r _ => Yields.write r).bind fun root _ => ?_
  refine (yields_storeWhole_end a (data.take (maxBinarySize - a.elems.length)) false).bind
    fun last hlast => (yields_updateChildRef root a.ref last.ref).bind fun root' _ => ?_
  rw [stored_false] at hlast
  have hlastne : last.elems ≠ [] := by
    have hpos := maxBinarySize_pos
    have hbound := length_stored_le data z
    rw [hlast, ← List.length_pos_iff, List.length_append, List.length_take]
    omega
  refine (yields_addChunks root' [last] (data.drop (maxBinarySize - a.elems.length)) (by simp)
    fun c hc => ?_).mono fun b hb => ?_
  · rw [List.mem_singleton.mp hc]
    exact hlastne
  · obtain ⟨r, cs, hb, hgood, hbytes⟩ := hb
    refine ⟨r, cs, hb, hgood, ?_⟩
    rw [hbytes, List.flatMap_singleton, hlast, List.append_assoc, List.take_append_drop]

theorem replace_end (a : Arr UInt8) (data : Bytes) (z : Bool) :
    replace a a.elems.length a.elems.length data z = add a data z := by
  have hsz : ([a].flatMap Arr.elems).length = a.elems.length := by simp
  unfold replace add blobReplace
  simp only [Nat.sub_self, Nat.sub_zero, hsz, and_self, if_true]

/-! ## What is read -/

theorem findChunk_mid (pre rest : List (Arr UInt8)) {c : Arr UInt8} (hc : c.elems ≠ []) :
    findChunk (pre ++ c :: rest) (pre.flatMap Arr.elems).length = some (c, 0, rest) := by
  induction pre with
  | nil =>
    have hpos : 0 < c.elems.length := List.length_pos_iff.mpr hc
    simp [findChunk, hpos]
  | cons d pre ih =>
    have hnot : ¬ (d.elems.length + (pre.flatMap Arr.elems).length < d.elems.length) := by omega
    rw [List.cons_append, List.flatMap_cons, List.length_append, findChunk, if_neg hnot,
      Nat.add_sub_cancel_left]
    exact ih

theorem getAt_split (r : Ref) (pre rest : List (Arr UInt8)) {c : Arr UInt8} (hc : c.elems ≠ []) :
    (split r (pre ++ c :: rest)).getAt (pre.flatMap Arr.elems).length =
      (c.elems, if rest = [] then 0 else (pre.flatMap Arr.elems).length + c.elems.length) := by
  simp only [getAt, findChunk_mid pre rest hc, List.drop_zero, Nat.sub_zero]

theorem readFrom_split (r : Ref) : ∀ (rest pre : List (Arr UInt8)) (c : Arr UInt8),
    (∀ d ∈ c :: rest, d.elems ≠ []) →
    (split r (pre ++ c :: rest)).readFrom (rest.length + 1) (pre.flatMap Arr.elems).length =
      some ((c :: rest).flatMap Arr.elems)
  | [], pre, c, h => by
    have hget := getAt_split r pre [] (h c List.mem_cons_self)
    rw [readFrom, hget, if_pos (if_pos rfl)]
    simp
  | d :: rest, pre, c, h => by
    have hget := getAt_split r pre (d :: rest) (h c List.mem_cons_self)
    have hpos : 0 < c.elems.length := List.length_pos_iff.mpr (h c List.mem_cons_self)
    have ih := readFrom_split r rest (pre ++ [c]) d fun e he => h e (List.mem_cons_of_mem c he)
    rw [List.append_assoc, List.singleton_append, List.flatMap_append, List.flatMap_singleton,
      List.length_append] at ih
    rw [readFrom, hget, if_neg (List.cons_ne_nil d rest), if_neg (by omega), List.length_cons, ih]
    rfl

/-- The number of pieces a reader gets. -/
def pieces : Blob → Nat
  | whole _ => 1
  | split _ chunks => chunks.length

/-- **Repeated `get_at` yields the value**, split or not. -/
theorem readFrom_pieces {b : Blob} (h : b.Good) : b.readFrom b.pieces 0 = some b.bytes := by
  cases b with
  | whole a => simp [pieces, readFrom, getAt, bytes]
  | split r chunks =>
    obtain ⟨hne, hchunks⟩ := h
    cases chunks with
    | nil => exact absurd rfl hne
    | cons c rest => exact readFrom_split r rest [] c hchunks

end Blob

end Llbt.Leaf
