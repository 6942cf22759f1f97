import Llbt.Leaf.Runs

/-!
# Packed leaves over whole histories, and normalization

A packed leaf is created from a list of values; appends, inserts, sets, erases and truncations follow
(`Reached`).  After any such history the reads of the class agree with the list that the operations
stand for (`ReadsAs`): the member `get`, the static `get` that goes through the header (`staticGet`),
and `find_first`.

`normalize_packed` builds the leaf anew from its values.  The limit it has to pass, that of
`can_pack`, is 8 bytes below the limit of `create_block`, which is the only one that a value added to
an existing leaf has to pass.  So it works exactly when no value is above the limit of `can_pack`
(`normalizes_iff`).
-/

set_option autoImplicit false

namespace Llbt.Leaf

open Ownership Segments Packed

/-! ## Reading from the header -/

/-- `Array::get(header, ndx)` of an array of integers. -/
def Slot.intAt : Slot → Nat → Option Nat
  | .child (.ints _ xs), ndx => xs[ndx]?
  | _, _ => none

def Slot.allInts : Slot → Option (List Nat)
  | .child (.ints _ xs) => some xs
  | _ => none

/-- The bytes of the block whose ref an array has at `ndx`. -/
def Slot.blockAt : Slot → Nat → Option Bytes
  | .child (.node _ _ slots), ndx =>
    match slots[ndx]? with
    | some (.child (.bytes _ bs)) => some bs
    | _ => none
  | _, _ => none

/-- The static `ArrayPackedBlobs::get(header, ndx, alloc)`. -/
def staticGet : Cell → Nat → Option Value
  | .node _ _ [_, baseBlocks, baseEnds, deltaBlocks, overrides, order], ndx => do
    let slot ← order.intAt ndx
    let encoded ← overrides.intAt slot
    if encoded ≠ 0 then
      let b ← deltaBlocks.blockAt ((encoded - 1) / 65536)
      pure (getFromBlock b ((encoded - 1) % 65536))
    else
      let ends ← baseEnds.allInts
      let passed := ends.takeWhile (· ≤ slot)
      let b ← baseBlocks.blockAt passed.length
      pure (getFromBlock b (slot - passed.getLast?.getD 0))
  | _, _ => none

theorem intAt_storeInts (a : Arr Nat) (ndx : Nat) : (Binary.storeInts a).intAt ndx = a.elems[ndx]? := rfl

theorem blockAt_storeBlocks (a : Arr (Arr UInt8)) (ndx : Nat) :
    (Binary.storeBlocks a).blockAt ndx = a.elems[ndx]?.map Arr.elems := by
  unfold Binary.storeBlocks Slot.blockAt
  dsimp only
  rw [List.getElem?_map]
  cases a.elems[ndx]? <;> rfl

theorem staticGet_store (p : PackedBlobs) (ndx : Nat) : staticGet (Binary.packed p).store ndx = p.get ndx := by
  unfold Binary.store staticGet PackedBlobs.get
  dsimp only
  rw [intAt_storeInts]
  cases p.order.elems[ndx]? with
  | none => rfl
  | some slot =>
    change (do
      let encoded ← (Binary.storeInts p.overrides).intAt slot
      _) = p.getSlot slot
    unfold PackedBlobs.getSlot
    rw [intAt_storeInts]
    cases p.overrides.elems[slot]? with
    | none => rfl
    | some encoded =>
      cases encoded with
      | zero =>
        change ((Binary.storeBlocks p.baseBlocks).blockAt _).bind _ = p.baseValue slot
        rw [blockAt_storeBlocks, Option.bind_map]
        exact (Option.map_eq_bind ..).symm
      | succ location =>
        change ((Binary.storeBlocks p.deltaBlocks).blockAt (location / 65536)).bind _ = _
        rw [blockAt_storeBlocks, Option.bind_map]
        exact (Option.map_eq_bind ..).symm

namespace PackedBlobs

variable {p p' : PackedBlobs} {vs ws : List Value} {v : Value}

/-- `find_first(value, begin, end)`; `none` for `end` is `npos`. -/
def findFirst (p : PackedBlobs) (v : Value) (first : Nat) (last : Option Nat) : Option Nat :=
  (List.range' first (last.getD p.size - first)).find? (p.isMatch v)

/-- The reads of the class agree with the list `vs`. -/
structure ReadsAs (p : PackedBlobs) (vs : List Value) : Prop where
  size_eq : p.size = vs.length
  get_eq : ∀ ndx, p.get ndx = vs[ndx]?
  staticGet_eq : ∀ ndx, staticGet (Binary.packed p).store ndx = vs[ndx]?
  findFirst_eq : ∀ (v : Value) (first : Nat) (last : Option Nat), last.getD vs.length ≤ vs.length →
    p.findFirst v first last =
      (List.range' first (last.getD vs.length - first)).find? (fun i => decide (vs[i]? = some v))

theorem Holds.readsAs (h : p.Holds vs) : p.ReadsAs vs where
  size_eq := h.size_eq
  get_eq := h.get_eq
  staticGet_eq ndx := (staticGet_store p ndx).trans (h.get_eq ndx)
  findFirst_eq v first last hlast := by
    unfold findFirst
    rw [h.size_eq]
    exact Binary.Holds.findFirst_eq (l := .packed p) (fun _ => []) h v hlast

/-! ## Histories -/

inductive Op where
  | append (vs : List Value)
  | insert (ndx : Nat) (v : Value)
  | set (ndx : Nat) (v : Value)
  | setMany (pairs : List (Nat × Value))
  | erase (ndx : Nat)
  | truncate (n : Nat)

namespace Op

def run : Op → PackedBlobs → Prog PackedBlobs
  | append vs, p => p.append vs
  | insert ndx v, p => p.insert ndx v
  | set ndx v, p => p.set ndx v
  | setMany pairs, p => p.setMany pairs
  | erase ndx, p => p.erase ndx
  | truncate n, p => p.truncate n

def onList : Op → List Value → List Value
  | append ws, vs => vs ++ ws
  | insert ndx v, vs => vs.insertIdx ndx v
  | set ndx v, vs => vs.set ndx v
  | setMany pairs, vs => setAll vs pairs
  | erase ndx, vs => vs.eraseIdx ndx
  | truncate n, vs => vs.take n

/-- The positions are in the leaf. -/
def InRange : Op → List Value → Prop
  | insert ndx _, vs => ndx ≤ vs.length
  | set ndx _, vs => ndx < vs.length
  | setMany pairs, vs => ∀ q ∈ pairs, q.1 < vs.length
  | erase ndx, vs => ndx < vs.length
  | _, _ => True

theorem holds (o : Op) (h : p.Holds vs) (hin : o.InRange vs) : Meets false (o.run p) (Holds · (o.onList vs)) := by
  have hmay : ∀ {P : Prop}, false = true → P := fun hf => absurd hf Bool.false_ne_true
  cases o with
  | append ws => exact h.append ws hmay
  | insert ndx v => exact h.insert hin hmay
  | set ndx v =>
    refine h.setMany [(ndx, v)] (fun q hq => ?_) hmay
    rw [List.mem_singleton.mp hq]
    exact hin
  | setMany pairs => exact h.setMany pairs hin hmay
  | erase ndx => exact (h.erase ndx).meets false
  | truncate n => exact (h.truncate n).meets false

end Op

/-- The packed leaves that a history of operations leads to, with the lists they stand for. -/
inductive Reached : PackedBlobs → List Value → Prop
  | create {vs : List Value} {p : PackedBlobs} {s s' : Ledger} (hrun : create vs s = some (p, s')) :
      Reached p vs
  | op {p p' : PackedBlobs} {vs : List Value} {s s' : Ledger} (o : Op) (h : Reached p vs)
      (hin : o.InRange vs) (hrun : o.run p s = some (p', s')) : Reached p' (o.onList vs)

theorem canPack_of_create {s s' : Ledger} (h : create vs s = some (p, s')) : canPack vs = true := by
  cases hpack : canPack vs with
  | true => rfl
  | false =>
    unfold create at h
    rw [if_pos hpack] at h
    exact absurd h not_failure_eq_some

theorem Reached.holds (h : Reached p vs) : p.Holds vs := by
  induction h with
  | create hrun => exact ((holds_create (canPack_of_create hrun)).meets true).of_eq_some hrun
  | op o _ hin hrun ih => exact (o.holds ih hin).of_eq_some hrun

/-! ## Delta blocks are never taken away -/

theorem meets_appendDeltaBlock (p : PackedBlobs) (g : List Value) :
    Meets false (p.appendDeltaBlock g)
      (fun p' => p'.deltaBlocks.elems.length = p.deltaBlocks.elems.length + 1) := by
  refine (meets_createBlock fun hf => absurd hf Bool.false_ne_true).bind fun b _ => Yields.meets ?_ false
  refine (Arr.yields_grow _ _).bind fun d hd => (yields_setDelta p d).mono fun p' hp' => ?_
  obtain ⟨r, rfl⟩ := hp'
  change d.elems.length = _
  rw [hd.2, List.length_append]
  rfl

theorem yields_appendRows : ∀ (k block row : Nat) (p : PackedBlobs),
    Yields (p.appendRows block row k) (fun p' => p'.deltaBlocks = p.deltaBlocks)
  | 0, _, _, _ => Yields.pure rfl
  | k + 1, block, row, p => by
    refine (Arr.yields_grow _ _).bind fun a _ => (yields_setOverrides p a).bind fun p₁ hp₁ => ?_
    obtain ⟨r₁, rfl⟩ := hp₁
    refine (Arr.yields_grow _ _).bind fun o _ => (yields_setOrder _ o).bind fun p₂ hp₂ => ?_
    obtain ⟨r₂, rfl⟩ := hp₂
    exact yields_appendRows k block (row + 1) _

theorem yields_setRows : ∀ (positions : List Nat) (block row : Nat) (p : PackedBlobs),
    Yields (p.setRows block row positions) (fun p' => p'.deltaBlocks = p.deltaBlocks)
  | [], _, _, _ => Yields.pure rfl
  | pos :: rest, block, row, p => by
    refine (Arr.yields_set _ _ _).bind fun a _ => (yields_setOverrides p a).bind fun p₁ hp₁ => ?_
    obtain ⟨r₁, rfl⟩ := hp₁
    exact yields_setRows rest block (row + 1) _

theorem length_delta_append (p : PackedBlobs) (ws : List Value) : Meets false (p.append ws)
    (fun p' => p.deltaBlocks.elems.length + (if ws = [] then 0 else 1) ≤ p'.deltaBlocks.elems.length) := by
  rw [PackedBlobs.append]
  split
  · exact Meets.pure le_rfl
  · refine (meets_appendDeltaBlock p _).bind fun p₁ hp₁ =>
      ((yields_appendRows _ _ 0 p₁).meets false).bind fun p₂ hp₂ => ?_
    refine (length_delta_append p₂ (ws.drop (blockEnd ws))).mono fun p₃ hp₃ => ?_
    rw [hp₂, hp₁] at hp₃
    exact (Nat.le_add_right _ _).trans hp₃
termination_by ws.length
decreasing_by
  have hpos := blockEnd_pos (by assumption : ws ≠ [])
  have hle := blockEnd_le ws
  rw [List.length_drop]
  omega

theorem length_delta_setMany (p : PackedBlobs) (pairs : List (Nat × Value)) : Meets false (p.setMany pairs)
    (fun p' => p.deltaBlocks.elems.length + (if pairs = [] then 0 else 1) ≤
      p'.deltaBlocks.elems.length) := by
  rw [PackedBlobs.setMany]
  split
  · exact Meets.pure le_rfl
  · refine (meets_appendDeltaBlock p _).bind fun p₁ hp₁ =>
      ((yields_setRows _ _ 0 p₁).meets false).bind fun p₂ hp₂ => ?_
    refine (length_delta_setMany p₂ (pairs.drop (pairsEnd pairs))).mono fun p₃ hp₃ => ?_
    rw [hp₂, hp₁] at hp₃
    exact (Nat.le_add_right _ _).trans hp₃
termination_by pairs.length
decreasing_by
  have hpos := pairsEnd_pos (by assumption : pairs ≠ [])
  have hle := pairsEnd_le pairs
  rw [List.length_drop]
  omega

theorem length_delta_insert (p : PackedBlobs) (ndx : Nat) (v : Value) : Meets false (p.insert ndx v)
    (fun p' => p'.deltaBlocks.elems.length = p.deltaBlocks.elems.length + 1) := by
  refine (meets_appendDeltaBlock p [v]).bind fun p₁ hp₁ => Yields.meets ?_ false
  refine (Arr.yields_grow _ _).bind fun a _ => (yields_setOverrides p₁ a).bind fun p₂ hp₂ => ?_
  obtain ⟨r₂, rfl⟩ := hp₂
  refine (Arr.yields_grow _ _).bind fun o _ => (yields_setOrder _ o).mono fun p₃ hp₃ => ?_
  obtain ⟨r₃, rfl⟩ := hp₃
  exact hp₁

theorem delta_erase (p : PackedBlobs) (ndx : Nat) :
    Yields (p.erase ndx) (fun p' => p'.deltaBlocks = p.deltaBlocks) := by
  refine (Arr.yields_change _ _).bind fun o _ => (yields_setOrder p o).mono fun p' hp' => ?_
  obtain ⟨r, rfl⟩ := hp'
  rfl

theorem delta_truncate (p : PackedBlobs) (n : Nat) :
    Yields (p.truncate n) (fun p' => p'.deltaBlocks = p.deltaBlocks) := by
  unfold truncate
  split
  · refine (Arr.yields_truncate _ _).bind fun o _ => (yields_setOrder p o).mono fun p' hp' => ?_
    obtain ⟨r, rfl⟩ := hp'
    rfl
  · exact Yields.pure rfl

theorem Op.mem_of_no_delta (o : Op) {s s' : Ledger} (hrun : o.run p s = some (p', s'))
    (hnil : p'.deltaBlocks.elems = []) :
    p.deltaBlocks.elems = [] ∧ ∀ v ∈ o.onList vs, v ∈ vs := by
  have hnone : p'.deltaBlocks.elems.length = 0 := congrArg List.length hnil
  cases o with
  | append ws =>
    have hlen := (length_delta_append p ws).of_eq_some hrun
    by_cases hws : ws = []
    · rw [if_pos hws] at hlen
      refine ⟨List.length_eq_zero_iff.mp (by omega), fun v hv => ?_⟩
      rw [hws] at hv
      exact List.append_nil vs ▸ hv
    · rw [if_neg hws] at hlen
      omega
  | insert ndx v =>
    have hlen := (length_delta_insert p ndx v).of_eq_some hrun
    omega
  | set ndx v =>
    have hlen := (length_delta_setMany p [(ndx, v)]).of_eq_some hrun
    rw [if_neg (List.cons_ne_nil _ _)] at hlen
    omega
  | setMany pairs =>
    have hlen := (length_delta_setMany p pairs).of_eq_some hrun
    by_cases hpairs : pairs = []
    · rw [if_pos hpairs] at hlen
      refine ⟨List.length_eq_zero_iff.mp (by omega), fun v hv => ?_⟩
      rw [hpairs] at hv
      exact hv
    · rw [if_neg hpairs] at hlen
      omega
  | erase ndx =>
    have hdelta := ((delta_erase p ndx).meets false).of_eq_some hrun
    exact ⟨hdelta ▸ hnil, fun v hv => List.mem_of_mem_eraseIdx hv⟩
  | truncate n =>
    have hdelta := ((delta_truncate p n).meets false).of_eq_some hrun
    exact ⟨hdelta ▸ hnil, fun v hv => List.mem_of_mem_take hv⟩

theorem Reached.size_le (h : Reached p vs) (hnil : p.deltaBlocks.elems = []) : ∀ v ∈ vs, v.size ≤ maxValue := by
  induction h with
  | create hrun => exact ((canPack_iff _).mp (canPack_of_create hrun)).2
  | op o _ hin hrun ih =>
    obtain ⟨hbefore, hmem⟩ := o.mem_of_no_delta hrun hnil
    exact fun v hv => ih hbefore v (hmem v hv)

theorem delta_eq_nil_of_not_needsNormalize (h : p.needsNormalize = false) : p.deltaBlocks.elems = [] := by
  unfold needsNormalize at h
  simp only [Bool.or_eq_false_iff, bne_eq_false_iff_eq, List.length_eq_zero_iff] at h
  exact h.1.1.1.1

theorem Fresh.needsNormalize_eq (h : p.Fresh vs) : p.needsNormalize = false := by
  obtain ⟨⟨groups, hgroups, hflat⟩, hdelta, hov, ho⟩ := h
  have hend : p.baseEnds.elems.getLast?.getD 0 = vs.length := by
    rw [hgroups.ends_eq, ← hflat, length_flatten_eq_span]
    exact getLastD_ends _ groups
  unfold needsNormalize
  rw [hdelta, hov, ho, hend]
  simp

end PackedBlobs

/-! ## Normalization -/

namespace Binary

open PackedBlobs

variable {p : PackedBlobs} {vs : List Value}

/-- Whether the leaf is packed and `needs_normalize`; `normalize_packed` returns it. -/
def needsNormalize : Binary → Bool
  | packed p => p.needsNormalize
  | _ => false

theorem normalizePacked_of_not_needs {l : Binary} (h : l.needsNormalize = false) :
    l.normalizePacked = pure l := by
  cases l with
  | small s => rfl
  | big b => rfl
  | packed p => exact if_pos h

/-- Normalizing keeps the list, leaves nothing to normalize, and a second time changes nothing. -/
def Normalizes (l : Binary) (vs : List Value) : Prop :=
  Yields l.normalizePacked fun l' =>
    l'.valuesFrom 0 = some vs ∧ l'.needsNormalize = false ∧ l'.normalizePacked = pure l'

theorem normalizes_of {l : Binary}
    (h : Yields l.normalizePacked fun l' => l'.Holds vs ∧ l'.needsNormalize = false) : Normalizes l vs :=
  h.mono fun _ ⟨hl, hneeds⟩ => ⟨hl.valuesFrom_eq 0, hneeds, normalizePacked_of_not_needs hneeds⟩

theorem normalizes_of_size_le (h : p.Holds vs) (hsize : ∀ v ∈ vs, v.size ≤ maxValue) :
    Normalizes (packed p) vs := by
  refine normalizes_of ?_
  have hlen : p.size = vs.length := PackedBlobs.Holds.size_eq h
  dsimp only [Binary.normalizePacked]
  split
  · rename_i hneeds
    exact Yields.pure ⟨h, hneeds⟩
  · split
    · rename_i hzero
      have hnil : vs = [] := List.length_eq_zero_iff.mp (hlen.symm.trans hzero)
      subst hnil
      refine (holds_replaceWithEmpty (packed p)).mono fun l' hl' => ⟨hl'.1, ?_⟩
      cases l' with
      | small s => rfl
      | big b => exact absurd hl'.2 Bool.false_ne_true
      | packed q => exact absurd hl'.2 Bool.false_ne_true
    · rename_i hzero
      refine (Holds.yields_readFrom (l := packed p) h 0).bind fun us hus => ?_
      rw [List.drop_zero] at hus
      subst hus
      have hne : us ≠ [] := fun hnil => hzero (hlen.trans (congrArg List.length hnil))
      refine (fresh_replaceWithPacked (packed p) ((canPack_iff us).mpr ⟨hne, hsize⟩)).mono ?_
      rintro l' ⟨q, rfl, hq⟩
      exact ⟨hq.holds, hq.needsNormalize_eq⟩

theorem normalizePacked_eq_none (h : p.Holds vs) (hneeds : p.needsNormalize = true) {v : Value} (hv : v ∈ vs)
    (hlarge : maxValue < v.size) (s : Ledger) : (packed p).normalizePacked s = none := by
  have hlen : p.size = vs.length := PackedBlobs.Holds.size_eq h
  have hzero : ¬ p.size = 0 := by
    rw [hlen]
    exact (List.length_pos_of_mem hv).ne'
  have hpack : canPack vs = false := by
    rw [Bool.eq_false_iff]
    intro hcan
    exact absurd (((canPack_iff vs).mp hcan).2 v hv) (Nat.not_le.mpr hlarge)
  have hvals : (packed p).valuesFrom 0 = some vs := Holds.valuesFrom_eq (l := packed p) h 0
  dsimp only [Binary.normalizePacked]
  rw [if_neg (by rw [hneeds]; decide), if_neg hzero]
  unfold readFrom
  rw [hvals]
  change (PackedBlobs.create vs s).bind _ = none
  unfold PackedBlobs.create
  rw [if_pos hpack]
  rfl

/-- **After every history** the reads agree with the list, and normalizing works exactly when no value
is above the limit of `can_pack`. -/
theorem normalizes_iff (h : Reached p vs) :
    p.ReadsAs vs ∧ (Normalizes (packed p) vs ↔ ∀ v ∈ vs, v.size ≤ maxValue) := by
  refine ⟨h.holds.readsAs, fun hnorm => ?_, normalizes_of_size_le h.holds⟩
  cases hneeds : p.needsNormalize with
  | false => exact h.size_le (delta_eq_nil_of_not_needsNormalize hneeds)
  | true =>
    intro v hv
    by_contra hlarge
    obtain ⟨l', s', hrun, -⟩ := hnorm emptyLedger
    rw [normalizePacked_eq_none h.holds hneeds hv (Nat.not_le.mp hlarge)] at hrun
    cases hrun

/-- A new leaf of two values of which the second was set to null. -/
theorem normalizes_null : ∃ p, Reached p [some [7], none] ∧ p.ReadsAs [some [7], none] ∧
    (Normalizes (packed p) [some [7], none] ↔ ∀ v : Value, v ∈ [some [7], none] → v.size ≤ maxValue) := by
  have hpack : canPack [some [7], some []] = true := by decide
  obtain ⟨p, s, hcreate, hp⟩ := PackedBlobs.holds_create hpack emptyLedger
  have hset : Meets true (p.setMany [(1, none)]) (PackedBlobs.Holds · _) :=
    hp.setMany [(1, none)] (by decide) fun _ => by decide
  obtain ⟨p', s', hrun, -⟩ := hset.yields s
  have hreached : Reached p' [some [7], none] :=
    Reached.op (.set 1 none) (Reached.create hcreate) (Nat.lt_succ_self 1) hrun
  exact ⟨p', hreached, normalizes_iff hreached⟩

/-- A value of 16777176 bytes is accepted by `insert`, but the leaf can then not be normalized. -/
theorem inserted_value_blocks_normalization : ∃ (p : PackedBlobs) (v : Value), v.size = 16777176 ∧
    Reached p [v, some []] ∧
    p.needsNormalize = true ∧ (∀ s, (packed p).normalizePacked s = none) ∧
    ¬ Normalizes (packed p) [v, some []] := by
  obtain ⟨v, hv⟩ : ∃ v : Value, v.size = 16777176 :=
    ⟨some (List.replicate 16777176 0), List.length_replicate⟩
  have hpack : canPack [some []] = true := by decide
  obtain ⟨p₀, s₀, hcreate, hp₀⟩ := PackedBlobs.holds_create hpack emptyLedger
  have hfits : BlockFits [v] := by
    simp only [BlockFits, List.length_singleton, span_cons, span_nil, hv]
    decide
  have hmeets : Meets true (p₀.insert 0 v) (PackedBlobs.Holds · [v, some []]) :=
    hp₀.insert_of_fits (Nat.zero_le _) fun _ => hfits
  obtain ⟨p, s, hinsert, hp⟩ := hmeets.yields s₀
  have hneeds : p.needsNormalize = true := by
    have hlen := (length_delta_insert p₀ 0 v).of_eq_some hinsert
    by_contra hnot
    have hnil := delta_eq_nil_of_not_needsNormalize (Bool.eq_false_iff.mpr hnot)
    rw [hnil] at hlen
    exact absurd hlen (Nat.succ_ne_zero _).symm
  have hthrows : ∀ s, (packed p).normalizePacked s = none :=
    normalizePacked_eq_none hp hneeds List.mem_cons_self (by rw [hv]; decide)
  refine ⟨p, v, hv, Reached.op (.insert 0 v) (Reached.create hcreate) (Nat.zero_le _) hinsert, hneeds,
    hthrows, fun hnorm => ?_⟩
  obtain ⟨l', s', hrun, -⟩ := hnorm s
  rw [hthrows s] at hrun
  cases hrun

end Binary

end Llbt.Leaf
