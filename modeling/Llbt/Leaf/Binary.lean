import Llbt.Leaf.Packed

/-!
# Binary leaves (`array_binary.cpp`)

An `ArrayBinary` is a `SmallBlobs` until a value of more than 64 bytes arrives.  It then becomes a
`BigBlobs`, or, where values are appended in bulk and are worth it, a `PackedBlobs`.

* `Holds l vs` — the leaf stores the values `vs`, whichever of the three it is;
* `Holds.add`, `Holds.append`, `Holds.set`, `Holds.setMany`, `Holds.insert`, `Holds.erase`,
  `Holds.truncate`, `Holds.move`, `Holds.clear`, `Holds.normalizePacked` — the operations.  A small leaf
  must keep its bytes within one blob (`Room`); an operation may throw only where a packed leaf
  refuses a value.
-/

set_option autoImplicit false

namespace Llbt.Leaf

open Ownership Segments Packed

inductive Binary where
  | small (s : SmallBlobs)
  | big (b : BigBlobs)
  | packed (p : PackedBlobs)

namespace Binary

def smallBlobMaxSize : Nat := 64

def isSmall : Binary → Bool
  | small _ => true
  | _ => false

def ref : Binary → Ref
  | small s => s.ref
  | big b => b.ref
  | packed p => p.ref

def blocks : Binary → List Ref
  | small s => s.blocks
  | big b => b.blocks
  | packed p => p.blocks

def size : Binary → Nat
  | small s => s.size
  | big b => b.size
  | packed p => p.size

def get : Binary → Nat → Option Value
  | small s, ndx => s.get ndx
  | big b, ndx => b.get ndx
  | packed p, ndx => p.get ndx

/-- `get_at`, called until the position is zero again. -/
def readAll : Binary → Nat → Option Value
  | small s, ndx => s.get ndx
  | big b, ndx => b.readAll ndx
  | packed p, ndx => p.get ndx

/-- Whether `find_first` stops at `ndx`. -/
def isMatch (refBytes : List Ref → Bytes) : Binary → Value → Nat → Bool
  | small s, v, ndx => s.isMatch v false ndx
  | big b, v, ndx => b.isMatch refBytes v false ndx
  | packed p, v, ndx => p.isMatch v ndx

def findFirst (refBytes : List Ref → Bytes) (l : Binary) (v : Value) (first last : Nat) : Option Nat :=
  (List.range' first (last - first)).find? (l.isMatch refBytes v)

/-- The values from `ndx` on, as a loop over `get` finds them; `none` is a read outside a blob. -/
def valuesFrom (l : Binary) (ndx : Nat) : Option (List Value) :=
  (List.range' ndx (l.size - ndx)).mapM l.get

def readFrom (l : Binary) (ndx : Nat) : Prog (List Value) :=
  match l.valuesFrom ndx with
  | some vs => pure vs
  | none => failure

def create : Prog Binary := do
  let s ← SmallBlobs.create
  pure (small s)

/-- `create(values, count)`. -/
def createFrom (vs : List Value) : Prog Binary :=
  if vs.any (fun v => smallBlobMaxSize < v.size) = false then do
    let s ← SmallBlobs.createFrom vs
    pure (small s)
  else if 4096 < span Value.size vs ∧ canPack vs = true then do
    let p ← PackedBlobs.create vs
    pure (packed p)
  else do
    let b ← BigBlobs.createFrom vs
    pure (big b)

/-- A small leaf becomes a big one. -/
def upgrade (s : SmallBlobs) : Prog BigBlobs := do
  let vs ← (small s).readFrom 0
  let b ← BigBlobs.create
  let b ← b.addAll false vs
  s.destroy
  pure b

def add : Binary → Value → Prog Binary
  | packed p, v => do
    let p ← p.add v
    pure (packed p)
  | big b, v => do
    let b ← b.add v false
    pure (big b)
  | small s, v =>
    if v.size ≤ smallBlobMaxSize then do
      let s ← s.add v false
      pure (small s)
    else do
      let b ← upgrade s
      let b ← b.add v false
      pure (big b)

def addAll (l : Binary) : List Value → Prog Binary
  | [] => pure l
  | v :: vs => do
    let l ← l.add v
    l.addAll vs

def destroy : Binary → Prog Unit
  | small s => s.destroy
  | big b => b.destroy
  | packed p => p.destroy

def replaceWithPacked (l : Binary) (vs : List Value) : Prog Binary := do
  let p ← PackedBlobs.create vs
  l.destroy
  pure (packed p)

def replaceWithEmpty (l : Binary) : Prog Binary := do
  let s ← SmallBlobs.create
  l.destroy
  pure (small s)

/-- The second half of `append`, for a leaf that is not packed: `old` is what the leaf holds. -/
def appendTo (l : Binary) (old vs : List Value) : Prog Binary :=
  if (old ++ vs).any (fun v => smallBlobMaxSize < v.size) = true ∧ 4096 < span Value.size (old ++ vs) ∧
      canPack (old ++ vs) = true then
    l.replaceWithPacked (old ++ vs)
  else l.addAll vs

def append : Binary → List Value → Prog Binary
  | packed p, vs => do
    let p ← p.append vs
    pure (packed p)
  | l, vs =>
    if vs = [] then pure l
    else do
      let old ← l.readFrom 0
      l.appendTo old vs

def set : Binary → Nat → Value → Prog Binary
  | packed p, ndx, v => do
    let p ← p.set ndx v
    pure (packed p)
  | big b, ndx, v => do
    let b ← b.set ndx v false
    pure (big b)
  | small s, ndx, v =>
    if v.size ≤ smallBlobMaxSize then do
      let s ← s.set ndx v false
      pure (small s)
    else do
      let b ← upgrade s
      let b ← b.set ndx v false
      pure (big b)

def setEach (l : Binary) : List (Nat × Value) → Prog Binary
  | [] => pure l
  | (ndx, v) :: rest => do
    let l ← l.set ndx v
    l.setEach rest

/-- `set_many`, with the positions relative to the leaf. -/
def setMany : Binary → List (Nat × Value) → Prog Binary
  | packed p, pairs => do
    let p ← p.setMany pairs
    pure (packed p)
  | l, pairs => l.setEach pairs

def insert : Binary → Nat → Value → Prog Binary
  | packed p, ndx, v => do
    let p ← p.insert ndx v
    pure (packed p)
  | big b, ndx, v => do
    let b ← b.insert ndx v false
    pure (big b)
  | small s, ndx, v =>
    if v.size ≤ smallBlobMaxSize then do
      let s ← s.insert ndx v false
      pure (small s)
    else do
      let b ← upgrade s
      let b ← b.insert ndx v false
      pure (big b)

def erase : Binary → Nat → Prog Binary
  | small s, ndx => do
    let s ← s.erase ndx
    pure (small s)
  | big b, ndx => do
    let b ← b.erase ndx
    pure (big b)
  | packed p, ndx => do
    let p ← p.erase ndx
    pure (packed p)

def truncate : Binary → Nat → Prog Binary
  | small s, n => do
    let s ← s.truncate n
    pure (small s)
  | big b, n => do
    let b ← b.truncate n
    pure (big b)
  | packed p, n => do
    let p ← p.truncate n
    pure (packed p)

def move (src dst : Binary) (ndx : Nat) : Prog (Binary × Binary) := do
  let moved ← src.readFrom ndx
  let dst ← dst.append moved
  let src ← src.truncate ndx
  pure (src, dst)

def clear : Binary → Prog Binary
  | small s => do
    let s ← s.clear
    pure (small s)
  | big b => do
    let b ← b.clear
    pure (big b)
  | packed p => replaceWithEmpty (packed p)

def normalizePacked : Binary → Prog Binary
  | packed p =>
    if p.needsNormalize = false then pure (packed p)
    else if p.size = 0 then replaceWithEmpty (packed p)
    else do
      let vs ← (packed p).readFrom 0
      replaceWithPacked (packed p) vs
  | l => pure l

/-! ## The list it stands for -/

/-- The bytes of the values that a small leaf may take. -/
def smallTotal (vs : List Value) : Nat :=
  span (fun v : Value => if v.size ≤ smallBlobMaxSize then v.size else 0) vs

/-- The leaf stores the values `vs`. -/
def Holds : Binary → List Value → Prop
  | small s, vs => s.Holds false vs ∧ (∀ v ∈ vs, v.size ≤ smallBlobMaxSize) ∧
      span Value.size vs ≤ maxBinarySize
  | big b, vs => b.Holds false vs
  | packed p, vs => p.Holds vs

/-- The values `ws` still find room in the blob of a small leaf that stores `vs`. -/
def Room (l : Binary) (vs ws : List Value) : Prop :=
  l.isSmall = true → smallTotal vs + smallTotal ws ≤ maxBinarySize

variable {total : Bool} {l dst : Binary} {vs ws us : List Value} {v : Value} {ndx : Nat}

theorem smallTotal_append (vs ws : List Value) :
    smallTotal (vs ++ ws) = smallTotal vs + smallTotal ws := span_append _ _ _

theorem smallTotal_singleton (h : v.size ≤ smallBlobMaxSize) : smallTotal [v] = v.size := by
  simp [smallTotal, h]

theorem smallTotal_eq : ∀ {vs : List Value}, (∀ v ∈ vs, v.size ≤ smallBlobMaxSize) →
    smallTotal vs = span Value.size vs
  | [], _ => rfl
  | v :: vs, h => by
    have ih := smallTotal_eq fun w hw => h w (List.mem_cons_of_mem v hw)
    have hv := smallTotal_singleton (h v List.mem_cons_self)
    rw [← List.singleton_append, smallTotal_append, span_append, ih, hv]
    simp

theorem plen_false (v : Value) : SmallBlobs.plen false v = v.size := rfl

theorem fits_false (h : v.size ≤ maxBinarySize) : BigBlobs.Fits false v := h

theorem smallBlobMaxSize_le : smallBlobMaxSize ≤ maxBinarySize := by decide

theorem Holds.size_eq (h : l.Holds vs) : l.size = vs.length := by
  cases l with
  | small s => exact h.1.size_eq
  | big b => exact h.length_eq
  | packed p => exact PackedBlobs.Holds.size_eq h

theorem map_stored_false (w : Value) : w.map (Blob.stored · false) = w := by
  cases w <;> rfl

theorem Holds.get_eq (h : l.Holds vs) (hv : vs[ndx]? = some v) : l.get ndx = some v := by
  cases l with
  | small s => exact (h.1.getAt hv).trans (congrArg some (map_stored_false v))
  | big b => exact (BigBlobs.Holds.get_eq h hv).trans (congrArg some (map_stored_false v))
  | packed p => exact (PackedBlobs.Holds.get_eq h ndx).trans hv

theorem Holds.readAll_eq (h : l.Holds vs) (hv : vs[ndx]? = some v) : l.readAll ndx = some v := by
  cases l with
  | small s => exact (h.1.getAt hv).trans (congrArg some (map_stored_false v))
  | big b => exact (BigBlobs.Holds.readAll_eq h hv).trans (congrArg some (map_stored_false v))
  | packed p => exact (PackedBlobs.Holds.get_eq h ndx).trans hv

theorem Holds.isMatch_eq (refBytes : List Ref → Bytes) (h : l.Holds vs) {w : Value}
    (hw : vs[ndx]? = some w) (v : Value) : l.isMatch refBytes v ndx = decide (w = v) := by
  cases l with
  | small s => exact h.1.isMatchAt hw v
  | big b => exact BigBlobs.Holds.isMatch_eq refBytes h hw v
  | packed p => exact PackedBlobs.Holds.isMatch_eq h hw v

/-- **`find_first`** finds the first place of the value and no other value. -/
theorem Holds.findFirst_eq (refBytes : List Ref → Bytes) (h : l.Holds vs) (v : Value) {first last : Nat}
    (hlast : last ≤ vs.length) : l.findFirst refBytes v first last =
      (List.range' first (last - first)).find? (fun i => decide (vs[i]? = some v)) := by
  unfold findFirst
  apply List.find?_congr
  intro i hi
  obtain ⟨k, hk, rfl⟩ := List.mem_range'.mp hi
  have hlt : first + 1 * k < vs.length := by omega
  have hget : vs[first + 1 * k]? = some vs[first + 1 * k] := List.getElem?_eq_getElem hlt
  rw [h.isMatch_eq refBytes hget v, hget]
  simp

theorem mapM_eq_some_of_map {α β : Type} {f : α → Option β} : ∀ {xs : List α} {ys : List β},
    xs.map f = ys.map some → xs.mapM f = some ys
  | [], [], _ => rfl
  | x :: xs, y :: ys, h => by
    obtain ⟨hx, hxs⟩ := List.cons.inj h
    rw [List.mapM_cons, hx, mapM_eq_some_of_map hxs]
    rfl

theorem Holds.valuesFrom_eq (h : l.Holds vs) (ndx : Nat) : l.valuesFrom ndx = some (vs.drop ndx) := by
  refine mapM_eq_some_of_map (List.ext_getElem ?_ fun i hi hi' => ?_)
  · rw [List.length_map, List.length_range', List.length_map, List.length_drop, h.size_eq]
  · rw [List.length_map, List.length_drop] at hi'
    have hlt : ndx + i < vs.length := by omega
    have hget : vs[ndx + i]? = some vs[ndx + i] := List.getElem?_eq_getElem hlt
    simp only [List.getElem_map, List.getElem_range', Nat.one_mul, List.getElem_drop]
    exact h.get_eq hget

theorem Holds.yields_readFrom (h : l.Holds vs) (ndx : Nat) :
    Yields (l.readFrom ndx) (fun us => us = vs.drop ndx) := by
  unfold readFrom
  rw [h.valuesFrom_eq ndx]
  exact Yields.pure rfl

/-! ## Conversions -/

theorem holds_create : Yields create (fun l => l.Holds [] ∧ l.isSmall = true) :=
  (SmallBlobs.holds_create false).bind fun _ hs =>
    Yields.pure ⟨⟨hs, fun _ hv => absurd hv List.not_mem_nil, Nat.zero_le _⟩, rfl⟩

theorem holds_upgrade {s : SmallBlobs} (h : (small s).Holds vs) :
    Yields (upgrade s) (BigBlobs.Holds false · vs) := by
  refine (h.yields_readFrom 0).bind fun us hus => (BigBlobs.holds_create false).bind fun b hb => ?_
  rw [List.drop_zero] at hus
  subst hus
  refine (hb.addAll us fun u hu => ?_).bind fun b' hb' => (Yields.freeAll _).bind fun _ _ => Yields.pure hb'
  exact fits_false ((h.2.1 u hu).trans smallBlobMaxSize_le)

theorem yields_destroy (l : Binary) : Yields l.destroy (fun _ => True) := by
  cases l <;> exact Yields.freeAll _

theorem fresh_replaceWithPacked (l : Binary) (hpack : canPack vs = true) :
    Yields (l.replaceWithPacked vs) (fun l' => ∃ p, l' = packed p ∧ p.Fresh vs) :=
  (PackedBlobs.fresh_create hpack).bind fun p hp =>
    (yields_destroy l).bind fun _ _ => Yields.pure ⟨p, rfl, hp⟩

theorem holds_replaceWithPacked (l : Binary) (hpack : canPack vs = true) :
    Yields (l.replaceWithPacked vs) (Holds · vs) :=
  (fresh_replaceWithPacked l hpack).mono fun _ ⟨_, hl, hp⟩ => hl ▸ hp.holds

theorem holds_replaceWithEmpty (l : Binary) :
    Yields l.replaceWithEmpty (fun l' => l'.Holds [] ∧ l'.isSmall = true) :=
  (SmallBlobs.holds_create false).bind fun _ hs => (yields_destroy l).bind fun _ _ =>
    Yields.pure ⟨⟨hs, fun _ hv => absurd hv List.not_mem_nil, Nat.zero_le _⟩, rfl⟩

/-! ## Operations -/

/-- A value may be stored: it fits into one blob, and if the operation must not throw, into a packed
leaf too. -/
structure Storable (total : Bool) (v : Value) : Prop where
  fits : v.size ≤ maxBinarySize
  pack : total = true → v.size ≤ maxValue

theorem small_room {s : SmallBlobs} (h : (small s).Holds vs) (hroom : (small s).Room vs [v])
    (hv : v.size ≤ smallBlobMaxSize) : span Value.size vs + v.size ≤ maxBinarySize := by
  have hle := hroom rfl
  rw [smallTotal_eq h.2.1, smallTotal_singleton hv] at hle
  exact hle

theorem Holds.add (h : l.Holds vs) (hv : Storable total v) (hroom : l.Room vs [v]) :
    Meets total (l.add v)
      (fun l' => l'.Holds (vs ++ [v]) ∧ (l'.isSmall = true → l.isSmall = true)) := by
  cases l with
  | small s =>
    refine Yields.meets ?_ total
    dsimp only [Binary.add]
    split
    · rename_i hsmall
      have hspan := small_room h hroom hsmall
      refine (h.1.add v hspan).bind fun s' hs' => Yields.pure ⟨⟨hs', fun w hw => ?_, ?_⟩, fun _ => rfl⟩
      · rcases List.mem_append.mp hw with hw | hw
        · exact h.2.1 w hw
        · rw [List.mem_singleton.mp hw]
          exact hsmall
      · simpa using hspan
    · exact (holds_upgrade h).bind fun b hb => (hb.add (fits_false hv.fits)).bind fun b' hb' =>
        Yields.pure ⟨hb', fun hf => absurd hf Bool.false_ne_true⟩
  | big b =>
    exact Yields.meets ((BigBlobs.Holds.add h (fits_false hv.fits)).bind fun b' hb' =>
      Yields.pure ⟨hb', fun hf => absurd hf Bool.false_ne_true⟩) total
  | packed p =>
    refine (PackedBlobs.Holds.append h [v] fun ht w hw => ?_).bind fun p' hp' =>
      Meets.pure ⟨hp', fun hf => absurd hf Bool.false_ne_true⟩
    rw [List.mem_singleton.mp hw]
    exact hv.pack ht

theorem Room.head {w : Value} (h : l.Room vs (w :: ws)) : l.Room vs [w] := by
  intro hs
  have hle := h hs
  rw [← List.singleton_append, smallTotal_append] at hle
  omega

theorem Room.tail {w : Value} {l' : Binary} (h : l.Room vs (w :: ws))
    (hsmall : l'.isSmall = true → l.isSmall = true)
    (hus : smallTotal us ≤ smallTotal vs + smallTotal [w]) : l'.Room us ws := by
  intro hs
  have hle := h (hsmall hs)
  rw [← List.singleton_append, smallTotal_append] at hle
  omega

theorem Holds.addAll : ∀ (ws : List Value) {l : Binary} {vs : List Value}, l.Holds vs →
    (∀ w ∈ ws, Storable total w) → l.Room vs ws → Meets total (l.addAll ws) (Holds · (vs ++ ws))
  | [], l, vs, h, _, _ => Meets.pure (by rw [List.append_nil]; exact h)
  | w :: ws, l, vs, h, hws, hroom => by
    refine (h.add (hws w List.mem_cons_self) hroom.head).bind fun l' hl' => ?_
    have hrec := Holds.addAll ws hl'.1 (fun u hu => hws u (List.mem_cons_of_mem w hu))
      (hroom.tail hl'.2 (smallTotal_append vs [w]).le)
    rw [List.append_assoc] at hrec
    exact hrec

/-- **`append`**, with or without a conversion. -/
theorem Holds.append (h : l.Holds vs) (hws : ∀ w ∈ ws, Storable total w) (hroom : l.Room vs ws) :
    Meets total (l.append ws) (Holds · (vs ++ ws)) := by
  have hplain : Meets total (if ws = [] then pure l else do
      let old ← l.readFrom 0
      l.appendTo old ws) (Holds · (vs ++ ws)) := by
    split
    · rename_i hnil
      rw [hnil]
      exact Meets.pure (by rw [List.append_nil]; exact h)
    · refine ((h.yields_readFrom 0).meets total).bind fun old hold => ?_
      rw [List.drop_zero] at hold
      subst hold
      unfold appendTo
      split
      · rename_i hpack
        exact (holds_replaceWithPacked l hpack.2.2).meets total
      · exact h.addAll ws hws hroom
  cases l with
  | small s => exact hplain
  | big b => exact hplain
  | packed p =>
    exact (PackedBlobs.Holds.append h ws fun ht w hw => (hws w hw).pack ht).bind fun p' hp' =>
      Meets.pure hp'

theorem smallTotal_set_le (vs : List Value) (ndx : Nat) (v : Value) :
    smallTotal (vs.set ndx v) ≤ smallTotal vs + smallTotal [v] := by
  by_cases hndx : ndx < vs.length
  · obtain ⟨w, hw⟩ : ∃ w, vs[ndx]? = some w := ⟨_, List.getElem?_eq_getElem hndx⟩
    obtain ⟨pre, post, rfl, rfl⟩ := exists_mid hw
    rw [set_mid]
    simp only [smallTotal, span_append, span_cons, span_nil]
    omega
  · rw [List.set_eq_of_length_le (Nat.not_lt.mp hndx)]
    exact Nat.le_add_right _ _

theorem span_set_le (vs : List Value) (ndx : Nat) (v : Value) :
    span Value.size (vs.set ndx v) ≤ span Value.size vs + v.size := by
  by_cases hndx : ndx < vs.length
  · obtain ⟨w, hw⟩ : ∃ w, vs[ndx]? = some w := ⟨_, List.getElem?_eq_getElem hndx⟩
    obtain ⟨pre, post, rfl, rfl⟩ := exists_mid hw
    rw [set_mid]
    simp only [span_append, span_cons]
    omega
  · rw [List.set_eq_of_length_le (Nat.not_lt.mp hndx)]
    exact Nat.le_add_right _ _

theorem Holds.set (h : l.Holds vs) (hndx : ndx < vs.length) (hv : Storable total v)
    (hroom : l.Room vs [v]) : Meets total (l.set ndx v)
      (fun l' => l'.Holds (vs.set ndx v) ∧ (l'.isSmall = true → l.isSmall = true)) := by
  have hget : vs[ndx]? = some vs[ndx] := List.getElem?_eq_getElem hndx
  cases l with
  | small s =>
    refine Yields.meets ?_ total
    dsimp only [Binary.set]
    split
    · rename_i hsmall
      have hspan := (span_set_le vs ndx v).trans (small_room h hroom hsmall)
      refine (h.1.setAt hndx hspan).bind fun s' hs' => Yields.pure ⟨⟨hs', fun w hw => ?_, hspan⟩, fun _ => rfl⟩
      rcases List.mem_or_eq_of_mem_set hw with hw | hw
      · exact h.2.1 w hw
      · rw [hw]
        exact hsmall
    · exact (holds_upgrade h).bind fun b hb => (hb.set hget (fits_false hv.fits)).bind fun b' hb' =>
        Yields.pure ⟨hb', fun hf => absurd hf Bool.false_ne_true⟩
  | big b =>
    exact Yields.meets ((BigBlobs.Holds.set h hget (fits_false hv.fits)).bind fun b' hb' =>
      Yields.pure ⟨hb', fun hf => absurd hf Bool.false_ne_true⟩) total
  | packed p =>
    refine (PackedBlobs.Holds.setMany h [(ndx, v)] (fun q hq => ?_) fun ht q hq => ?_).bind fun p' hp' =>
      Meets.pure ⟨hp', fun hf => absurd hf Bool.false_ne_true⟩
    · rw [List.mem_singleton.mp hq]
      exact hndx
    · rw [List.mem_singleton.mp hq]
      exact hv.pack ht

theorem Holds.setEach : ∀ (pairs : List (Nat × Value)) {l : Binary} {vs : List Value}, l.Holds vs →
    (∀ q ∈ pairs, q.1 < vs.length ∧ Storable total q.2) → l.Room vs (pairs.map Prod.snd) →
      Meets total (l.setEach pairs) (Holds · (Segments.setAll vs pairs))
  | [], l, vs, h, _, _ => Meets.pure h
  | (ndx, v) :: pairs, l, vs, h, hpairs, hroom => by
    obtain ⟨hndx, hv⟩ := hpairs (ndx, v) List.mem_cons_self
    refine (h.set hndx hv hroom.head).bind fun l' hl' => ?_
    refine Holds.setEach pairs hl'.1 (fun q hq => ?_)
      (hroom.tail hl'.2 (smallTotal_set_le vs ndx v))
    rw [List.length_set]
    exact hpairs q (List.mem_cons_of_mem _ hq)

theorem Holds.setMany (h : l.Holds vs) {pairs : List (Nat × Value)}
    (hpairs : ∀ q ∈ pairs, q.1 < vs.length ∧ Storable total q.2) (hroom : l.Room vs (pairs.map Prod.snd)) :
    Meets total (l.setMany pairs) (Holds · (Segments.setAll vs pairs)) := by
  cases l with
  | small s => exact h.setEach pairs hpairs hroom
  | big b => exact Holds.setEach pairs h hpairs hroom
  | packed p =>
    exact (PackedBlobs.Holds.setMany h pairs (fun q hq => (hpairs q hq).1)
      fun ht q hq => (hpairs q hq).2.pack ht).bind fun p' hp' => Meets.pure hp'

theorem span_insertIdx {vs : List Value} {ndx : Nat} (hndx : ndx ≤ vs.length) (v : Value) :
    span Value.size (vs.insertIdx ndx v) = span Value.size vs + v.size := by
  obtain ⟨pre, post, rfl, rfl⟩ := exists_cut hndx
  rw [insertIdx_mid]
  simp only [span_append, span_cons]
  omega

theorem Holds.insert (h : l.Holds vs) (hndx : ndx ≤ vs.length) (hv : Storable total v)
    (hroom : l.Room vs [v]) : Meets total (l.insert ndx v) (Holds · (vs.insertIdx ndx v)) := by
  cases l with
  | small s =>
    refine Yields.meets ?_ total
    dsimp only [Binary.insert]
    split
    · rename_i hsmall
      have hspan := (span_insertIdx hndx v).le.trans (small_room h hroom hsmall)
      refine (h.1.insertAt hndx hspan).bind fun s' hs' => Yields.pure ⟨hs', fun w hw => ?_, hspan⟩
      rcases (List.mem_insertIdx hndx).mp hw with hw | hw
      · rw [hw]
        exact hsmall
      · exact h.2.1 w hw
    · exact (holds_upgrade h).bind fun b hb =>
        (hb.insert hndx (fits_false hv.fits)).bind fun b' hb' => Yields.pure hb'
  | big b =>
    exact Yields.meets ((BigBlobs.Holds.insert h hndx (fits_false hv.fits)).bind fun b' hb' =>
      Yields.pure hb') total
  | packed p =>
    exact (PackedBlobs.Holds.insert h hndx hv.pack).bind fun p' hp' => Meets.pure hp'

theorem Holds.erase (h : l.Holds vs) (hndx : ndx < vs.length) :
    Yields (l.erase ndx) (Holds · (vs.eraseIdx ndx)) := by
  cases l with
  | small s =>
    refine (h.1.eraseAt hndx h.2.2).bind fun s' hs' => Yields.pure ⟨hs', fun w hw => ?_, ?_⟩
    · exact h.2.1 w (List.mem_of_mem_eraseIdx hw)
    · exact (span_sublist_le _ (List.eraseIdx_sublist _ _)).trans h.2.2
  | big b => exact (BigBlobs.Holds.erase h ndx).bind fun b' hb' => Yields.pure hb'
  | packed p => exact (PackedBlobs.Holds.erase h ndx).bind fun p' hp' => Yields.pure hp'

theorem Holds.truncate (h : l.Holds vs) (hndx : ndx ≤ vs.length) :
    Yields (l.truncate ndx) (Holds · (vs.take ndx)) := by
  cases l with
  | small s =>
    refine (h.1.truncateTo hndx).bind fun s' hs' => Yields.pure ⟨hs', fun w hw => ?_, ?_⟩
    · exact h.2.1 w (List.mem_of_mem_take hw)
    · exact (span_sublist_le _ (List.take_sublist _ _)).trans h.2.2
  | big b => exact (BigBlobs.Holds.truncate h ndx).bind fun b' hb' => Yields.pure hb'
  | packed p => exact (PackedBlobs.Holds.truncate h ndx).bind fun p' hp' => Yields.pure hp'

theorem Holds.move (h : l.Holds vs) (hdst : dst.Holds us) (hndx : ndx ≤ vs.length)
    (hmoved : ∀ v ∈ vs.drop ndx, Storable total v) (hroom : dst.Room us (vs.drop ndx)) :
    Meets total (l.move dst ndx)
      (fun p => p.1.Holds (vs.take ndx) ∧ p.2.Holds (us ++ vs.drop ndx)) := by
  refine ((h.yields_readFrom ndx).meets total).bind fun moved hmv => ?_
  subst hmv
  refine (hdst.append hmoved hroom).bind fun dst' hdst' =>
    ((h.truncate hndx).meets total).bind fun l' hl' => Meets.pure ⟨hl', hdst'⟩

theorem holds_clear (l : Binary) (h : l.Holds vs) : Yields l.clear (Holds · []) := by
  cases l with
  | small s =>
    exact (SmallBlobs.holds_clear s false).bind fun _ hs =>
      Yields.pure ⟨hs, fun _ hv => absurd hv List.not_mem_nil, Nat.zero_le _⟩
  | big b => exact (BigBlobs.Holds.truncate h 0).bind fun b' hb' => Yields.pure hb'
  | packed p => exact (holds_replaceWithEmpty (packed p)).mono fun _ hl' => hl'.1

theorem meets_replaceWithPacked (l : Binary) (hne : vs ≠ [])
    (hpack : total = true → ∀ v ∈ vs, v.size ≤ maxValue) :
    Meets total (l.replaceWithPacked vs) (Holds · vs) := by
  cases hcan : canPack vs with
  | true => exact (holds_replaceWithPacked l hcan).meets total
  | false =>
    have hthrow : total = false := by
      cases total with
      | false => rfl
      | true =>
        rw [(PackedBlobs.canPack_iff vs).mpr ⟨hne, hpack rfl⟩] at hcan
        exact absurd hcan Bool.noConfusion
    have hcreate : Meets total (PackedBlobs.create vs) (fun _ => False) := by
      unfold PackedBlobs.create
      rw [if_pos hcan]
      exact Meets.failure hthrow
    exact hcreate.bind fun _ hf => hf.elim

theorem Holds.normalizePacked (h : l.Holds vs) (hpack : total = true → ∀ v ∈ vs, v.size ≤ maxValue) :
    Meets total l.normalizePacked (Holds · vs) := by
  cases l with
  | small s => exact Meets.pure h
  | big b => exact Meets.pure h
  | packed p =>
    have hsize : p.size = vs.length := PackedBlobs.Holds.size_eq h
    dsimp only [Binary.normalizePacked]
    split
    · exact Meets.pure h
    · split
      · rename_i hzero
        have hnil : vs = [] := List.length_eq_zero_iff.mp (hsize.symm.trans hzero)
        subst hnil
        exact ((holds_replaceWithEmpty (packed p)).mono fun _ hl' => hl'.1).meets total
      · rename_i hzero
        refine ((Holds.yields_readFrom (l := packed p) h 0).meets total).bind fun us hus => ?_
        rw [List.drop_zero] at hus
        subst hus
        refine meets_replaceWithPacked (packed p) (fun hnil => hzero ?_) hpack
        rw [hsize, hnil]
        rfl

end Binary

end Llbt.Leaf
