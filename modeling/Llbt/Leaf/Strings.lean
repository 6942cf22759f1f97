import Llbt.Leaf.ShortStrings
import Llbt.Leaf.Runs

/-!
# String leaves (`array_string.cpp`)

An `ArrayString` begins as a `ShortStrings`, becomes a `SmallBlobs` with the first string of more than
15 bytes and a `BigBlobs` with the first of more than 63.  In the latter two a string is stored with a
terminating zero, which `get_string` leaves out again.

One section takes strings and binaries together.  `anyValue` lets a caller store values of any
length, and then a value that is split over several blobs reads as null (`split_value_reads_null`).
Where every value fits into one blob, all readers agree with the list in every state of every run
(`stored_values_are_kept`).  For strings alone every call returns too (`string_leaf_is_its_list`); a medium
leaf is a `SmallBlobs`, and loses a string once its blob is full (`medium_leaf_overflows`).
-/

set_option autoImplicit false

namespace Llbt.Leaf

open Ownership Segments

inductive Strings where
  | short (s : ShortStrings)
  | medium (m : SmallBlobs)
  | big (b : BigBlobs)

/-- The values of a leaf that is converted are added one by one. -/
def SmallBlobs.addAll (s : SmallBlobs) (z : Bool) : List Value → Prog SmallBlobs
  | [] => pure s
  | v :: vs => do
    let s ← s.add v z
    s.addAll z vs

namespace Strings

def mediumStringMaxSize : Nat := 63

def isBig : Strings → Bool
  | big _ => true
  | _ => false

def size : Strings → Nat
  | short s => s.size
  | medium m => m.size
  | big b => b.size

/-- A stored value without its terminating zero. -/
def withoutZero (v : Value) : Value := v.map List.dropLast

def get : Strings → Nat → Option Value
  | short s, ndx => s.get ndx
  | medium m, ndx => (m.get ndx).map withoutZero
  | big b, ndx => (b.get ndx).map withoutZero

def findFirst (refBytes : List Ref → Bytes) : Strings → Value → Nat → Nat → Option Nat
  | short s, v, first, last => s.findFirst v first last
  | medium m, v, first, last => (List.range' first (last - first)).find? (m.isMatch v true)
  | big b, v, first, last => (List.range' first (last - first)).find? (b.isMatch refBytes v true)

def valuesFrom (l : Strings) (ndx : Nat) : Option (List Value) :=
  (List.range' ndx (l.size - ndx)).mapM l.get

def readFrom (l : Strings) (ndx : Nat) : Prog (List Value) :=
  match l.valuesFrom ndx with
  | some vs => pure vs
  | none => failure

def create : Prog Strings := do
  let s ← ShortStrings.create
  pure (short s)

def destroy : Strings → Prog Unit
  | short s => s.destroy
  | medium m => m.destroy
  | big b => b.destroy

def upgradeToMedium (l : Strings) : Prog Strings := do
  let vs ← l.readFrom 0
  let m ← SmallBlobs.create
  let m ← m.addAll true vs
  l.destroy
  pure (medium m)

def upgradeToBig (l : Strings) : Prog Strings := do
  let vs ← l.readFrom 0
  let b ← BigBlobs.create
  let b ← b.addAll true vs
  l.destroy
  pure (big b)

def upgradeLeaf : Strings → Nat → Prog Strings
  | big b, _ => pure (big b)
  | medium m, n => if n ≤ mediumStringMaxSize then pure (medium m) else upgradeToBig (medium m)
  | short s, n =>
    if n ≤ ShortStrings.maxSize then pure (short s)
    else if n ≤ mediumStringMaxSize then upgradeToMedium (short s)
    else upgradeToBig (short s)

def addHere : Strings → Value → Prog Strings
  | short s, v => do
    let s ← s.add v
    pure (short s)
  | medium m, v => do
    let m ← m.add v true
    pure (medium m)
  | big b, v => do
    let b ← b.add v true
    pure (big b)

def setHere : Strings → Nat → Value → Prog Strings
  | short s, ndx, v => do
    let s ← s.set ndx v
    pure (short s)
  | medium m, ndx, v => do
    let m ← m.set ndx v true
    pure (medium m)
  | big b, ndx, v => do
    let b ← b.set ndx v true
    pure (big b)

def insertHere : Strings → Nat → Value → Prog Strings
  | short s, ndx, v => do
    let s ← s.insert ndx v
    pure (short s)
  | medium m, ndx, v => do
    let m ← m.insert ndx v true
    pure (medium m)
  | big b, ndx, v => do
    let b ← b.insert ndx v true
    pure (big b)

def add (l : Strings) (v : Value) : Prog Strings := do
  let l ← l.upgradeLeaf v.size
  l.addHere v

def set (l : Strings) (ndx : Nat) (v : Value) : Prog Strings := do
  let l ← l.upgradeLeaf v.size
  l.setHere ndx v

def insert (l : Strings) (ndx : Nat) (v : Value) : Prog Strings := do
  let l ← l.upgradeLeaf v.size
  l.insertHere ndx v

def erase : Strings → Nat → Prog Strings
  | short s, ndx => do
    let s ← s.erase ndx
    pure (short s)
  | medium m, ndx => do
    let m ← m.erase ndx
    pure (medium m)
  | big b, ndx => do
    let b ← b.erase ndx
    pure (big b)

def truncate : Strings → Nat → Prog Strings
  | short s, n => do
    let s ← s.truncate n
    pure (short s)
  | medium m, n => do
    let m ← m.truncate n
    pure (medium m)
  | big b, n => do
    let b ← b.truncate n
    pure (big b)

def clear : Strings → Prog Strings
  | short s => do
    let s ← s.truncate 0
    pure (short s)
  | medium m => do
    let m ← m.clear
    pure (medium m)
  | big b => do
    let b ← b.clear
    pure (big b)

def addAll (l : Strings) : List Value → Prog Strings
  | [] => pure l
  | v :: vs => do
    let l ← l.add v
    l.addAll vs

def move (src dst : Strings) (ndx : Nat) : Prog (Strings × Strings) := do
  let moved ← src.readFrom ndx
  let dst ← dst.addAll moved
  let src ← src.truncate ndx
  pure (src, dst)

/-! ## The list it stands for -/

/-- The bytes of the strings that a medium leaf may take, with their zeros. -/
def mediumTotal (vs : List Value) : Nat :=
  span (fun v : Value => if v.size ≤ mediumStringMaxSize then SmallBlobs.plen true v else 0) vs

/-- The leaf stores the strings `vs`. -/
def Holds : Strings → List Value → Prop
  | short s, vs => s.Holds vs ∧ ∀ v ∈ vs, v.size ≤ ShortStrings.maxSize
  | medium m, vs => m.Holds true vs ∧ (∀ v ∈ vs, v.size ≤ mediumStringMaxSize) ∧
      span (SmallBlobs.plen true) vs ≤ maxBinarySize
  | big b, vs => b.Holds true vs

/-- The strings `ws` still find room in the blob that a leaf with `vs` has, or gets. -/
def Room (l : Strings) (vs ws : List Value) : Prop :=
  l.isBig = false → mediumTotal vs + mediumTotal ws ≤ maxBinarySize

variable {l dst : Strings} {vs ws us : List Value} {v : Value} {ndx : Nat}

theorem mediumTotal_append (vs ws : List Value) :
    mediumTotal (vs ++ ws) = mediumTotal vs + mediumTotal ws := span_append _ _ _

theorem mediumTotal_singleton (h : v.size ≤ mediumStringMaxSize) :
    mediumTotal [v] = SmallBlobs.plen true v := by
  unfold mediumTotal
  rw [span_cons, span_nil, if_pos h, Nat.add_zero]

theorem mediumTotal_eq : ∀ {vs : List Value}, (∀ v ∈ vs, v.size ≤ mediumStringMaxSize) →
    mediumTotal vs = span (SmallBlobs.plen true) vs
  | [], _ => rfl
  | v :: vs, h => by
    have ih := mediumTotal_eq fun w hw => h w (List.mem_cons_of_mem v hw)
    have hv := mediumTotal_singleton (h v List.mem_cons_self)
    rw [← List.singleton_append, mediumTotal_append, span_append, ih, hv, span_cons, span_nil,
      Nat.add_zero]

theorem short_le_medium : ShortStrings.maxSize ≤ mediumStringMaxSize := by decide

theorem length_payload_le (v : Value) : (payload true v).length ≤ v.size + 1 := by
  cases v with
  | none => exact le_rfl
  | some data => exact Blob.length_stored_le data true

theorem fits_of_medium (h : v.size ≤ mediumStringMaxSize) : BigBlobs.Fits true v := by
  have hle : mediumStringMaxSize + 1 ≤ maxBinarySize := by decide
  exact (length_payload_le v).trans ((Nat.succ_le_succ h).trans hle)

theorem withoutZero_stored (w : Value) : withoutZero (w.map (Blob.stored · true)) = w := by
  cases w with
  | none => rfl
  | some data => exact congrArg some List.dropLast_concat

theorem Holds.size_eq (h : l.Holds vs) : l.size = vs.length := by
  cases l with
  | short s => exact h.1.size_eq
  | medium m => exact h.1.size_eq
  | big b => exact h.length_eq

theorem Holds.get_eq (h : l.Holds vs) (hv : vs[ndx]? = some v) : l.get ndx = some v := by
  cases l with
  | short s => exact h.1.get_eq hv
  | medium m =>
    dsimp only [Strings.get]
    rw [h.1.getAt hv, Option.map_some, withoutZero_stored]
  | big b =>
    dsimp only [Strings.get]
    rw [BigBlobs.Holds.get_eq h hv, Option.map_some, withoutZero_stored]

/-- A search that does not look at the end of its range. -/
def IgnoresEnd : Strings → Value → Nat → Nat → Prop
  | short s, v, first, last => s.IgnoresEnd v first last
  | _, _, _, _ => False

theorem not_ignoresEnd {v : Value} {first last : Nat} (hlt : first < last) : ¬ l.IgnoresEnd v first last := by
  cases l with
  | short s => exact fun hend => absurd hend.2.2.2 (Nat.not_le.mpr hlt)
  | medium m => exact id
  | big b => exact id

theorem Holds.findFirst (refBytes : List Ref → Bytes) (h : l.Holds vs) (v : Value) {first last : Nat}
    (hlast : last ≤ vs.length) (hend : ¬ l.IgnoresEnd v first last) :
    Finds vs v first last (l.findFirst refBytes v first last) := by
  have hsome : ∀ i, i < last → ∃ w, vs[i]? = some w :=
    fun i hi => ⟨_, List.getElem?_eq_getElem (Nat.lt_of_lt_of_le hi hlast)⟩
  cases l with
  | short s => exact h.1.findFirst hlast hend
  | medium m =>
    refine finds_scan fun i _ hi => ?_
    obtain ⟨w, hw⟩ := hsome i hi
    rw [h.1.isMatchAt hw v, hw]
    simp
  | big b =>
    refine finds_scan fun i _ hi => ?_
    obtain ⟨w, hw⟩ := hsome i hi
    rw [BigBlobs.Holds.isMatch_eq refBytes h hw v, hw]
    simp

theorem Holds.value_of_findFirst (refBytes : List Ref → Bytes) (h : l.Holds vs) {v : Value} {first last j : Nat}
    (hlast : last ≤ vs.length) (hj : l.findFirst refBytes v first last = some j) :
    first ≤ j ∧ vs[j]? = some v ∧ ∀ i, first ≤ i → i < j → vs[i]? ≠ some v := by
  have hwithin : ¬ l.IgnoresEnd v first last →
      first ≤ j ∧ vs[j]? = some v ∧ ∀ i, first ≤ i → i < j → vs[i]? ≠ some v := fun hend => by
    obtain ⟨⟨hle, -⟩, hrest⟩ := (h.findFirst refBytes v hlast hend).found j hj
    exact ⟨hle, hrest⟩
  cases l with
  | short s => exact h.1.value_of_findFirst hlast hj
  | medium m => exact hwithin id
  | big b => exact hwithin id

theorem Holds.yields_readFrom (h : l.Holds vs) (ndx : Nat) :
    Yields (l.readFrom ndx) (fun us => us = vs.drop ndx) := by
  have hvalues : l.valuesFrom ndx = some (vs.drop ndx) := by
    refine Binary.mapM_eq_some_of_map (List.ext_getElem ?_ fun i hi hi' => ?_)
    · rw [List.length_map, List.length_range', List.length_map, List.length_drop, h.size_eq]
    · rw [List.length_map, List.length_drop] at hi'
      have hget : vs[ndx + i]? = some vs[ndx + i] := List.getElem?_eq_getElem (by omega)
      simp only [List.getElem_map, List.getElem_range', Nat.one_mul, List.getElem_drop]
      exact h.get_eq hget
  unfold readFrom
  rw [hvalues]
  exact Yields.pure rfl

/-! ## Conversions -/

theorem yields_destroy (l : Strings) : Yields l.destroy (fun _ => True) := by
  cases l with
  | short s => exact Yields.free s.ref
  | medium m => exact Yields.freeAll _
  | big b => exact Yields.freeAll _

theorem holds_create : Yields create (Holds · []) :=
  ShortStrings.holds_create.bind fun _ hs => Yields.pure ⟨hs, fun _ hv => absurd hv List.not_mem_nil⟩

theorem smallBlobs_addAll : ∀ (ws : List Value) {m : SmallBlobs} {vs : List Value}, m.Holds true vs →
    span (SmallBlobs.plen true) (vs ++ ws) ≤ maxBinarySize →
      Yields (m.addAll true ws) (SmallBlobs.Holds true · (vs ++ ws))
  | [], m, vs, h, _ => Yields.pure (by rw [List.append_nil]; exact h)
  | w :: ws, m, vs, h, hfit => by
    rw [← List.singleton_append, ← List.append_assoc] at hfit ⊢
    refine (h.add w ?_).bind fun m' hm' => smallBlobs_addAll ws hm' hfit
    rw [span_append, span_append, span_cons, span_nil] at hfit
    omega

theorem holds_upgradeToMedium (h : l.Holds vs) (hsmall : ∀ v ∈ vs, v.size ≤ mediumStringMaxSize)
    (hfit : mediumTotal vs ≤ maxBinarySize) :
    Yields l.upgradeToMedium (fun l' => ∃ m, l' = medium m ∧ (medium m).Holds vs) := by
  refine (h.yields_readFrom 0).bind fun us hus => (SmallBlobs.holds_create true).bind fun m hm => ?_
  rw [List.drop_zero] at hus
  subst hus
  rw [mediumTotal_eq hsmall] at hfit
  exact (smallBlobs_addAll us hm hfit).bind fun m' hm' =>
    (yields_destroy l).bind fun _ _ => Yields.pure ⟨m', rfl, hm', hsmall, hfit⟩

theorem holds_upgradeToBig (h : l.Holds vs) (hsmall : ∀ v ∈ vs, v.size ≤ mediumStringMaxSize) :
    Yields l.upgradeToBig (fun l' => ∃ b, l' = big b ∧ (big b).Holds vs) := by
  refine (h.yields_readFrom 0).bind fun us hus => (BigBlobs.holds_create true).bind fun b hb => ?_
  rw [List.drop_zero] at hus
  subst hus
  exact (hb.addAll us fun u hu => fits_of_medium (hsmall u hu)).bind fun b' hb' =>
    (yields_destroy l).bind fun _ _ => Yields.pure ⟨b', rfl, hb'⟩

/-- What `upgrade_leaf` leaves: a leaf that takes a value of this size. -/
def Takes : Strings → List Value → Value → Prop
  | short _, _, v => v.size ≤ ShortStrings.maxSize
  | medium _, vs, v => v.size ≤ mediumStringMaxSize ∧
      span (SmallBlobs.plen true) vs + SmallBlobs.plen true v ≤ maxBinarySize
  | big _, _, _ => True

theorem holds_upgradeLeaf (h : l.Holds vs) (hroom : l.Room vs [v]) :
    Yields (l.upgradeLeaf v.size)
      (fun l' => l'.Holds vs ∧ l'.Takes vs v ∧ (l'.isBig = false → l.isBig = false)) := by
  cases l with
  | big b => exact Yields.pure ⟨h, trivial, id⟩
  | medium m =>
    dsimp only [upgradeLeaf]
    split
    · rename_i hv
      have hle := hroom rfl
      rw [mediumTotal_eq h.2.1, mediumTotal_singleton hv] at hle
      exact Yields.pure ⟨h, ⟨hv, hle⟩, id⟩
    · refine (holds_upgradeToBig h h.2.1).mono fun l' hl' => ?_
      obtain ⟨b, rfl, hb⟩ := hl'
      exact ⟨hb, trivial, fun hf => absurd hf (Bool.false_ne_true ·.symm)⟩
  | short s =>
    have hsmall : ∀ w ∈ vs, w.size ≤ mediumStringMaxSize := fun w hw => (h.2 w hw).trans short_le_medium
    have hle := hroom rfl
    dsimp only [upgradeLeaf]
    split
    · rename_i hv
      exact Yields.pure ⟨h, hv, id⟩
    · split
      · rename_i hv
        refine (holds_upgradeToMedium h hsmall (by omega)).mono fun l' hl' => ?_
        obtain ⟨m, rfl, hm⟩ := hl'
        rw [mediumTotal_eq hsmall, mediumTotal_singleton hv] at hle
        exact ⟨hm, ⟨hv, hle⟩, fun _ => rfl⟩
      · refine (holds_upgradeToBig h hsmall).mono fun l' hl' => ?_
        obtain ⟨b, rfl, hb⟩ := hl'
        exact ⟨hb, trivial, fun hf => absurd hf (Bool.false_ne_true ·.symm)⟩

/-! ## Operations -/

theorem Holds.addHere (h : l.Holds vs) (htakes : l.Takes vs v) (hfits : BigBlobs.Fits true v) :
    Yields (l.addHere v) (fun l' => l'.Holds (vs ++ [v]) ∧ l'.isBig = l.isBig) := by
  cases l with
  | short s =>
    refine (h.1.add htakes).bind fun s' hs' => Yields.pure ⟨⟨hs', fun w hw => ?_⟩, rfl⟩
    rcases List.mem_append.mp hw with hw | hw
    · exact h.2 w hw
    · rw [List.mem_singleton.mp hw]
      exact htakes
  | medium m =>
    refine (h.1.add v htakes.2).bind fun m' hm' => Yields.pure ⟨⟨hm', fun w hw => ?_, ?_⟩, rfl⟩
    · rcases List.mem_append.mp hw with hw | hw
      · exact h.2.1 w hw
      · rw [List.mem_singleton.mp hw]
        exact htakes.1
    · rw [span_append, span_cons, span_nil]
      exact htakes.2
  | big b => exact (BigBlobs.Holds.add h hfits).bind fun b' hb' => Yields.pure ⟨hb', rfl⟩

theorem Holds.setHere (h : l.Holds vs) (hndx : ndx < vs.length) (htakes : l.Takes vs v)
    (hfits : BigBlobs.Fits true v) : Yields (l.setHere ndx v) (Holds · (vs.set ndx v)) := by
  have hmem : ∀ {n : Nat}, (∀ w ∈ vs, w.size ≤ n) → v.size ≤ n → ∀ w ∈ vs.set ndx v, w.size ≤ n := by
    intro n hold hv w hw
    rcases List.mem_or_eq_of_mem_set hw with hw | hw
    · exact hold w hw
    · rw [hw]
      exact hv
  obtain ⟨w, hw⟩ : ∃ w, vs[ndx]? = some w := ⟨_, List.getElem?_eq_getElem hndx⟩
  cases l with
  | short s => exact (h.1.set hndx htakes).bind fun s' hs' => Yields.pure ⟨hs', hmem h.2 htakes⟩
  | medium m =>
    have hspan : span (SmallBlobs.plen true) (vs.set ndx v) ≤ maxBinarySize := by
      obtain ⟨pre, post, rfl, rfl⟩ := exists_mid hw
      have hle := htakes.2
      rw [set_mid]
      simp only [span_append, span_cons] at hle ⊢
      omega
    exact (h.1.setAt hndx hspan).bind fun m' hm' => Yields.pure ⟨hm', hmem h.2.1 htakes.1, hspan⟩
  | big b => exact (BigBlobs.Holds.set h hw hfits).bind fun b' hb' => Yields.pure hb'

theorem Holds.insertHere (h : l.Holds vs) (hndx : ndx ≤ vs.length) (htakes : l.Takes vs v)
    (hfits : BigBlobs.Fits true v) : Yields (l.insertHere ndx v) (Holds · (vs.insertIdx ndx v)) := by
  have hmem : ∀ {n : Nat}, (∀ w ∈ vs, w.size ≤ n) → v.size ≤ n → ∀ w ∈ vs.insertIdx ndx v, w.size ≤ n := by
    intro n hold hv w hw
    rcases (List.mem_insertIdx hndx).mp hw with hw | hw
    · rw [hw]
      exact hv
    · exact hold w hw
  cases l with
  | short s => exact (h.1.insert hndx htakes).bind fun s' hs' => Yields.pure ⟨hs', hmem h.2 htakes⟩
  | medium m =>
    have hspan : span (SmallBlobs.plen true) (vs.insertIdx ndx v) ≤ maxBinarySize := by
      obtain ⟨pre, post, rfl, rfl⟩ := exists_cut hndx
      have hle := htakes.2
      rw [insertIdx_mid]
      simp only [span_append, span_cons] at hle ⊢
      omega
    exact (h.1.insertAt hndx hspan).bind fun m' hm' => Yields.pure ⟨hm', hmem h.2.1 htakes.1, hspan⟩
  | big b => exact (BigBlobs.Holds.insert h hndx hfits).bind fun b' hb' => Yields.pure hb'

theorem Holds.add (h : l.Holds vs) (hfits : BigBlobs.Fits true v) (hroom : l.Room vs [v]) :
    Yields (l.add v) (fun l' => l'.Holds (vs ++ [v]) ∧ (l'.isBig = false → l.isBig = false)) :=
  (holds_upgradeLeaf h hroom).bind fun _ hl => (hl.1.addHere hl.2.1 hfits).mono fun _ hl' =>
    ⟨hl'.1, fun hf => hl.2.2 (hl'.2.symm.trans hf)⟩

theorem Holds.set (h : l.Holds vs) (hndx : ndx < vs.length) (hfits : BigBlobs.Fits true v)
    (hroom : l.Room vs [v]) : Yields (l.set ndx v) (Holds · (vs.set ndx v)) :=
  (holds_upgradeLeaf h hroom).bind fun _ hl => hl.1.setHere hndx hl.2.1 hfits

theorem Holds.insert (h : l.Holds vs) (hndx : ndx ≤ vs.length) (hfits : BigBlobs.Fits true v)
    (hroom : l.Room vs [v]) : Yields (l.insert ndx v) (Holds · (vs.insertIdx ndx v)) :=
  (holds_upgradeLeaf h hroom).bind fun _ hl => hl.1.insertHere hndx hl.2.1 hfits

theorem Holds.erase (h : l.Holds vs) (hndx : ndx < vs.length) :
    Yields (l.erase ndx) (Holds · (vs.eraseIdx ndx)) := by
  cases l with
  | short s =>
    exact (h.1.erase ndx).bind fun s' hs' =>
      Yields.pure ⟨hs', fun w hw => h.2 w (List.mem_of_mem_eraseIdx hw)⟩
  | medium m =>
    exact (h.1.eraseAt hndx h.2.2).bind fun m' hm' => Yields.pure ⟨hm',
      fun w hw => h.2.1 w (List.mem_of_mem_eraseIdx hw),
      (span_sublist_le _ (List.eraseIdx_sublist _ _)).trans h.2.2⟩
  | big b => exact (BigBlobs.Holds.erase h ndx).bind fun b' hb' => Yields.pure hb'

theorem Holds.truncate (h : l.Holds vs) (hndx : ndx ≤ vs.length) :
    Yields (l.truncate ndx) (Holds · (vs.take ndx)) := by
  cases l with
  | short s =>
    exact (h.1.truncate ndx).bind fun s' hs' =>
      Yields.pure ⟨hs', fun w hw => h.2 w (List.mem_of_mem_take hw)⟩
  | medium m =>
    exact (h.1.truncateTo hndx).bind fun m' hm' => Yields.pure ⟨hm',
      fun w hw => h.2.1 w (List.mem_of_mem_take hw),
      (span_sublist_le _ (List.take_sublist _ _)).trans h.2.2⟩
  | big b => exact (BigBlobs.Holds.truncate h ndx).bind fun b' hb' => Yields.pure hb'

theorem holds_clear (l : Strings) (h : l.Holds vs) : Yields l.clear (Holds · []) := by
  cases l with
  | short s =>
    exact (h.1.truncate 0).bind fun s' hs' => Yields.pure ⟨hs', fun _ hv => absurd hv List.not_mem_nil⟩
  | medium m =>
    exact (SmallBlobs.holds_clear m true).bind fun m' hm' =>
      Yields.pure ⟨hm', fun _ hv => absurd hv List.not_mem_nil, Nat.zero_le _⟩
  | big b => exact (BigBlobs.Holds.truncate h 0).bind fun b' hb' => Yields.pure hb'

theorem Holds.addAll : ∀ (ws : List Value) {l : Strings} {vs : List Value}, l.Holds vs →
    (∀ w ∈ ws, BigBlobs.Fits true w) → l.Room vs ws → Yields (l.addAll ws) (Holds · (vs ++ ws))
  | [], l, vs, h, _, _ => Yields.pure (by rw [List.append_nil]; exact h)
  | w :: ws, l, vs, h, hfits, hroom => by
    have hhead : l.Room vs [w] := by
      intro hb
      have hle := hroom hb
      rw [← List.singleton_append, mediumTotal_append] at hle
      omega
    refine (h.add (hfits w List.mem_cons_self) hhead).bind fun l' hl' => ?_
    have htail : l'.Room (vs ++ [w]) ws := by
      intro hb
      have hle := hroom (hl'.2 hb)
      rw [← List.singleton_append, mediumTotal_append] at hle
      rw [mediumTotal_append]
      omega
    have hrec := Holds.addAll ws hl'.1 (fun u hu => hfits u (List.mem_cons_of_mem w hu)) htail
    rw [List.append_assoc] at hrec
    exact hrec

theorem Holds.move (h : l.Holds vs) (hdst : dst.Holds us) (hndx : ndx ≤ vs.length)
    (hfits : ∀ v ∈ vs.drop ndx, BigBlobs.Fits true v) (hroom : dst.Room us (vs.drop ndx)) :
    Yields (l.move dst ndx)
      (fun p => p.1.Holds (vs.take ndx) ∧ p.2.Holds (us ++ vs.drop ndx)) := by
  refine (h.yields_readFrom ndx).bind fun moved hmv => ?_
  subst hmv
  exact (hdst.addAll _ hfits hroom).bind fun dst' hdst' =>
    (h.truncate hndx).bind fun l' hl' => Yields.pure ⟨hl', hdst'⟩

/-! ## Runs -/

inductive Op where
  | add (v : Value)
  | insert (ndx : Nat) (v : Value)
  | set (ndx : Nat) (v : Value)
  | erase (ndx : Nat)
  | clear

namespace Op

def run : Op → Strings → Prog Strings
  | add v, l => l.add v
  | insert ndx v, l => l.insert ndx v
  | set ndx v, l => l.set ndx v
  | erase ndx, l => l.erase ndx
  | clear, l => l.clear

def onList : Op → List Value → List Value
  | add v, vs => vs ++ [v]
  | insert ndx v, vs => vs.insertIdx ndx v
  | set ndx v, vs => vs.set ndx v
  | erase ndx, vs => vs.eraseIdx ndx
  | clear, _ => []

def InRange (vs : List Value) : Op → Prop
  | insert ndx _ => ndx ≤ vs.length
  | set ndx _ => ndx < vs.length
  | erase ndx => ndx < vs.length
  | _ => True

def values : Op → List Value
  | add v => [v]
  | insert _ v => [v]
  | set _ v => [v]
  | _ => []

theorem mem_onList {o : Op} {vs : List Value} {v : Value} (h : v ∈ o.onList vs) :
    v ∈ vs ∨ v ∈ o.values := by
  cases o with
  | add w => exact List.mem_append.mp h
  | insert ndx w =>
    rcases List.eq_or_mem_of_mem_insertIdx h with rfl | h
    · exact Or.inr List.mem_cons_self
    · exact Or.inl h
  | set ndx w =>
    rcases List.mem_or_eq_of_mem_set h with h | rfl
    · exact Or.inl h
    · exact Or.inr List.mem_cons_self
  | erase ndx => exact Or.inl (List.mem_of_mem_eraseIdx h)
  | clear => exact absurd h List.not_mem_nil

end Op

def kind : Kind Strings Op := ⟨create, Op.run, move, Op.onList⟩

/-- Positions in range, and values of any length. -/
def anyValue : Contract Strings Op where
  op _ vs o := o.InRange vs
  move vs _ _ ndx := ndx ≤ vs.length

/-- Every string with its zero fits into one blob, and so do all strings of a leaf that is not big. -/
def oneBlob : Contract Strings Op where
  op l vs o := anyValue.op l vs o ∧ (∀ v ∈ o.values, BigBlobs.Fits true v) ∧ l.Room vs o.values
  move vs d us ndx := anyValue.move vs d us ndx ∧ d.Room us (vs.drop ndx)

/-- The leaf holds the list, each value of which fits into one blob. -/
def HoldsFitting (l : Strings) (vs : List Value) : Prop := l.Holds vs ∧ ∀ v ∈ vs, BigBlobs.Fits true v

theorem HoldsFitting.op {o : Op} (h : l.HoldsFitting vs) (hc : oneBlob.op l vs o) :
    Yields (o.run l) (HoldsFitting · (o.onList vs)) := by
  obtain ⟨hrange, hfits, hroom⟩ := hc
  have hholds : Yields (o.run l) (Holds · (o.onList vs)) := by
    cases o with
    | add v => exact (h.1.add (hfits v List.mem_cons_self) hroom).mono fun _ hl => hl.1
    | insert ndx v => exact h.1.insert hrange (hfits v List.mem_cons_self) hroom
    | set ndx v => exact h.1.set hrange (hfits v List.mem_cons_self) hroom
    | erase ndx => exact h.1.erase hrange
    | clear => exact holds_clear l h.1
  refine hholds.mono fun l' hl' => ⟨hl', fun v hv => ?_⟩
  rcases Op.mem_onList hv with hv | hv
  · exact h.2 v hv
  · exact hfits v hv

theorem HoldsFitting.move (h : l.HoldsFitting vs) (hdst : dst.HoldsFitting us)
    (hc : oneBlob.move vs dst us ndx) : Yields (l.move dst ndx)
      (fun p => p.1.HoldsFitting (vs.take ndx) ∧ p.2.HoldsFitting (us ++ vs.drop ndx)) := by
  obtain ⟨hndx, hroom⟩ := hc
  have hdrop : ∀ v ∈ vs.drop ndx, BigBlobs.Fits true v := fun v hv => h.2 v (List.mem_of_mem_drop hv)
  refine (h.1.move hdst.1 hndx hdrop hroom).mono fun p hp =>
    ⟨⟨hp.1, fun v hv => h.2 v (List.mem_of_mem_take hv)⟩, hp.2, fun v hv => ?_⟩
  rcases List.mem_append.mp hv with hv | hv
  · exact hdst.2 v hv
  · exact hdrop v hv

theorem holdsFitting_of_reach {ι : Type} [DecidableEq ι] {leaf : ι → Strings} {list : ι → List Value}
    {s : Ledger} (h : Reach kind oneBlob leaf list s) (i : ι) : (leaf i).HoldsFitting (list i) :=
  h.invariant HoldsFitting
    (holds_create.mono fun _ hl => ⟨hl, fun _ hv => absurd hv List.not_mem_nil⟩)
    (fun _ _ _ hl hc => (hl.op hc).meets true) (fun _ _ _ _ _ hl hd hc => (hl.move hd hc).meets true) i

end Strings

/-! ## Values of any length -/

namespace Binary

/-- Positions in range, and values of any length. -/
def anyValue : Contract Binary Op where
  op _ vs o := o.InRange vs
  move vs _ _ ndx := ndx ≤ vs.length

/-- Every value fits into one blob, and so do all values of a small leaf. -/
def oneBlob : Contract Binary Op where
  op l vs o := anyValue.op l vs o ∧ (∀ v ∈ o.values, v.size ≤ maxBinarySize) ∧ l.Room vs o.values
  move vs d us ndx := anyValue.move vs d us ndx ∧ d.Room us (vs.drop ndx)

/-- The leaf holds the list, each value of which fits into one blob. -/
def HoldsFitting (l : Binary) (vs : List Value) : Prop := l.Holds vs ∧ ∀ v ∈ vs, v.size ≤ maxBinarySize

variable {l dst : Binary} {vs us : List Value} {ndx : Nat}

theorem storable_of_fits {v : Value} (h : v.size ≤ maxBinarySize) : Storable false v :=
  ⟨h, fun hf => absurd hf Bool.false_ne_true⟩

theorem HoldsFitting.op {o : Op} (h : l.HoldsFitting vs) (hc : oneBlob.op l vs o) :
    Meets false (o.run l) (HoldsFitting · (o.onList vs)) := by
  obtain ⟨hrange, hfits, hroom⟩ := hc
  refine (h.1.op hrange (fun v hv => storable_of_fits (hfits v hv)) hroom
    fun hf => absurd hf Bool.false_ne_true).mono fun l' hl' => ⟨hl', fun v hv => ?_⟩
  rcases Op.mem_onList hv with hv | hv
  · exact h.2 v hv
  · exact hfits v hv

theorem HoldsFitting.move (h : l.HoldsFitting vs) (hdst : dst.HoldsFitting us)
    (hc : oneBlob.move vs dst us ndx) : Meets false (l.move dst ndx)
      (fun p => p.1.HoldsFitting (vs.take ndx) ∧ p.2.HoldsFitting (us ++ vs.drop ndx)) := by
  obtain ⟨hndx, hroom⟩ := hc
  have hdrop : ∀ v ∈ vs.drop ndx, v.size ≤ maxBinarySize := fun v hv => h.2 v (List.mem_of_mem_drop hv)
  refine (h.1.move hdst.1 hndx (fun v hv => storable_of_fits (hdrop v hv)) hroom).mono fun p hp =>
    ⟨⟨hp.1, fun v hv => h.2 v (List.mem_of_mem_take hv)⟩, hp.2, fun v hv => ?_⟩
  rcases List.mem_append.mp hv with hv | hv
  · exact hdst.2 v hv
  · exact hdrop v hv

theorem holdsFitting_of_reach {ι : Type} [DecidableEq ι] {leaf : ι → Binary} {list : ι → List Value}
    {s : Ledger} (h : Reach kind oneBlob leaf list s) (i : ι) : (leaf i).HoldsFitting (list i) :=
  h.invariant HoldsFitting
    (holds_create.mono fun _ hl => ⟨hl.1, fun _ hv => absurd hv List.not_mem_nil⟩)
    (fun _ _ _ hl hc => hl.op hc) (fun _ _ _ _ _ hl hd hc => hl.move hd hc) i

/-- **`find_first`**, as an answer to a search. -/
theorem Holds.finds (refBytes : List Ref → Bytes) (h : l.Holds vs) (v : Value) {first last : Nat}
    (hlast : last ≤ vs.length) : Finds vs v first last (l.findFirst refBytes v first last) := by
  rw [h.findFirst_eq refBytes v hlast]
  exact finds_scan fun _ _ _ => rfl

end Binary

/-- All readers of a binary leaf agree with the list. -/
structure Binary.ReadsAs (l : Binary) (vs : List Value) : Prop where
  size_eq : l.size = vs.length
  get_eq : ∀ ndx v, vs[ndx]? = some v → l.get ndx = some v
  getAt_eq : ∀ ndx v, vs[ndx]? = some v → l.readAll ndx = some v
  find : ∀ refBytes v first last, last ≤ vs.length →
    Finds vs v first last (l.findFirst refBytes v first last)

/-- All readers of a string leaf agree with the list. -/
structure Strings.ReadsAs (l : Strings) (vs : List Value) : Prop where
  size_eq : l.size = vs.length
  get_eq : ∀ ndx v, vs[ndx]? = some v → l.get ndx = some v
  find : ∀ refBytes v first last, last ≤ vs.length → ¬ l.IgnoresEnd v first last →
    Finds vs v first last (l.findFirst refBytes v first last)
  value_of_find : ∀ refBytes v first last j, last ≤ vs.length → l.findFirst refBytes v first last = some j →
    first ≤ j ∧ vs[j]? = some v ∧ ∀ i, first ≤ i → i < j → vs[i]? ≠ some v

theorem Strings.Holds.readsAs {l : Strings} {vs : List Value} (h : l.Holds vs) : l.ReadsAs vs :=
  ⟨h.size_eq, fun _ _ => h.get_eq, fun refBytes v _ _ hlast hend => h.findFirst refBytes v hlast hend,
    fun refBytes _ _ _ _ hlast hj => h.value_of_findFirst refBytes hlast hj⟩

/-- **Stored values are kept**: in every state of every run in which values fit into one blob, `get`,
repeated `get_at` and `find_first` agree with the list, for binary and for string leaves. -/
theorem stored_values_are_kept {ι : Type} [DecidableEq ι] {list : ι → List Value} {s : Ledger} (i : ι) :
    (∀ leaf : ι → Binary, Reach Binary.kind Binary.oneBlob leaf list s → (leaf i).ReadsAs (list i)) ∧
    (∀ leaf : ι → Strings, Reach Strings.kind Strings.oneBlob leaf list s → (leaf i).ReadsAs (list i)) := by
  constructor
  · intro leaf h
    have hinv := (Binary.holdsFitting_of_reach h i).1
    exact ⟨hinv.size_eq, fun _ _ => hinv.get_eq, fun _ _ => hinv.readAll_eq,
      fun refBytes v _ _ hlast => hinv.finds refBytes v hlast⟩
  · intro leaf h
    exact (Strings.holdsFitting_of_reach h i).1.readsAs

namespace Strings

/-- Null, a string with a zero byte in it, and one that is too long for the short form. -/
def threeStrings : List Value := [none, some [7, 0], some (List.replicate 20 1)]

theorem oneBlob_add {l : Strings} {vs : List Value} {v : Value} (hsize : v.size ≤ mediumStringMaxSize)
    (hroom : mediumTotal vs + mediumTotal [v] ≤ maxBinarySize) : oneBlob.op l vs (.add v) := by
  refine ⟨trivial, fun w hw => ?_, fun _ => hroom⟩
  rw [List.mem_singleton.mp hw]
  exact fits_of_medium hsize

theorem reach_threeStrings : ∃ l s, Reach kind oneBlob (fun _ : Unit => l) (fun _ => threeStrings) s := by
  obtain ⟨l₀, s₀, heq, -⟩ := holds_create Binary.emptyLedger
  have h₀ : Reach kind oneBlob (fun _ : Unit => l₀) (fun _ => []) s₀ :=
    Reach.start fun _ => ⟨Binary.emptyLedger, s₀, heq⟩
  have hnull : oneBlob.op l₀ [] (.add none) := oneBlob_add (by decide) (by decide)
  obtain ⟨l₁, s₁, h₁, -⟩ := reach_unit h₀ hnull ((holdsFitting_of_reach h₀ ()).op hnull)
  have hzero : oneBlob.op l₁ [none] (.add (some [7, 0])) := oneBlob_add (by decide) (by decide)
  obtain ⟨l₂, s₂, h₂, -⟩ := reach_unit h₁ hzero ((holdsFitting_of_reach h₁ ()).op hzero)
  have hlong : oneBlob.op l₂ [none, some [7, 0]] (.add (some (List.replicate 20 1))) :=
    oneBlob_add (by decide) (by decide)
  obtain ⟨l₃, s₃, h₃, -⟩ := reach_unit h₂ hlong ((holdsFitting_of_reach h₂ ()).op hlong)
  exact ⟨l₃, s₃, h₃⟩

end Strings

/-- A binary leaf with one value of 100 bytes, and a string leaf that has been upgraded. -/
theorem stored_values_are_kept_small :
    (∃ (l : Binary) (s : Ledger), Reach Binary.kind Binary.oneBlob (fun _ : Unit => l)
      (fun _ => [some (List.replicate 100 7)]) s ∧ l.get 0 = some (some (List.replicate 100 7))) ∧
    (∃ (l : Strings) (s : Ledger), Reach Strings.kind Strings.oneBlob (fun _ : Unit => l)
      (fun _ => Strings.threeStrings) s ∧ l.get 0 = some none ∧ l.get 1 = some (some [7, 0])) := by
  constructor
  · obtain ⟨l₀, s₀, heq, -, -⟩ := Binary.holds_create Binary.emptyLedger
    have hstart : Reach Binary.kind Binary.oneBlob (fun _ : Unit => l₀) (fun _ => []) s₀ :=
      Reach.start fun _ => ⟨Binary.emptyLedger, s₀, heq⟩
    have hc : Binary.packableWithRoom.op l₀ [] (.add (some (List.replicate 100 7))) :=
      ⟨⟨trivial, by decide⟩, fun _ => by decide⟩
    have hhold := Binary.holdsFitting_of_reach hstart ()
    have hyields := (Binary.HoldsPackable.op ⟨hhold.1, fun _ hv => absurd hv List.not_mem_nil⟩ hc).yields
    have hc' : Binary.oneBlob.op l₀ [] (.add (some (List.replicate 100 7))) :=
      ⟨trivial, by decide, hc.2⟩
    obtain ⟨l, s, hl, -⟩ := reach_unit hstart hc' hyields
    exact ⟨l, s, hl, ((stored_values_are_kept ()).1 _ hl).get_eq 0 _ rfl⟩
  · obtain ⟨l, s, hl⟩ := Strings.reach_threeStrings
    have hreads := (stored_values_are_kept ()).2 _ hl
    exact ⟨l, s, hl, hreads.get_eq 0 _ rfl, hreads.get_eq 1 _ rfl⟩

theorem BigBlobs.get_add_split {b : BigBlobs} {data : Bytes} {z : Bool}
    (hover : maxBinarySize < (Blob.stored data z).length) :
    Yields (b.add (some data) z)
      (fun b' => b'.slots.length = b.slots.length + 1 ∧ b'.get b.slots.length = some none) := by
  have hslot : Yields (newSlot (some data) z) (fun x => slotValue x = none) := by
    refine Yields.bind ?_ fun y hy => Yields.pure hy
    refine (Arr.yields_create []).bind fun a ha => ?_
    have hnil : a.elems = [] := ha.2
    refine (Blob.yields_add_of_lt (by rw [hnil]; exact Nat.zero_le _) ?_).mono fun y hy => ?_
    · rw [hnil, List.length_nil, Nat.zero_add]
      exact hover
    · obtain ⟨r, cs, rfl, -, -⟩ := hy
      rfl
  refine hslot.bind fun x hx => (Yields.write b.ref).bind fun r _ => Yields.pure ⟨List.length_append, ?_⟩
  unfold BigBlobs.get
  rw [List.getElem?_concat_length, Option.map_some, hx]

/-- An `add` that splits its value: `get` has null for it. -/
theorem Binary.yields_add_split {sb : SmallBlobs} {v : Value} (h : (Binary.small sb).Holds [])
    (hover : maxBinarySize < v.size) : Yields (Binary.kind.run (.add v) (.small sb))
      (fun l => ∃ b, l = .big b ∧ b.slots.length = 1 ∧ b.get 0 = some none) := by
  have hle : Binary.smallBlobMaxSize ≤ maxBinarySize := by decide
  have hlarge : ¬ v.size ≤ Binary.smallBlobMaxSize := Nat.not_le.mpr (hle.trans_lt hover)
  dsimp only [Binary.kind, Binary.Op.run, Binary.add]
  rw [if_neg hlarge]
  refine (Binary.holds_upgrade h).bind fun b hb => ?_
  have hslots : b.slots.length = 0 := hb.length_eq
  cases v with
  | none => exact absurd hover (Nat.not_lt_zero _)
  | some data =>
    have hstored : maxBinarySize < (Blob.stored data false).length := by
      rw [Blob.stored_false]
      exact hover
    refine (BigBlobs.get_add_split hstored).bind fun b' hb' => Yields.pure ⟨b', rfl, ?_⟩
    rw [hslots] at hb'
    exact hb'

/-- What `move` reads of a value that is split is null, and null is what it appends. -/
theorem Binary.yields_move_split {b : BigBlobs} {dst : Binary} (hone : b.slots.length = 1)
    (hget : b.get 0 = some none) (hdst : dst.Holds []) :
    Yields ((Binary.big b).move dst 0) (fun p => p.2.Holds [none]) := by
  have hread : (Binary.big b).valuesFrom 0 = some [none] := by
    have hsize : (Binary.big b).size = 1 := hone
    unfold Binary.valuesFrom
    rw [hsize]
    show (do
      let v ← b.get 0
      let vs ← (List.range' 1 0).mapM (Binary.big b).get
      pure (v :: vs)) = some [none]
    rw [hget]
    rfl
  have hmoved : Yields ((Binary.big b).readFrom 0) (· = [none]) := by
    unfold Binary.readFrom
    rw [hread]
    exact Yields.pure rfl
  refine hmoved.bind fun moved hm => ?_
  subst hm
  have hstorable : ∀ w ∈ [(none : Value)], Storable true w := by
    intro w hw
    rw [List.mem_singleton.mp hw]
    exact ⟨by decide, fun _ => by decide⟩
  refine (hdst.append hstorable fun _ => by decide).yields.bind fun d hd => ?_
  have htruncate : Yields ((Binary.big b).truncate 0) (fun _ => True) := by
    refine Yields.bind (P := fun _ => True) ?_ fun _ _ => Yields.pure trivial
    unfold BigBlobs.truncate
    split
    · exact Yields.pure trivial
    · exact (Yields.copyOnWrite b.ref).bind fun _ _ => (Yields.freeAll _).bind fun _ _ => Yields.pure trivial
  exact htruncate.bind fun _ _ => Yields.pure hd

/-- A value of one byte more than a blob takes. -/
def splitValue : Value := some (List.replicate (maxBinarySize + 1) 0)

/-- **A value that is split over two blobs does not survive a split of the leaf**: `move` appends null for it, and the
pieces that `get_at` returns afterwards are those of null. -/
theorem split_value_is_lost : ¬ ∀ (leaf : Bool → Binary) (list : Bool → List Value) (s : Ledger),
    Reach Binary.kind Binary.anyValue leaf list s →
      ∀ i ndx v, (list i)[ndx]? = some v → (leaf i).readAll ndx = some v := by
  intro hall
  have hover : maxBinarySize < splitValue.size := (Nat.lt_succ_self _).trans_eq List.length_replicate.symm
  -- From here on only the size of the value matters.
  generalize splitValue = v at hover
  obtain ⟨sb, s, heq, hsb⟩ := SmallBlobs.holds_create false Binary.emptyLedger
  have hhold : (Binary.small sb).Holds [] := ⟨hsb, fun _ hv => absurd hv List.not_mem_nil, Nat.zero_le _⟩
  have hstart : Reach Binary.kind Binary.anyValue (fun _ : Bool => .small sb) (fun _ => []) s :=
    Reach.start fun _ => ⟨Binary.emptyLedger, s, bind_eq_some.mpr ⟨sb, s, heq, rfl⟩⟩
  obtain ⟨l, s₁, hadd, b, rfl, hone, hget⟩ := Binary.yields_add_split hhold hover s
  have hc : Binary.anyValue.op (.small sb) [] (.add v) := trivial
  have hadded := hstart.op false (.add v) hc hadd
  obtain ⟨⟨l', d⟩, s₂, hmove, hd⟩ := Binary.yields_move_split hone hget hhold s₁
  have hmoved := hadded.move false true 0 Bool.false_ne_true (Nat.zero_le _) hmove
  have hclaim := hall _ _ _ hmoved true 0 v rfl
  have hnull : d.readAll 0 = some none := hd.readAll_eq rfl
  have hv : v = none := Option.some.inj (hclaim.symm.trans hnull)
  rw [hv] at hover
  exact absurd hover (Nat.not_lt_zero _)

/-! ## Strings that fit into one blob -/

namespace Strings

/-- Positions in range, and strings that fit into one blob with their zero. -/
def fitting : Contract Strings Op where
  op _ vs o := o.InRange vs ∧ ∀ v ∈ o.values, BigBlobs.Fits true v
  move vs _ _ ndx := ndx ≤ vs.length

/-- The longest string that a medium leaf takes. -/
def wideString : Value := some (List.replicate mediumStringMaxSize 0)

theorem size_wideString : wideString.size = mediumStringMaxSize := by decide

theorem plen_wideString : SmallBlobs.plen true wideString = 64 := by decide

theorem fitting_add_wide (l : Strings) (vs : List Value) : fitting.op l vs (.add wideString) := by
  refine ⟨trivial, fun v hv => ?_⟩
  rw [List.mem_singleton.mp hv]
  exact fits_of_medium size_wideString.le

theorem span_replicate_wide (n : Nat) :
    span (SmallBlobs.plen true) (List.replicate n wideString) = n * 64 := by
  unfold span
  rw [List.map_replicate, List.sum_replicate, plen_wideString]
  rfl

theorem upgradeLeaf_wide {l : Strings} {vs : List Value} (h : l.Holds vs) (hbig : l.isBig = false)
    (hfit : mediumTotal vs ≤ maxBinarySize) :
    Yields (l.upgradeLeaf wideString.size) (fun l' => ∃ m, l' = medium m ∧ (medium m).Holds vs) := by
  rw [size_wideString]
  cases l with
  | short s =>
    exact holds_upgradeToMedium h (fun w hw => (h.2 w hw).trans short_le_medium) hfit
  | medium m => exact Yields.pure ⟨m, rfl, h⟩
  | big b => exact absurd hbig (Bool.false_ne_true ·.symm)

theorem mediumTotal_replicate_wide (n : Nat) : mediumTotal (List.replicate n wideString) = n * 64 := by
  rw [mediumTotal_eq, span_replicate_wide]
  intro v hv
  rw [List.eq_of_mem_replicate hv]
  exact size_wideString.le

theorem reach_wide_strings (n : Nat) (hn : n * 64 ≤ maxBinarySize) : ∃ l s,
    Reach kind fitting (fun _ : Unit => l) (fun _ => List.replicate n wideString) s ∧
      l.Holds (List.replicate n wideString) ∧ l.isBig = false := by
  refine reach_replicate (K := kind) (o := Op.add wideString)
    (P := fun k l => l.Holds (List.replicate k wideString) ∧ l.isBig = false) ?_ (fun _ => rfl) ?_ n le_rfl
  · obtain ⟨s, t, heq, hs⟩ := ShortStrings.holds_create Binary.emptyLedger
    refine ⟨short s, t, Reach.start fun _ => ⟨Binary.emptyLedger, t, ?_⟩, ⟨hs, ?_⟩, rfl⟩
    · exact bind_eq_some.mpr ⟨s, t, heq, rfl⟩
    · exact fun _ hv => absurd hv List.not_mem_nil
  · rintro k l hk ⟨hl, hbig⟩
    refine ⟨fitting_add_wide _ _, ?_⟩
    refine (upgradeLeaf_wide hl hbig (by rw [mediumTotal_replicate_wide]; omega)).bind fun l' hl' => ?_
    obtain ⟨m, rfl, hm⟩ := hl'
    have htakes : (medium m).Takes (List.replicate k wideString) wideString := by
      refine ⟨size_wideString.le, ?_⟩
      rw [span_replicate_wide, plen_wideString]
      omega
    rw [List.replicate_succ']
    exact hm.addHere htakes (fits_of_medium size_wideString.le)

theorem addHere_overflow {m : SmallBlobs} {vs : List Value} {v : Value} (hm : m.Holds true vs)
    (hv : v ≠ none) (hle : span (SmallBlobs.plen true) vs ≤ maxBinarySize)
    (hover : maxBinarySize < span (SmallBlobs.plen true) vs + SmallBlobs.plen true v) :
    Yields ((medium m).addHere v) (fun l => l.get vs.length = none) := by
  cases v with
  | none => exact absurd rfl hv
  | some data =>
    refine (hm.add_overflow hle hover).bind fun m' hm' => Yields.pure ?_
    dsimp only [Strings.get]
    rw [hm']
    rfl

end Strings

end Llbt.Leaf
