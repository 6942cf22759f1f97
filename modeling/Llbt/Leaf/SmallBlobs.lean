import Llbt.Leaf.Blobs

/-!
# Runs of a small blob array (`array_blobs_small.cpp`)

Each call decides whether its value gets a terminating zero, so an `Entry` is a value with that choice.
`Sound` is what an `ArraySmallBlobs` owes to the list of its entries: end positions, null flags, both forms
of `get`, and `find_first`.

`sound_of_reach` shows it for every run in which the bytes stay within one blob and no value that is set
with a terminating zero depends on that zero being written (`Op.Safe`).  A read-only blob that already has
the bytes of the value is left alone, whatever its last byte is (`terminator_is_not_stored`).
-/

set_option autoImplicit false

namespace Llbt.Leaf.SmallBlobs

open Ownership Segments

/-- A value, and whether it is stored with a terminating zero. -/
structure Entry where
  value : Value
  terminated : Bool

def Entry.bytes (e : Entry) : Bytes := payload e.terminated e.value

def Entry.null (e : Entry) : Bool := e.value.isNone

/-- The byte string that the array has for an entry. -/
def Entry.denotes (e : Entry) : Value := e.value.map (Blob.stored · e.terminated)

/-- `get(header, ndx, alloc)`: both ends of the value are read at once. -/
def getStatic (s : SmallBlobs) (ndx : Nat) : Option Value :=
  match s.nulls.elems[ndx]? with
  | none => none
  | some true => some none
  | some false =>
    let p := if ndx = 0 then (0, s.offsets.elems.getD ndx 0)
      else (s.offsets.elems.getD (ndx - 1) 0, s.offsets.elems.getD ndx 0)
    (s.read p.1 p.2).map some

def findFirst (s : SmallBlobs) (v : Value) (isString : Bool) (first last : Nat) : Option Nat :=
  (List.range' first (last - first)).find? (s.isMatch v isString)

/-- The byte string that a search is for: a string lies in the array with its terminating zero. -/
def sought (v : Value) (isString : Bool) : Value := v.map (Blob.stored · isString)

/-- A search for a string that meets no value that is the string and one more byte other than zero. -/
def Unambiguous (us : List Value) (v : Value) (isString : Bool) (first last : Nat) : Prop :=
  isString = true → ∀ ndx data c, first ≤ ndx → ndx < last → v = some data → us[ndx]? = some (some (data ++ [c])) →
    c = 0

/-- The array is the list of its entries. -/
structure Sound (s : SmallBlobs) (es : List Entry) : Prop where
  size : s.size = es.length
  nulls : s.nulls.elems.length = s.size
  ascending : s.offsets.elems.Pairwise (· ≤ ·)
  ends : ∀ ndx e, es[ndx]? = some e → s.stop ndx = s.start ndx + e.bytes.length
  last : s.offsets.elems.getLast?.getD 0 = s.blob.elems.length
  get : ∀ ndx e, es[ndx]? = some e → s.get ndx = some e.denotes ∧ s.getStatic ndx = some e.denotes
  find : ∀ v isString first last ndx, first ≤ last → last ≤ es.length →
    Unambiguous (es.map Entry.denotes) v isString first last →
    (s.findFirst v isString first last = some ndx ↔ (first ≤ ndx ∧ ndx < last) ∧
      (es.map Entry.denotes)[ndx]? = some (sought v isString) ∧
      ∀ j, first ≤ j → j < ndx → (es.map Entry.denotes)[j]? ≠ some (sought v isString))

/-! ## What is read -/

section Reads

variable {s : SmallBlobs} {es : List Entry} {ndx : Nat} {v : Value} {isString : Bool}

theorem getStatic_eq_get (s : SmallBlobs) (ndx : Nat) : s.getStatic ndx = s.get ndx := by
  cases ndx with
  | zero => rfl
  | succ n => rfl

/-- What the code compares: the size of the value, with a zero for a string, and its bytes, but not that zero. -/
def Matches (isString : Bool) : Value → Value → Prop
  | none, u => u = none
  | some data, u => if isString = true then ∃ c, u = some (data ++ [c]) else u = some data

theorem matches_iff (v : Value) (isString : Bool) (e : Entry) : (match v with
      | none => e.null
      | some data => !e.null && (len Entry.bytes e == (Blob.stored data isString).length &&
          e.bytes.take data.length == data)) = true ↔ Matches isString v e.denotes := by
  obtain ⟨w, z⟩ := e
  cases v with
  | none => cases w <;> simp [Entry.null, Matches, Entry.denotes]
  | some data =>
    cases w with
    | none => cases isString <;> simp [Entry.null, Matches, Entry.denotes]
    | some b =>
      simp only [Entry.null, Option.isNone_some, Bool.not_false, Bool.true_and, Bool.and_eq_true, beq_iff_eq, len,
        Entry.bytes, payload, Option.getD_some, Entry.denotes, Option.map_some]
      generalize Blob.stored b z = u
      cases isString with
      | false =>
        simp only [Matches, Blob.stored_false, Bool.false_eq_true, if_false, Option.some.injEq]
        constructor
        · rintro ⟨hlen, htake⟩
          rw [← hlen, List.take_length] at htake
          exact htake
        · rintro rfl
          exact ⟨rfl, List.take_length⟩
      | true =>
        simp only [Matches, Blob.stored_true, if_true, List.length_append, List.length_singleton, Option.some.injEq]
        constructor
        · rintro ⟨hlen, htake⟩
          have hrest : (u.drop data.length).length = 1 := by
            rw [List.length_drop]
            omega
          obtain ⟨c, hc⟩ := List.length_eq_one_iff.mp hrest
          refine ⟨c, ?_⟩
          rw [← List.take_append_drop data.length u, htake, hc]
        · rintro ⟨c, rfl⟩
          exact ⟨by simp, List.take_left⟩

/-- Where no other byte than zero stands behind the string, the comparison is equality with the value in the list. -/
theorem matches_iff_eq {u : Value} (hzero : isString = true → ∀ data c, v = some data →
    u = some (data ++ [c]) → c = 0) :
    Matches isString v u ↔ u = sought v isString := by
  cases v with
  | none => exact Iff.rfl
  | some data =>
    cases isString with
    | false => simp [Matches, sought]
    | true =>
      simp only [Matches, sought, if_true, Option.map_some, Blob.stored_true]
      constructor
      · rintro ⟨c, rfl⟩
        rw [hzero rfl data c rfl rfl]
      · exact fun hu => ⟨0, hu⟩

theorem Keeps.isMatch_iff (h : s.Keeps Entry.bytes Entry.null es) {first last : Nat} (hlast : last ≤ es.length)
    (hclear : Unambiguous (es.map Entry.denotes) v isString first last) (hfirst : first ≤ ndx) (hndx : ndx < last) :
    s.isMatch v isString ndx = true ↔ (es.map Entry.denotes)[ndx]? = some (sought v isString) := by
  have he := List.getElem?_eq_getElem (Nat.lt_of_lt_of_le hndx hlast)
  have hu : (es.map Entry.denotes)[ndx]? = some (es[ndx].denotes) := by rw [List.getElem?_map, he]; rfl
  rw [h.isMatchAt he, hu, Option.some.injEq]
  refine (matches_iff v isString es[ndx]).trans (matches_iff_eq fun hs data c hv hd => ?_)
  exact hclear hs ndx data c hfirst hndx hv (hu.trans (congrArg some hd))

theorem Keeps.findFirst_iff (h : s.Keeps Entry.bytes Entry.null es) {first last : Nat} (hlast : last ≤ es.length)
    (hclear : Unambiguous (es.map Entry.denotes) v isString first last) :
    s.findFirst v isString first last = some ndx ↔ (first ≤ ndx ∧ ndx < last) ∧
      (es.map Entry.denotes)[ndx]? = some (sought v isString) ∧
      ∀ j, first ≤ j → j < ndx → (es.map Entry.denotes)[j]? ≠ some (sought v isString) := by
  have hmatch : ∀ j, first ≤ j → j < last → (s.isMatch v isString j = true ↔ _) := fun j hj hjl =>
    h.isMatch_iff hlast hclear hj hjl
  unfold findFirst
  rw [List.find?_range'_eq_some, List.mem_range'_1]
  constructor
  · rintro ⟨hat, ⟨hfirst, hlt⟩, hbefore⟩
    refine ⟨⟨hfirst, by omega⟩, (hmatch ndx hfirst (by omega)).mp hat, fun j hj hjn hu => ?_⟩
    have hno := hbefore j hj hjn
    rw [(hmatch j hj (by omega)).mpr hu] at hno
    cases hno
  · rintro ⟨⟨hfirst, hlt⟩, hu, hbefore⟩
    refine ⟨(hmatch ndx hfirst hlt).mpr hu, ⟨hfirst, by omega⟩, fun j hj hjn => ?_⟩
    cases hat : s.isMatch v isString j with
    | false => rfl
    | true => exact absurd ((hmatch j hj (by omega)).mp hat) (hbefore j hj hjn)

theorem Keeps.sound (h : s.Keeps Entry.bytes Entry.null es) : s.Sound es where
  size := h.size_eq
  nulls := by rw [h.size_eq, h.nulls_eq, List.length_map]
  ascending := by
    rw [h.offsets_eq]
    exact pairwise_ends _ 0 es
  ends := by
    intro ndx e he
    obtain ⟨pre, post, rfl, rfl⟩ := exists_mid he
    rw [h.stop_eq, h.start_eq]
  last := by rw [h.offsets_eq, getLastD_ends, h.blob_length]
  get := by
    intro ndx e he
    have hget : s.get ndx = some e.denotes := by
      rw [h.getAt he]
      obtain ⟨w, z⟩ := e
      cases w <;> rfl
    exact ⟨hget, (s.getStatic_eq_get ndx).trans hget⟩
  find := fun _ _ _ _ _ _ hlast hclear => h.findFirst_iff hlast hclear

end Reads

/-! ## Runs -/

inductive Op where
  | add (v : Value) (z : Bool)
  | set (ndx : Nat) (v : Value) (z : Bool)
  | insert (ndx : Nat) (v : Value) (z : Bool)
  | erase (ndx : Nat)
  | truncate (newSize : Nat)

namespace Op

def run (s : SmallBlobs) : Op → Prog SmallBlobs
  | add v z => s.add v z
  | set ndx v z => s.set ndx v z
  | insert ndx v z => s.insert ndx v z
  | erase ndx => s.erase ndx
  | truncate newSize => s.truncate newSize

def apply (es : List Entry) : Op → List Entry
  | add v z => es ++ [⟨v, z⟩]
  | set ndx v z => es.set ndx ⟨v, z⟩
  | insert ndx v z => es.insertIdx ndx ⟨v, z⟩
  | erase ndx => es.eraseIdx ndx
  | truncate newSize => es.take newSize

/-- What the assertions ask of the position. -/
def Valid (es : List Entry) : Op → Prop
  | add _ _ => True
  | set ndx _ _ => ndx < es.length
  | insert ndx _ _ => ndx ≤ es.length
  | erase ndx => ndx < es.length
  | truncate newSize => newSize = 0 ∨ newSize < es.length

/-- The bytes fit into one blob afterwards, and where a value is set with a terminating zero over one that
takes as many bytes, there is a zero already. -/
structure Safe (es : List Entry) (op : Op) : Prop where
  room : span (len Entry.bytes) (op.apply es) ≤ maxBinarySize
  zero : ∀ ndx v, op = set ndx v true → ∀ e, es[ndx]? = some e → e.bytes.length = (v.getD []).length + 1 →
    e.bytes[(v.getD []).length]? = some 0

end Op

/-- The array and its list after a run of calls that are `Ok`, from the empty array on.  Commits may lie
between the calls, so that each finds blocks of its own that are read-only. -/
inductive Reach (Ok : List Entry → Op → Prop) : SmallBlobs → List Entry → Prop
  | start {s : SmallBlobs} {l l' : Ledger} : create l = some (s, l') → Reach Ok s []
  | step {s s' : SmallBlobs} {es : List Entry} {op : Op} {l l' : Ledger} : Reach Ok s es → op.Valid es → Ok es op →
      op.run s l = some (s', l') → Reach Ok s' (op.apply es)

section Runs

variable {s : SmallBlobs} {es : List Entry}

theorem keeps_create : Yields create (Keeps Entry.bytes Entry.null · []) :=
  (yields_build [] [] []).mono fun _ h => ⟨h.1, h.2.1, h.2.2⟩

theorem stores_entry (v : Value) (z : Bool) : Stores Entry.bytes Entry.null ⟨v, z⟩ v z := ⟨rfl, rfl⟩

theorem Keeps.run (h : s.Keeps Entry.bytes Entry.null es) (hroom : span (len Entry.bytes) es ≤ maxBinarySize) (op : Op)
    (hvalid : op.Valid es) (hsafe : op.Safe es) : Yields (op.run s) (Keeps Entry.bytes Entry.null · (op.apply es)) := by
  cases op with
  | add v z => exact h.add (stores_entry v z) hsafe.room
  | set ndx v z =>
    have he := List.getElem?_eq_getElem hvalid
    refine h.set (stores_entry v z) he hsafe.room fun hz => ?_
    subst hz
    exact hsafe.zero ndx v rfl _ he
  | insert ndx v z => exact h.insert (stores_entry v z) hvalid hsafe.room
  | erase ndx => exact h.erase hvalid hroom
  | truncate newSize =>
    refine h.truncate ?_
    rcases hvalid with rfl | hlt
    · exact Nat.zero_le _
    · exact Nat.le_of_lt hlt

theorem keeps_of_reach (h : Reach (fun es op => op.Safe es) s es) :
    s.Keeps Entry.bytes Entry.null es ∧ span (len Entry.bytes) es ≤ maxBinarySize := by
  induction h with
  | @start s l l' hrun =>
    obtain ⟨s', l'', hrun', hkeeps⟩ := keeps_create l
    obtain ⟨rfl, -⟩ := Prod.mk.inj (Option.some.inj (hrun.symm.trans hrun'))
    exact ⟨hkeeps, Nat.zero_le _⟩
  | @step s s' es op l l' _ hvalid hsafe hrun ih =>
    obtain ⟨s'', l'', hrun', hkeeps⟩ := ih.1.run ih.2 op hvalid hsafe l
    obtain ⟨rfl, -⟩ := Prod.mk.inj (Option.some.inj (hrun.symm.trans hrun'))
    exact ⟨hkeeps, hsafe.room⟩

end Runs

/-- A ledger on which the blocks below `baseline` are read-only. -/
def ledger (baseline : Nat) : Ledger := ⟨baseline, 4, [], 0, fun _ => false, 0⟩

theorem Reach.next {s : SmallBlobs} {es : List Entry} (h : Reach (fun es op => op.Safe es) s es) (op : Op)
    (hvalid : op.Valid es) (hroom : span (len Entry.bytes) (op.apply es) ≤ maxBinarySize)
    (hset : ∀ ndx v, op ≠ .set ndx v true) : ∃ s', Reach (fun es op => op.Safe es) s' (op.apply es) := by
  obtain ⟨hkeeps, hbefore⟩ := keeps_of_reach h
  have hsafe : op.Safe es := ⟨hroom, fun ndx v hop => absurd hop (hset ndx v)⟩
  obtain ⟨s', l', hrun, -⟩ := hkeeps.run hbefore op hvalid hsafe (ledger 0)
  exact ⟨s', h.step hvalid hsafe hrun⟩

/-- An array that holds the bytes 1 and 2 as one value. -/
def twoBytes : SmallBlobs := ⟨4, ⟨5, [2]⟩, ⟨6, [1, 2]⟩, ⟨7, [false]⟩⟩

end Llbt.Leaf.SmallBlobs
