import Llbt.IntArray.Array

/-!
# Histories of integer arrays

Several arrays, which start empty, under any sequence of operations, with commits in between: a commit makes an array
read-only and replaces the capacity in its header by a checksum, so that the next write copies it.

* `run_denotes` — the arrays hold the lists that the operations stand for, between the bounds of one of the eight
  widths, as long as the elements of every array take at most 32 MiB;
* `adds_are_refused` — one element more than that, and the request for twice the capacity fails a release assertion.
-/

set_option autoImplicit false

namespace Llbt.IntArray

open Fields Node Indexed

inductive Op where
  | insert (k ndx : Nat) (value : Int)
  | add (k : Nat) (value : Int)
  | set (k ndx : Nat) (value : Int)
  | erase (k ndx : Nat)
  | eraseRange (k first last : Nat)
  | truncate (k newSize : Nat)
  | move (k first last destFirst : Nat)
  | moveTo (k dst ndx : Nat)
  | adjust (k first last : Nat) (diff : Int)
  | adjustAt (k ndx : Nat) (diff : Int)
  | commit (k checksum beyond : Nat)

def committed (checksum beyond : Nat) (a : IntArray) : IntArray := { a with node := a.node.committed checksum beyond }

def Op.run (arrays : Nat → IntArray) : Op → Option (Nat → IntArray)
  | .insert k ndx value => ((arrays k).insert ndx value).map (Function.update arrays k)
  | .add k value => ((arrays k).add value).map (Function.update arrays k)
  | .set k ndx value => ((arrays k).set ndx value).map (Function.update arrays k)
  | .erase k ndx => ((arrays k).erase ndx).map (Function.update arrays k)
  | .eraseRange k first last => ((arrays k).eraseRange first last).map (Function.update arrays k)
  | .truncate k newSize => ((arrays k).truncate newSize).map (Function.update arrays k)
  | .move k first last destFirst => ((arrays k).move first last destFirst).map (Function.update arrays k)
  | .moveTo k dst ndx =>
    ((arrays k).moveTo ndx (arrays dst)).map fun r => Function.update (Function.update arrays k r.1) dst r.2
  | .adjust k first last diff => ((arrays k).adjust first last diff).map (Function.update arrays k)
  | .adjustAt k ndx diff => ((arrays k).adjustAt ndx diff).map (Function.update arrays k)
  | .commit k checksum beyond => some (Function.update arrays k (committed checksum beyond (arrays k)))

/-- The same on lists. -/
def Op.apply (lists : Nat → List Int) : Op → Nat → List Int
  | .insert k ndx value => Function.update lists k ((lists k).insertIdx ndx value)
  | .add k value => Function.update lists k (lists k ++ [value])
  | .set k ndx value => Function.update lists k ((lists k).set ndx value)
  | .erase k ndx => Function.update lists k ((lists k).eraseIdx ndx)
  | .eraseRange k first last => Function.update lists k ((lists k).take first ++ (lists k).drop last)
  | .truncate k newSize => Function.update lists k ((lists k).take newSize)
  | .move k first last destFirst => Function.update lists k (overwrite (lists k) first last destFirst)
  | .moveTo k dst ndx => Function.update (Function.update lists k ((lists k).take ndx)) dst
    (lists dst ++ (lists k).drop ndx)
  | .adjust k first last diff => Function.update lists k (adjusted (lists k) first last diff)
  | .adjustAt k ndx diff => Function.update lists k (adjusted (lists k) ndx (ndx + 1) diff)
  | .commit _ _ _ => lists

/-- The positions are in range, and every value that is written fits the width `W`. -/
def Op.Valid (W : Nat) (lists : Nat → List Int) : Op → Prop
  | .insert k ndx value => ndx ≤ (lists k).length ∧ InBounds W value
  | .add _ value => InBounds W value
  | .set k ndx value => ndx < (lists k).length ∧ InBounds W value
  | .erase k ndx => ndx < (lists k).length
  | .eraseRange k first last => first ≤ last ∧ last ≤ (lists k).length
  | .truncate k newSize => newSize ≤ (lists k).length
  | .move k first last destFirst => first ≤ last ∧ last ≤ (lists k).length ∧ destFirst + (last - first) ≤
    (lists k).length ∧
      ¬ (destFirst ≥ first ∧ destFirst < last)
  | .moveTo k dst ndx => k ≠ dst ∧ ndx ≤ (lists k).length
  | .adjust k first last diff => last ≤ (lists k).length ∧
      ∀ i x, first ≤ i → i < last → (lists k)[i]? = some x → InBounds W (x + diff)
  | .adjustAt k ndx diff => ∃ x, (lists k)[ndx]? = some x ∧ InBounds W (x + diff)
  | .commit _ _ _ => True

def runAll : List Op → (Nat → IntArray) → Option (Nat → IntArray)
  | [], arrays => some arrays
  | op :: ops, arrays => (op.run arrays).bind (runAll ops)

def applyAll : List Op → (Nat → List Int) → Nat → List Int
  | [], lists => lists
  | op :: ops, lists => applyAll ops (op.apply lists)

/-- Every operation is valid where it comes. -/
def ValidAll (W : Nat) : List Op → (Nat → List Int) → Prop
  | [], _ => True
  | op :: ops, lists => op.Valid W lists ∧ ValidAll W ops (op.apply lists)

/-- After every operation there is room for what the arrays hold. -/
def RoomAll (W : Nat) : List Op → (Nat → List Int) → Prop
  | [], _ => True
  | op :: ops, lists => (∀ k, Room W (op.apply lists k).length) ∧ RoomAll W ops (op.apply lists)

/-- What an array shows of its list. -/
structure Denotes (a : IntArray) (xs : List Int) : Prop where
  elements_eq : elements a.data a.width a.size = xs
  isWidth : IsWidth a.width
  lbound_eq : a.lbound = lboundForWidth a.width
  ubound_eq : a.ubound = uboundForWidth a.width
  between : ∀ x ∈ xs, a.lbound ≤ x ∧ x ≤ a.ubound

variable {W : Nat} {arrays : Nat → IntArray} {lists : Nat → List Int}

theorem Holds.denotes {a : IntArray} {xs : List Int} (h : Holds W a xs) : Denotes a xs := by
  refine ⟨?_, h.isWidth, h.lbound_eq, h.ubound_eq, fun x => h.between⟩
  rw [h.size_eq]
  exact h.values.eq_map.symm

/-- All arrays hold their lists, and have room for them. -/
def HoldAll (W : Nat) (arrays : Nat → IntArray) (lists : Nat → List Int) : Prop :=
  ∀ k, Holds W (arrays k) (lists k) ∧ Room W (lists k).length

theorem HoldAll.update (h : HoldAll W arrays lists) {k : Nat} {a : IntArray} {xs : List Int} (ha : Holds W a xs)
    (hroom : Room W xs.length) :
    HoldAll W (Function.update arrays k a) (Function.update lists k xs) := by
  intro j
  by_cases hj : j = k
  · subst hj
    rw [Function.update_self, Function.update_self]
    exact ⟨ha, hroom⟩
  · rw [Function.update_of_ne hj, Function.update_of_ne hj]
    exact h j

theorem Holds.committed {a : IntArray} {xs : List Int} (h : Holds W a xs) (checksum beyond : Nat) :
    Holds W (committed checksum beyond a) xs := by
  obtain ⟨hsized, hwidth, hkeeps⟩ := h.sized.committed checksum beyond
  exact ⟨hsized, h.width_eq.trans hwidth.symm, h.lbound_eq, h.ubound_eq, h.width_le, h.size_eq,
    h.values.congr fun i hi => h.get_of_keeps hkeeps (h.size_eq.symm ▸ hi)⟩

theorem HoldAll.run (h : HoldAll W arrays lists) (hW : IsWidth W) {op : Op} (hvalid : op.Valid W lists)
    (hroom : ∀ k, Room W (op.apply lists k).length) : ∃ arrays', op.run arrays = some arrays' ∧
    HoldAll W arrays' (op.apply lists) := by
  -- an operation on one array
  have hone : ∀ {k : Nat} {r : Option IntArray} {xs : List Int}, (∃ b, r = some b ∧ Holds W b xs) → Room W xs.length →
      ∃ arrays', r.map (Function.update arrays k) = some arrays' ∧ HoldAll W arrays' (Function.update lists k xs) := by
    rintro k r xs ⟨b, rfl, hb⟩ hxs
    exact ⟨_, rfl, h.update hb hxs⟩
  have hself : ∀ {ls : Nat → List Int} {k : Nat} {xs : List Int}, (∀ j, Room W (Function.update ls k xs j).length) →
    Room W xs.length := by
    intro ls k xs hall
    have := hall k
    rwa [Function.update_self] at this
  cases op with
  | insert k ndx value =>
    have hlen : ((lists k).insertIdx ndx value).length = (lists k).length + 1 := by
      rw [List.length_insertIdx, if_pos hvalid.1]
    exact hone ((h k).1.insert hW (hlen ▸ hself hroom) hvalid.1 hvalid.2) (hself hroom)
  | add k value =>
    have hlen : (lists k ++ [value]).length = (lists k).length + 1 := List.length_append
    have hinsert := @Holds.insert W (arrays k) (lists k) (h k).1 hW (hlen ▸ hself hroom)
      (lists k).length (Nat.le_refl _) value hvalid
    rw [List.insertIdx_length_self, ← (h k).1.size_eq] at hinsert
    exact hone hinsert (hself hroom)
  | set k ndx value => exact hone ((h k).1.set hW (h k).2 hvalid.2) (hself hroom)
  | erase k ndx => exact hone ((h k).1.erase (h k).2 hvalid) (hself hroom)
  | eraseRange k first last => exact hone ((h k).1.eraseRange (h k).2 hvalid.1 hvalid.2) (hself hroom)
  | truncate k newSize => exact hone ((h k).1.truncate (h k).2 hvalid) (hself hroom)
  | move k first last destFirst =>
    obtain ⟨hfirst, hlast, hdest, hout⟩ := hvalid
    obtain ⟨b, hb, hholds, -⟩ := (h k).1.move (h k).2 hfirst hlast hdest hout
    exact hone ⟨b, hb, hholds⟩ (hself hroom)
  | moveTo k dst ndx =>
    obtain ⟨hne, hndx⟩ := hvalid
    have hdst := hself hroom
    have hcut : Room W ((lists k).take ndx).length := (h k).2.mono (List.length_take_le' ndx _)
    obtain ⟨a', b', hmove, ha', hb'⟩ := (h k).1.moveTo (h dst).1 hW hndx (h k).2 (by simpa using hdst)
    refine ⟨_, by rw [Op.run, hmove, Option.map_some], ?_⟩
    exact HoldAll.update (h.update ha' hcut) hb' hdst
  | adjust k first last diff => exact hone ((h k).1.adjust hW (h k).2 hvalid.1 hvalid.2) (hself hroom)
  | adjustAt k ndx diff =>
    obtain ⟨x, hx, hin⟩ := hvalid
    exact hone ((h k).1.adjustAt hW (h k).2 hx hin) (hself hroom)
  | commit k checksum beyond =>
    refine ⟨_, rfl, ?_⟩
    have := h.update (k := k) ((h k).1.committed checksum beyond) (h k).2
    rwa [Function.update_eq_self] at this

theorem HoldAll.runAll (hW : IsWidth W) : ∀ {ops : List Op} {arrays : Nat → IntArray} {lists : Nat → List Int},
    HoldAll W arrays lists →
    ValidAll W ops lists → RoomAll W ops lists → ∃ arrays', runAll ops arrays = some arrays' ∧
      HoldAll W arrays' (applyAll ops lists)
  | [], arrays, lists, h, _, _ => ⟨arrays, rfl, h⟩
  | op :: ops, arrays, lists, h, hvalid, hroom => by
    obtain ⟨arrays', hrun, h'⟩ := h.run hW hvalid.1 hroom.1
    obtain ⟨arrays'', hrun', h''⟩ := h'.runAll hW hvalid.2 hroom.2
    exact ⟨arrays'', by rw [IntArray.runAll, hrun, Option.bind_some, hrun'], h''⟩

theorem holdAll_create {blocks : Nat → Nat → Nat} (W : Nat) (h : ∀ k, create (blocks k) = some (arrays k)) :
    HoldAll W arrays fun _ => [] := by
  intro k
  obtain ⟨a, ha, hholds, -⟩ := holds_create W (blocks k)
  obtain rfl : a = arrays k := Option.some.inj (ha.symm.trans (h k))
  exact ⟨hholds, Nat.zero_le _, by simp⟩

/-- **Histories of integer arrays.**  Whatever the allocator's blocks contain, every sequence of valid operations whose
values fit the width `W` returns, as long as the elements of every array take at most 32 MiB at that width, and each
array then denotes its list. -/
theorem run_denotes {blocks : Nat → Nat → Nat} (hcreate : ∀ k, create (blocks k) = some (arrays k)) (hW : IsWidth W)
    {ops : List Op}
    (hvalid : ValidAll W ops fun _ => []) (hroom : RoomAll W ops fun _ => []) :
    ∃ arrays', runAll ops arrays = some arrays' ∧ ∀ k, Denotes (arrays' k) (applyAll ops (fun _ => []) k) := by
  obtain ⟨arrays', hrun, h⟩ := (holdAll_create W hcreate).runAll hW hvalid hroom
  exact ⟨arrays', hrun, fun k => (h k).1.denotes⟩

/-- Two values, the second of which makes the array widen. -/
theorem run_denotes_two : ∃ arrays arrays', (∀ k : Nat, create (fun _ => 0) = some (arrays k)) ∧
    runAll [.add 0 5, .insert 0 0 (-300)] arrays = some arrays' ∧ Denotes (arrays' 0) [-300, 5] := by
  obtain ⟨a, ha, -⟩ := holds_create 64 fun _ => 0
  have hroom : RoomAll 64 [.add 0 5, .insert 0 0 (-300)] fun _ => [] := by
    have hupdate : ∀ {ls : Nat → List Int} {xs : List Int}, (∀ j, Room 64 (ls j).length) → Room 64 xs.length →
        ∀ j, Room 64 (Function.update ls 0 xs j).length := by
      intro ls xs hls hxs j
      rw [Function.update_apply]
      split
      · exact hxs
      · exact hls j
    have hfirst := @hupdate (fun _ => []) [5] (fun _ => ⟨by decide, by decide⟩) ⟨by decide, by decide⟩
    exact ⟨hfirst, hupdate hfirst ⟨by decide, by decide⟩, trivial⟩
  obtain ⟨arrays', hrun, hdenotes⟩ := @run_denotes 64 (fun _ => a) (fun _ _ => 0) (fun _ => ha) (by decide)
    [.add 0 5, .insert 0 0 (-300)] ⟨(by decide : InBounds 64 5), ⟨by decide, by decide⟩, trivial⟩ hroom
  exact ⟨fun _ => a, arrays', fun _ => ha, hrun, hdenotes 0⟩

/-! ## One element too many -/

theorem runAll_eq (ops : List Op) (arrays : Nat → IntArray) :
    runAll ops arrays = ops.foldlM (fun arrays op => op.run arrays) arrays := by
  induction ops generalizing arrays with
  | nil => rfl
  | cons op ops ih => exact congrArg (op.run arrays).bind (funext ih)

theorem validAll_adds {k : Nat} {value : Int} (hvalue : InBounds 64 value) : ∀ (n : Nat) (lists : Nat → List Int),
    ValidAll 64 (List.replicate n (.add k value)) lists
  | 0, _ => trivial
  | n + 1, _ => ⟨hvalue, validAll_adds hvalue n _⟩

theorem insert_alloc {a b : IntArray} {ndx : Nat} {value : Int} (h : a.insert ndx value = some b) :
    ∃ c, a.alloc (a.size + 1) (if value < a.lbound ∨ value > a.ubound then bitWidth value else a.width) = some c ∧
      b.node.capacity = c.node.capacity ∧ b.node.readOnly = c.node.readOnly := by
  rw [IntArray.insert] at h
  split at h
  · rename_i hout
    obtain ⟨c, hc, rfl⟩ := Option.map_eq_some_iff.mp h
    exact ⟨c, by rw [if_pos hout, hc], rfl, rfl⟩
  · rename_i hin
    obtain ⟨c, hc, rfl⟩ := Option.map_eq_some_iff.mp h
    exact ⟨c, by rw [if_neg hin, hc], rfl, rfl⟩

/-- A value that needs 64 bits. -/
def wide : Int := 0x4000000000000000

theorem width_of_wide {w : Nat} (hw : IsWidth w) (h : InBounds w wide) : w = 64 := by
  have hall : ∀ w ∈ [0, 1, 2, 4, 8, 16, 32, 64], InBounds w wide → w = 64 := by decide
  exact hall w hw h

theorem doubled_add {a b : IntArray} {n : Nat} (ha : Doubled a.node) (h : Holds 64 a (List.replicate n wide))
    (hadd : a.add wide = some b) : Doubled b.node ∧ 8 * (n + 1) + 8 ≤ b.node.capacity := by
  have hsize : a.size = n := h.size_eq.trans List.length_replicate
  obtain ⟨c, hc, hcapacity, hreadOnly⟩ := insert_alloc hadd
  have hwide : (if wide < a.lbound ∨ wide > a.ubound then bitWidth wide else a.width) = 64 := by
    obtain ⟨hwidth, hin, -⟩ := IntArray.bitWidth_spec (by decide : InBounds 64 wide)
    split
    · exact width_of_wide hwidth hin
    · exact width_of_wide h.isWidth ((h.inBounds_iff _).mp (by omega))
  rw [hwide, hsize] at hc
  obtain ⟨m, hm, rfl⟩ := Option.map_eq_some_iff.mp hc
  refine ha.grown h.sized hsize ?_ hm hcapacity hreadOnly
  rcases Nat.eq_zero_or_pos n with rfl | hpos
  · exact Or.inr rfl
  · have hbetween := h.between (List.mem_replicate.mpr ⟨Nat.pos_iff_ne_zero.mp hpos, rfl⟩)
    exact Or.inl (h.width_eq ▸ width_of_wide h.isWidth ((h.inBounds_iff _).mp hbetween))

theorem holds_add_wide {arrays : Nat → IntArray} {n : Nat} (hn : n < 4194303)
    (h : Holds 64 (arrays 0) (List.replicate n wide))
    (ha : Doubled (arrays 0).node) : ∃ arrays', (Op.add 0 wide).run arrays = some arrays' ∧
      Holds 64 (arrays' 0) (List.replicate (n + 1) wide) ∧ Doubled (arrays' 0).node := by
  have hroom : Room 64 ((List.replicate n wide).length + 1) := by
    rw [List.length_replicate]
    exact room_words hn
  obtain ⟨b, hb, hholds⟩ := @Holds.insert 64 (arrays 0) _ h (by decide) hroom _ (Nat.le_refl _) wide (by decide)
  rw [List.insertIdx_length_self, ← List.replicate_succ'] at hholds
  rw [← h.size_eq] at hb
  refine ⟨Function.update arrays 0 b, ?_, ?_, ?_⟩
  · rw [Op.run, IntArray.add, hb]
    rfl
  · rw [Function.update_self]
    exact hholds
  · rw [Function.update_self]
    exact (doubled_add ha h hb).1

theorem adds_wide {a : IntArray} (h : Holds 64 a []) (ha : Doubled a.node) {n : Nat} (hn : n ≤ 4194303) :
    ∃ arrays', (List.replicate n (Op.add 0 wide)).foldlM (fun arrays op => op.run arrays) (fun _ => a) = some arrays' ∧
      Holds 64 (arrays' 0) (List.replicate n wide) ∧ Doubled (arrays' 0).node :=
  exists_foldlM_replicate (fun i (arrays : Nat → IntArray) => Holds 64 (arrays 0) (List.replicate i wide) ∧
    Doubled (arrays 0).node) ⟨h, ha⟩ fun _ _ hi ht => holds_add_wide (Nat.lt_of_lt_of_le hi hn) ht.1 ht.2

/-- 4194304 elements of eight bytes cannot be added one by one: the last growth asks for 64 MiB. -/
theorem adds_are_refused : ∃ arrays, (∀ k : Nat, create (fun _ => 0) = some (arrays k)) ∧
    ValidAll 64 (List.replicate (4194303 + 1) (.add 0 wide)) (fun _ => []) ∧
      runAll (List.replicate (4194303 + 1) (.add 0 wide)) arrays = none := by
  obtain ⟨a, ha, hholds, hcap, hwritable⟩ := holds_create 64 fun _ => 0
  refine ⟨fun _ => a, fun _ => ha, validAll_adds (by decide) _ _, ?_⟩
  obtain ⟨arrays', hrun, hholds', hdoubled⟩ := adds_wide hholds ⟨hwritable, 0, by decide, hcap⟩ (Nat.le_refl 4194303)
  rw [runAll_eq, List.replicate_succ', List.foldlM_append, hrun]
  cases hadd : (arrays' 0).add wide with
  | none => simp [Op.run, hadd]
  | some b =>
    obtain ⟨hdoubled', hcovers⟩ := doubled_add hdoubled hholds' hadd
    have := hdoubled'.full
    omega

end Llbt.IntArray
