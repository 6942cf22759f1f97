import Mathlib

/-!
# Lists known by their elements

`Reads xs get` says that `get i` is the element of `xs` at `i`, for every index of the list.  A program that keeps a
list in memory shows it through such a function; each rule here says what a change of the function makes of the list:
`Reads.set`, `Reads.insertIdx`, `Reads.overwrite`, `Reads.append`, `Reads.mapRange`.
-/

set_option autoImplicit false

namespace Indexed

variable {α : Type} {xs ys : List α} {get get' : Nat → α}

def Reads (xs : List α) (get : Nat → α) : Prop := ∀ i, i < xs.length → xs[i]? = some (get i)

theorem Reads.congr (h : Reads xs get) (hget : ∀ i, i < xs.length → get' i = get i) : Reads xs get' := fun i hi => by
  rw [h i hi, hget i hi]

theorem reads_nil (get : Nat → α) : Reads [] get := fun _ hi => by cases hi

theorem Reads.eq_map (h : Reads xs get) : xs = (List.range xs.length).map get := by
  refine List.ext_getElem? fun i => ?_
  rw [List.getElem?_map]
  rcases Nat.lt_or_ge i xs.length with hi | hi
  · rw [h i hi, List.getElem?_range hi, Option.map_some]
  · rw [List.getElem?_eq_none hi, List.getElem?_eq_none (by rw [List.length_range]; exact hi), Option.map_none]

theorem Reads.get_of_mem (h : Reads xs get) {x : α} (hx : x ∈ xs) : ∃ i, i < xs.length ∧ get i = x := by
  obtain ⟨i, hi, rfl⟩ := List.getElem_of_mem hx
  have := h i hi
  rw [List.getElem?_eq_getElem hi] at this
  exact ⟨i, hi, (Option.some.inj this).symm⟩

theorem Reads.get_eq (h : Reads xs get) {i : Nat} {x : α} (hx : xs[i]? = some x) : get i = x := by
  have hi : i < xs.length := (List.getElem?_eq_some_iff.mp hx).1
  exact Option.some.inj ((h i hi).symm.trans hx)

/-! ## One element -/

theorem Reads.set (h : Reads xs get) {ndx : Nat} {v : α} (hat : get' ndx = v) (hother : ∀ i, i ≠ ndx → get' i = get i) :
    Reads (xs.set ndx v) get' := by
  intro i hi
  rw [List.length_set] at hi
  rw [List.getElem?_set]
  by_cases heq : ndx = i
  · subst heq
    rw [if_pos rfl, if_pos hi, hat]
  · rw [if_neg heq, hother i (Ne.symm heq)]
    exact h i hi

theorem Reads.set_self (h : Reads xs get) {ndx : Nat} : xs.set ndx (get ndx) = xs := by
  rcases Nat.lt_or_ge ndx xs.length with hlt | hge
  · have := h ndx hlt
    rw [List.getElem?_eq_getElem hlt] at this
    rw [← Option.some.inj this]
    exact List.set_getElem_self hlt
  · exact List.set_eq_of_length_le hge

theorem Reads.insertIdx (h : Reads xs get) {ndx : Nat} {v : α} (hndx : ndx ≤ xs.length)
    (hbelow : ∀ i, i < ndx → get' i = get i)
    (hat : get' ndx = v) (habove : ∀ i, ndx ≤ i → i < xs.length → get' (i + 1) = get i) :
    Reads (xs.insertIdx ndx v) get' := by
  intro i hi
  rw [List.length_insertIdx, if_pos hndx] at hi
  rw [List.getElem?_insertIdx]
  rcases Nat.lt_trichotomy i ndx with hlt | rfl | hgt
  · rw [if_pos hlt, hbelow i hlt]
    exact h i (by omega)
  · rw [if_neg (Nat.lt_irrefl i), if_pos rfl, if_pos hndx, hat]
  · obtain ⟨j, rfl⟩ := Nat.exists_eq_add_of_lt hgt
    rw [if_neg (by omega), if_neg (by omega), Nat.add_sub_cancel, habove (ndx + j) (by omega) (by omega)]
    exact h _ (by omega)

theorem Reads.take (h : Reads xs get) (size : Nat) : Reads (xs.take size) get := by
  intro i hi
  rw [List.length_take] at hi
  rw [List.getElem?_take, if_pos (by omega)]
  exact h i (by omega)

theorem Reads.append {get₂ : Nat → α} (h : Reads xs get) (h₂ : Reads ys get₂)
    (hleft : ∀ i, i < xs.length → get' i = get i)
    (hright : ∀ i, i < ys.length → get' (xs.length + i) = get₂ i) : Reads (xs ++ ys) get' := by
  intro i hi
  rw [List.length_append] at hi
  rw [List.getElem?_append]
  split
  · rename_i hlt
    rw [h i hlt, hleft i hlt]
  · rename_i hge
    obtain ⟨j, rfl⟩ := Nat.exists_eq_add_of_le (Nat.not_lt.mp hge)
    rw [Nat.add_sub_cancel_left, h₂ j (by omega), hright j (by omega)]

theorem Reads.drop (h : Reads xs get) (k : Nat) : Reads (xs.drop k) fun i => get (k + i) := by
  intro i hi
  rw [List.length_drop] at hi
  rw [List.getElem?_drop]
  exact h _ (by omega)

/-! ## A range over another -/

/-- The elements from `first` to `last` over those from `dest` on. -/
def overwrite (xs : List α) (first last dest : Nat) : List α :=
  xs.take dest ++ (xs.drop first).take (last - first) ++ xs.drop (dest + (last - first))

section Overwrite

variable {first last dest : Nat} (hlast : last ≤ xs.length) (hfirst : first ≤ last)
    (hdest : dest + (last - first) ≤ xs.length)

include hlast hfirst hdest

theorem length_overwrite : (overwrite xs first last dest).length = xs.length := by
  simp only [overwrite, List.length_append, List.length_take, List.length_drop]
  omega

theorem Reads.overwrite (h : Reads xs get)
    (hget : ∀ i, get' i = if dest ≤ i ∧ i < dest + (last - first) then get (first + (i - dest)) else get i) :
    Reads (overwrite xs first last dest) get' := by
  intro i hi
  have hhead : (xs.take dest ++ (xs.drop first).take (last - first)).length = dest + (last - first) := by
    simp only [List.length_append, List.length_take, List.length_drop]
    omega
  have htake : (xs.take dest).length = dest := by
    rw [List.length_take]
    omega
  rw [length_overwrite hlast hfirst hdest] at hi
  rw [Indexed.overwrite, List.getElem?_append, hhead, List.getElem?_append, htake, List.getElem?_take,
    List.getElem?_take, List.getElem?_drop, List.getElem?_drop, hget]
  by_cases hlow : i < dest
  · rw [if_pos (by omega), if_pos hlow, if_pos hlow, if_neg (by omega)]
    exact h i hi
  · by_cases hin : i < dest + (last - first)
    · rw [if_pos hin, if_neg hlow, if_pos (by omega), if_pos (by omega)]
      exact h _ (by omega)
    · rw [if_neg hin, if_neg (by omega), Nat.add_sub_cancel' (Nat.not_lt.mp hin)]
      exact h i hi

end Overwrite

theorem take_overwrite {first last : Nat} (hfirst : first ≤ last) (hlast : last ≤ xs.length) :
    (overwrite xs last xs.length first).take (xs.length - (last - first)) = xs.take first ++ xs.drop last := by
  have hhead : (xs.take first ++ (xs.drop last).take (xs.length - last)).length = xs.length - (last - first) := by
    simp only [List.length_append, List.length_take, List.length_drop]
    omega
  rw [overwrite, ← hhead, List.take_left]
  congr 1
  exact List.take_of_length_le (Nat.le_of_eq List.length_drop)

/-! ## A function over a range -/

/-- `f` is applied to the elements from `first` to `last`. -/
def mapRange (f : α → α) (first last : Nat) (xs : List α) : List α := xs.mapIdx fun i x => if first ≤ i ∧
    i < last then f x else x

section MapRange

variable {f : α → α}

theorem getElem?_mapRange (first last i : Nat) :
    (mapRange f first last xs)[i]? = xs[i]?.map fun x => if first ≤ i ∧ i < last then f x else x := by
  rw [mapRange, List.getElem?_mapIdx]

@[simp] theorem length_mapRange (first last : Nat) : (mapRange f first last xs).length = xs.length := List.length_mapIdx

theorem mapRange_of_le {first last : Nat} (h : last ≤ first) : mapRange f first last xs = xs := by
  refine List.ext_getElem? fun i => ?_
  rw [getElem?_mapRange]
  cases xs[i]? with
  | none => rfl
  | some x => rw [Option.map_some, if_neg (by omega)]

theorem mapRange_id (first last : Nat) (hf : ∀ x, f x = x) : mapRange f first last xs = xs := by
  refine List.ext_getElem? fun i => ?_
  rw [getElem?_mapRange]
  cases xs[i]? with
  | none => rfl
  | some x => rw [Option.map_some, hf, ite_self]

theorem mapRange_succ {first k : Nat} {x : α} (hx : xs[first]? = some x) :
    mapRange f (first + 1) (first + 1 + k) (xs.set first (f x)) = mapRange f first (first + (k + 1)) xs := by
  refine List.ext_getElem? fun i => ?_
  have hlt : first < xs.length := (List.getElem?_eq_some_iff.mp hx).1
  rw [getElem?_mapRange, getElem?_mapRange, List.getElem?_set]
  by_cases hi : first = i
  · subst hi
    rw [if_pos rfl, if_pos hlt, hx, Option.map_some, Option.map_some, if_neg (by omega), if_pos (by omega)]
  · rw [if_neg hi]
    cases xs[i]? with
    | none => rfl
    | some y =>
      rw [Option.map_some, Option.map_some]
      exact congrArg some (if_congr (by omega) rfl rfl)

theorem Reads.mapRange (h : Reads xs get) {first last : Nat}
    (hget : ∀ i, i < xs.length → get' i = if first ≤ i ∧ i < last then f (get i) else get i) :
    Reads (mapRange f first last xs) get' := by
  intro i hi
  rw [length_mapRange] at hi
  rw [getElem?_mapRange, h i hi, Option.map_some, hget i hi]

end MapRange

/-! ## One step again and again -/

/-- A step that may fail does not fail `n` times in a row if every step leaves what the next one needs. -/
theorem exists_foldlM_replicate {σ ω : Type} {run : σ → ω → Option σ} {op : ω} (good : Nat → σ → Prop) {n : Nat} {s : σ}
    (hstart : good 0 s) (hstep : ∀ i t, i < n → good i t → ∃ t', run t op = some t' ∧ good (i + 1) t') :
    ∃ t, (List.replicate n op).foldlM run s = some t ∧ good n t := by
  induction n with
  | zero => exact ⟨s, rfl, hstart⟩
  | succ n ih =>
    obtain ⟨t, hrun, ht⟩ := ih fun i t hi => hstep i t (Nat.lt_succ_of_lt hi)
    obtain ⟨t', hrun', ht'⟩ := hstep n t (Nat.lt_succ_self n) ht
    refine ⟨t', ?_, ht'⟩
    rw [List.replicate_succ', List.foldlM_append, hrun]
    simpa using hrun'

end Indexed
