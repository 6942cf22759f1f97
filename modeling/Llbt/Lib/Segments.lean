import Mathlib

/-!
# Sequences cut into segments

A long sequence is kept as a list of segments, with an array of the positions at which the
segments start.  `starts size acc xs` is that array for segments `xs` of lengths `size x` laid out
from position `acc`, `span size xs` their total length.

Principal results: `exists_segment` (the segment that holds a position, and how a search in the
array finds it), `starts_append` and `starts_add` (the array of a concatenation, and of segments
that have moved), for a list read at the place `pre.length` the equations `getElem?_mid`,
`set_mid`, `insertIdx_mid`, `eraseIdx_mid`, and for several places at once `setAll_append` and
`mem_setAll`.
-/

set_option autoImplicit false

namespace Segments

variable {α : Type} (size : α → Nat)

/-- The total length of the segments `xs`. -/
def span (xs : List α) : Nat := (xs.map size).sum

/-- The position at which each segment starts, the first one at `acc`. -/
def starts : Nat → List α → List Nat
  | _, [] => []
  | acc, x :: xs => acc :: starts (acc + size x) xs

@[simp] theorem span_nil : span size [] = 0 := rfl

@[simp] theorem span_cons (x : α) (xs : List α) : span size (x :: xs) = size x + span size xs := by
  simp [span]

@[simp] theorem span_append (xs ys : List α) :
    span size (xs ++ ys) = span size xs + span size ys := by
  simp [span]

theorem span_sublist_le {xs ys : List α} (h : xs.Sublist ys) : span size xs ≤ span size ys :=
  (h.map size).sum_le_sum fun _ _ => Nat.zero_le _

@[simp] theorem starts_length : ∀ (acc : Nat) (xs : List α), (starts size acc xs).length = xs.length
  | _, [] => rfl
  | acc, x :: xs => by simp [starts, starts_length (acc + size x) xs]

theorem starts_append : ∀ (acc : Nat) (xs ys : List α),
    starts size acc (xs ++ ys) = starts size acc xs ++ starts size (acc + span size xs) ys
  | acc, [], ys => by simp [starts]
  | acc, x :: xs, ys => by
    simp [starts, starts_append (acc + size x) xs ys, Nat.add_assoc]

theorem starts_add (k : Nat) : ∀ (acc : Nat) (xs : List α),
    starts size (acc + k) xs = (starts size acc xs).map (· + k)
  | _, [] => rfl
  | acc, x :: xs => by
    simp only [starts, List.map_cons]
    rw [← starts_add k (acc + size x) xs, Nat.add_right_comm]

theorem le_of_mem_starts : ∀ {acc : Nat} {xs : List α} {p : Nat}, p ∈ starts size acc xs → acc ≤ p
  | acc, x :: xs, p, h => by
    rcases List.mem_cons.mp h with rfl | h
    · exact le_rfl
    · exact (Nat.le_add_right acc (size x)).trans (le_of_mem_starts h)

/-- **The segment that holds position `i`.**  The number of segments that start at or before `i`
tells which one it is. -/
theorem exists_segment : ∀ {acc : Nat} {xs : List α} {i : Nat}, (∀ x ∈ xs, 0 < size x) → acc ≤ i →
    i < acc + span size xs → ∃ pre x post, xs = pre ++ x :: post ∧ acc + span size pre ≤ i ∧
      i < acc + span size pre + size x ∧
      ((starts size acc xs).takeWhile (· ≤ i)).length = pre.length + 1
  | acc, [], i, _, hle, hlt => by
    rw [span_nil] at hlt
    omega
  | acc, x :: xs, i, hpos, hle, hlt => by
    by_cases hi : i < acc + size x
    · -- The next segment starts beyond `i`, so the search stops after the first entry.
      refine ⟨[], x, xs, rfl, by simpa using hle, by simpa using hi, ?_⟩
      have hstop : (starts size (acc + size x) xs).takeWhile (· ≤ i) = [] := by
        cases xs with
        | nil => rfl
        | cons y ys => simp [starts, Nat.not_le.mpr hi]
      simp [starts, hle, hstop]
    · rw [span_cons] at hlt
      obtain ⟨pre, y, post, hxs, hpre, hy, hlen⟩ := exists_segment
        (fun z hz => hpos z (List.mem_cons_of_mem x hz)) (Nat.not_lt.mp hi)
        (by omega : i < acc + size x + span size xs)
      refine ⟨x :: pre, y, post, by rw [hxs]; rfl, ?_, ?_, ?_⟩
      · rw [span_cons]; omega
      · rw [span_cons]; omega
      · simp [starts, hle, hlen]

theorem starts_of_equal {e : Nat} : ∀ {acc : Nat} {xs : List α},
    (∀ x ∈ xs.dropLast, size x = e) →
      starts size acc xs = (List.range xs.length).map (fun i => acc + i * e)
  | _, [], _ => rfl
  | acc, [x], _ => by simp [starts]
  | acc, x :: y :: xs, h => by
    have hx : size x = e := h x (by simp)
    have htail : ∀ z ∈ (y :: xs).dropLast, size z = e := fun z hz => h z (by simp [hz])
    rw [starts, starts_of_equal htail, hx, List.length_cons (a := x), List.range_succ_eq_map]
    simp only [List.map_cons, List.map_map, Nat.zero_mul, Nat.add_zero, List.cons.injEq, true_and]
    apply List.map_congr_left
    intro i _
    simp only [Function.comp_apply, Nat.succ_mul]
    omega

theorem span_of_equal {e : Nat} : ∀ {xs : List α}, (∀ x ∈ xs, size x = e) →
    span size xs = xs.length * e
  | [], _ => by simp
  | x :: xs, h => by
    rw [span_cons, h x (by simp), span_of_equal fun y hy => h y (List.mem_cons_of_mem x hy),
      List.length_cons, Nat.succ_mul, Nat.add_comm]

theorem span_le {e : Nat} : ∀ {xs : List α}, (∀ x ∈ xs, size x ≤ e) → span size xs ≤ xs.length * e
  | [], _ => by simp
  | x :: xs, h => by
    have hx := h x (by simp)
    have hxs := span_le fun y hy => h y (List.mem_cons_of_mem x hy)
    rw [span_cons, List.length_cons, Nat.succ_mul]
    omega

theorem span_pos {xs : List α} (h : ∀ x ∈ xs, 0 < size x) (hne : xs ≠ []) : 0 < span size xs := by
  cases xs with
  | nil => exact absurd rfl hne
  | cons x xs =>
    rw [span_cons]
    exact Nat.add_pos_left (h x (by simp)) _

/-! ## End positions -/

/-- The position at which each segment ends, the first one starting at `acc`. -/
def ends : Nat → List α → List Nat
  | _, [] => []
  | acc, x :: xs => (acc + size x) :: ends (acc + size x) xs

@[simp] theorem ends_length : ∀ (acc : Nat) (xs : List α), (ends size acc xs).length = xs.length
  | _, [] => rfl
  | acc, x :: xs => by simp [ends, ends_length (acc + size x) xs]

theorem ends_append : ∀ (acc : Nat) (xs ys : List α),
    ends size acc (xs ++ ys) = ends size acc xs ++ ends size (acc + span size xs) ys
  | acc, [], ys => by simp [ends]
  | acc, x :: xs, ys => by
    simp [ends, ends_append (acc + size x) xs ys, Nat.add_assoc]

theorem ends_add (k : Nat) : ∀ (acc : Nat) (xs : List α),
    ends size (acc + k) xs = (ends size acc xs).map (· + k)
  | _, [] => rfl
  | acc, x :: xs => by
    simp only [ends, List.map_cons]
    rw [← ends_add k (acc + size x) xs, Nat.add_right_comm]

theorem le_of_mem_ends : ∀ {acc : Nat} {xs : List α} {p : Nat}, p ∈ ends size acc xs → acc ≤ p
  | acc, x :: xs, p, h => by
    have hle := Nat.le_add_right acc (size x)
    rcases List.mem_cons.mp h with rfl | h
    · exact hle
    · exact hle.trans (le_of_mem_ends h)

theorem pairwise_ends : ∀ (acc : Nat) (xs : List α), (ends size acc xs).Pairwise (· ≤ ·)
  | _, [] => List.Pairwise.nil
  | acc, x :: xs => List.pairwise_cons.mpr ⟨fun _ => le_of_mem_ends size, pairwise_ends (acc + size x) xs⟩

theorem ends_getLast? : ∀ (acc : Nat) (xs : List α), xs ≠ [] →
    (ends size acc xs).getLast? = some (acc + span size xs)
  | _, [], h => absurd rfl h
  | acc, [x], _ => by simp [ends]
  | acc, x :: y :: xs, _ => by
    have ih := ends_getLast? (acc + size x) (y :: xs) (List.cons_ne_nil y xs)
    rw [ends, ends, List.getLast?_cons_cons, ← ends, ih, span_cons size x, Nat.add_assoc]

theorem getLastD_ends (xs : List α) : (ends size 0 xs).getLast?.getD 0 = span size xs := by
  cases xs with
  | nil => rfl
  | cons x xs =>
    rw [ends_getLast? _ _ _ (List.cons_ne_nil x xs), Nat.zero_add]
    rfl

theorem exists_segment_ends : ∀ {acc : Nat} {xs : List α} {i : Nat}, acc ≤ i → i < acc + span size xs →
    ∃ pre x post, xs = pre ++ x :: post ∧ acc + span size pre ≤ i ∧
      i < acc + span size pre + size x ∧ (ends size acc xs).takeWhile (· ≤ i) = ends size acc pre
  | acc, [], i, hle, hlt => by
    rw [span_nil] at hlt
    omega
  | acc, x :: xs, i, hle, hlt => by
    by_cases hi : i < acc + size x
    · exact ⟨[], x, xs, rfl, hle, hi, by simp [ends, Nat.not_le.mpr hi]⟩
    · rw [span_cons] at hlt
      obtain ⟨pre, y, post, hxs, hpre, hy, htake⟩ := exists_segment_ends (Nat.not_lt.mp hi)
        (by omega : i < acc + size x + span size xs)
      refine ⟨x :: pre, y, post, by rw [hxs]; rfl, ?_, ?_, ?_⟩
      · rw [span_cons]; omega
      · rw [span_cons]; omega
      · simp [ends, Nat.not_lt.mp hi, htake]

/-! ## A list read at the place `pre.length` -/

section Middle

variable (pre post : List α) (x y : α)

@[simp] theorem getElem?_mid : (pre ++ x :: post)[pre.length]? = some x := by simp

@[simp] theorem set_mid : (pre ++ x :: post).set pre.length y = pre ++ y :: post := by simp

@[simp] theorem insertIdx_mid (xs : List α) : (pre ++ xs).insertIdx pre.length y = pre ++ y :: xs := by
  induction pre with
  | nil => simp
  | cons a pre ih => simpa using ih

@[simp] theorem eraseIdx_mid : (pre ++ x :: post).eraseIdx pre.length = pre ++ post := by
  induction pre with
  | nil => rfl
  | cons a pre ih => simpa using ih

theorem eraseIdx_set_behind (z : α) :
    ((pre ++ x :: y :: post).set (pre.length + 1) z).eraseIdx (pre.length + 1) = pre ++ x :: post := by
  have hset := set_mid (pre ++ [x]) post y z
  have herase := eraseIdx_mid (pre ++ [x]) post z
  rw [List.length_append, List.length_singleton] at hset herase
  rw [List.append_cons, hset, herase, ← List.append_cons]

theorem exists_mid {xs : List α} {i : Nat} {x : α} (h : xs[i]? = some x) :
    ∃ pre post, xs = pre ++ x :: post ∧ pre.length = i := by
  obtain ⟨hlt, hget⟩ := List.getElem?_eq_some_iff.mp h
  refine ⟨xs.take i, xs.drop (i + 1), ?_, ?_⟩
  · rw [← hget, List.cons_getElem_drop_succ, List.take_append_drop]
  · rw [List.length_take, Nat.min_eq_left hlt.le]

theorem exists_cut {xs : List α} {i : Nat} (h : i ≤ xs.length) :
    ∃ pre post, xs = pre ++ post ∧ pre.length = i :=
  ⟨xs.take i, xs.drop i, (List.take_append_drop i xs).symm, by rw [List.length_take, Nat.min_eq_left h]⟩

end Middle

/-! ## Several places at once -/

section Places

variable {V : Type}

/-- The list after the values at the given places have been replaced in turn. -/
def setAll (xs : List V) (pairs : List (Nat × V)) : List V := pairs.foldl (fun xs q => xs.set q.1 q.2) xs

theorem setAll_cons (xs : List V) (q : Nat × V) (pairs : List (Nat × V)) :
    setAll xs (q :: pairs) = setAll (xs.set q.1 q.2) pairs := rfl

theorem setAll_append (xs : List V) (ps qs : List (Nat × V)) : setAll xs (ps ++ qs) = setAll (setAll xs ps) qs :=
  List.foldl_append

theorem length_setAll : ∀ (pairs : List (Nat × V)) (xs : List V), (setAll xs pairs).length = xs.length
  | [], _ => rfl
  | q :: pairs, xs => by rw [setAll_cons, length_setAll pairs, List.length_set]

theorem mem_setAll : ∀ (pairs : List (Nat × V)) {xs : List V} {v : V},
    v ∈ setAll xs pairs → v ∈ xs ∨ v ∈ pairs.map Prod.snd
  | [], _, _, h => Or.inl h
  | q :: pairs, xs, v, h => by
    rcases mem_setAll pairs (setAll_cons xs q pairs ▸ h) with h | h
    · rcases List.mem_or_eq_of_mem_set h with h | rfl
      · exact Or.inl h
      · exact Or.inr List.mem_cons_self
    · exact Or.inr (List.mem_cons_of_mem _ h)

end Places

end Segments
