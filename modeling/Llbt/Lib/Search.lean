import Mathlib

/-!
# Binary search

`bisect p left right` is the loop that halves a range until it is empty; `p` is asked about the middle and may fail to
answer.

* `bisect_eq` — where `p` answers "below" exactly below `k`, the loop ends at `k`;
* `halving p size` is the search without a branch: the remaining size is halved whatever the answer, three steps at a
  time while it is at least eight, and only the lower end depends on the answer; `halving_eq` is its specification;
* `pred_getElem` — in a list that is sorted with respect to `p`, the answer is "below" exactly for the first `countP p`
  elements.
-/

set_option autoImplicit false

namespace Search

/-- The loop of a binary search over the range from `left` to `right`. -/
def bisect (p : Nat → Option Bool) : (fuel left right : Nat) → Option Nat
  | 0, left, right => if left < right then none else some left
  | fuel + 1, left, right =>
    if left < right then
      (p (left + (right - left) / 2)).bind fun below =>
        if below then bisect p fuel (left + (right - left) / 2 + 1) right
        else bisect p fuel left (left + (right - left) / 2)
    else some left

theorem bisect_eq {p : Nat → Option Bool} {k : Nat} : ∀ {fuel left right : Nat}, right - left ≤ fuel → left ≤ k →
    k ≤ right → (∀ i, left ≤ i → i < right → p i = some (decide (i < k))) → bisect p fuel left right = some k
  | 0, left, right, hfuel, hleft, hright, _ => by
    rw [bisect, if_neg (by omega)]
    exact congrArg some (by omega)
  | fuel + 1, left, right, hfuel, hleft, hright, hp => by
    rw [bisect]
    split
    · have hmid := hp (left + (right - left) / 2) (by omega) (by omega)
      rw [hmid, Option.bind_some]
      by_cases hk : left + (right - left) / 2 < k
      · rw [decide_eq_true hk, if_pos rfl]
        exact bisect_eq (by omega) (by omega) hright fun i hi => hp i (by omega)
      · rw [decide_eq_false hk, if_neg Bool.false_ne_true]
        exact bisect_eq (by omega) hleft (by omega) fun i hi hi' => hp i hi (by omega)
    · exact congrArg some (by omega)

/-! ## Without a branch -/

/-- One step on the lower end and the remaining size. -/
def halve (p : Nat → Option Bool) (s : Nat × Nat) : Option (Nat × Nat) :=
  let half := s.2 / 2
  let otherHalf := s.2 - half
  (p (s.1 + half)).map fun below => (if below then s.1 + otherHalf else s.1, half)

/-- The unrolled stage. -/
def halvingUnrolled (p : Nat → Option Bool) : (fuel : Nat) → Nat × Nat → Option (Nat × Nat)
  | 0, s => if 8 ≤ s.2 then none else some s
  | fuel + 1, s =>
    if 8 ≤ s.2 then
      (halve p s).bind fun s => (halve p s).bind fun s => (halve p s).bind fun s => halvingUnrolled p fuel s
    else some s

def halvingRest (p : Nat → Option Bool) : (fuel : Nat) → Nat × Nat → Option Nat
  | 0, s => if 0 < s.2 then none else some s.1
  | fuel + 1, s => if 0 < s.2 then (halve p s).bind (halvingRest p fuel) else some s.1

def halving (p : Nat → Option Bool) (size : Nat) : Option Nat :=
  (halvingUnrolled p size (0, size)).bind fun s => halvingRest p s.2 s

/-- The boundary lies within the remaining range, and that within the first `n` positions. -/
def Within (n k : Nat) (s : Nat × Nat) : Prop := s.1 ≤ k ∧ k ≤ s.1 + s.2 ∧ s.1 + s.2 ≤ n

section Halving

variable {p : Nat → Option Bool} {n k : Nat}

theorem halve_spec (hp : ∀ i, i < n → p i = some (decide (i < k))) {s : Nat × Nat} (hs : Within n k s)
    (hpos : 0 < s.2) :
    ∃ s', halve p s = some s' ∧ s'.2 = s.2 / 2 ∧ Within n k s' := by
  obtain ⟨hlow, hhigh, hn⟩ := hs
  refine ⟨_, by rw [halve, hp _ (by omega), Option.map_some], rfl, ?_⟩
  by_cases hk : s.1 + s.2 / 2 < k
  · rw [decide_eq_true hk, if_pos rfl]
    exact ⟨by dsimp only; omega, by dsimp only; omega, by dsimp only; omega⟩
  · rw [decide_eq_false hk, if_neg Bool.false_ne_true]
    exact ⟨hlow, by dsimp only; omega, by dsimp only; omega⟩

theorem halvingUnrolled_spec (hp : ∀ i, i < n → p i = some (decide (i < k))) :
    ∀ {fuel : Nat} {s : Nat × Nat}, s.2 ≤ fuel → Within n k s →
    ∃ s', halvingUnrolled p fuel s = some s' ∧ Within n k s'
  | 0, s, hfuel, hs => ⟨s, by rw [halvingUnrolled, if_neg (by omega)], hs⟩
  | fuel + 1, s, hfuel, hs => by
    rw [halvingUnrolled]
    split
    · obtain ⟨x, hx, hx2, hxs⟩ := halve_spec hp hs (by omega)
      obtain ⟨y, hy, hy2, hys⟩ := halve_spec hp hxs (by omega)
      obtain ⟨z, hz, hz2, hzs⟩ := halve_spec hp hys (by omega)
      rw [hx, Option.bind_some, hy, Option.bind_some, hz, Option.bind_some]
      exact halvingUnrolled_spec hp (by omega) hzs
    · exact ⟨s, rfl, hs⟩

theorem halvingRest_spec (hp : ∀ i, i < n → p i = some (decide (i < k))) : ∀ {fuel : Nat} {s : Nat × Nat}, s.2 ≤ fuel →
    Within n k s →
    halvingRest p fuel s = some k
  | 0, s, hfuel, hs => by
    obtain ⟨hlow, hhigh, -⟩ := hs
    rw [halvingRest, if_neg (by omega)]
    exact congrArg some (by omega)
  | fuel + 1, s, hfuel, hs => by
    rw [halvingRest]
    split
    · obtain ⟨x, hx, hx2, hxs⟩ := halve_spec hp hs (by omega)
      rw [hx, Option.bind_some]
      exact halvingRest_spec hp (by omega) hxs
    · obtain ⟨hlow, hhigh, -⟩ := hs
      exact congrArg some (by omega)

theorem halving_eq {size : Nat} (hk : k ≤ size) (hp : ∀ i, i < size → p i = some (decide (i < k))) :
    halving p size = some k := by
  have hstart : Within size k (0, size) := ⟨Nat.zero_le k, by simpa using hk, by simp⟩
  obtain ⟨s, hs, hwithin⟩ := halvingUnrolled_spec hp (Nat.le_refl size) hstart
  rw [halving, hs, Option.bind_some]
  exact halvingRest_spec hp (Nat.le_refl _) hwithin

end Halving

variable {α : Type} {p : α → Bool}

theorem countP_eq_zero_of_head {x : α} {xs : List α} (h : (x :: xs).Pairwise (fun a b => p b = true → p a = true))
    (hx : p x = false) : (x :: xs).countP p = 0 := by
  rw [List.countP_eq_zero]
  intro y hy hp
  rcases List.mem_cons.mp hy with rfl | hy
  · rw [hx] at hp
    cases hp
  · have := (List.pairwise_cons.mp h).1 y hy hp
    rw [hx] at this
    cases this

theorem pred_getElem : ∀ {xs : List α}, xs.Pairwise (fun a b => p b = true → p a = true) → ∀ {i : Nat} {x : α},
    xs[i]? = some x → p x = decide (i < xs.countP p)
  | [], _, i, x, hx => by cases hx
  | y :: xs, h, i, x, hx => by
    cases hy : p y with
    | false =>
      rw [countP_eq_zero_of_head h hy]
      have hzero := List.countP_eq_zero.mp (countP_eq_zero_of_head h hy) x (List.mem_of_getElem? hx)
      simpa using hzero
    | true =>
      rw [List.countP_cons_of_pos hy]
      cases i with
      | zero =>
        obtain rfl : y = x := Option.some.inj hx
        rw [hy]
        simp
      | succ i =>
        rw [pred_getElem (List.pairwise_cons.mp h).2 hx]
        simp

end Search
