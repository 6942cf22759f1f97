import Llbt.BPlusTree.LowerBound

/-!
# Trees that are kept in order

`core.hpp` names the usual pattern of a tree that is kept sorted: `insert(lower_bound(v), v)`.  With
`erase(lower_bound(v))` for a value that `get` finds there, such a tree is a multiset.

* `sorted_run` — every sequence of these operations leaves the multiset in order, and `lower_bound` finds its values.
-/

set_option autoImplicit false

namespace Llbt.BPlusTree

open Segments Ownership

section Model

variable {V : Type} [LinearOrder V] (T : LeafClass V) (maxSize : Nat)

def less (a b : V) : Bool := decide (a < b)

inductive SortedOp (V : Type) where
  | insert (value : V)
  | erase (value : V)

/-- `insert(lower_bound(v), v)`, and `erase(lower_bound(v))` if `get` finds the value there. -/
def SortedOp.onTree : SortedOp V → Tree T → Prog (Tree T)
  | .insert v, t => match t.lowerBound T less v with
    | some i => t.insert T maxSize (some i) v
    | none => failure
  | .erase v, t => match t.lowerBound T less v with
    | some i =>
      if i < t.size then
        if (t.get T i).1 = some v then (t.get T i).2.erase T maxSize i else pure (t.get T i).2
      else pure t
    | none => failure

def runSorted : List (SortedOp V) → Tree T → Prog (Tree T)
  | [], t => pure t
  | op :: ops, t => do
    let t ← op.onTree T maxSize t
    runSorted ops t

def SortedOp.onMultiset (m : Multiset V) : SortedOp V → Multiset V
  | .insert v => v ::ₘ m
  | .erase v => m.erase v

end Model

section Runs

variable {V : Type} [LinearOrder V] {T : LeafClass V} (L : ListLike T) {maxSize : Nat} {t : Tree T} {xs : List V}
    {m : Multiset V}

/-- The place that `lower_bound` finds. -/
theorem split_lowerBound (v : V) : ∀ {xs : List V}, xs.Pairwise (· ≤ ·) →
    ∃ a b, xs = a ++ b ∧ a.length = xs.countP (less · v) ∧ (∀ x ∈ a, x < v) ∧ ∀ x ∈ b, v ≤ x
  | [], _ => ⟨[], [], rfl, rfl, nofun, nofun⟩
  | x :: xs, h => by
    obtain ⟨hx, hxs⟩ := List.pairwise_cons.mp h
    by_cases hlt : x < v
    · obtain ⟨a, b, hsplit, hlength, ha, hb⟩ := split_lowerBound v hxs
      refine ⟨x :: a, b, by rw [hsplit, List.cons_append], ?_, List.forall_mem_cons.mpr ⟨hlt, ha⟩, hb⟩
      rw [List.countP_cons, List.length_cons, hlength, less, if_pos (decide_eq_true hlt)]
    · have hall : ∀ y ∈ x :: xs, v ≤ y :=
        List.forall_mem_cons.mpr ⟨not_lt.mp hlt, fun y hy => (not_lt.mp hlt).trans (hx y hy)⟩
      refine ⟨[], x :: xs, rfl, (List.countP_eq_zero.mpr fun y hy hless => ?_).symm, nofun, hall⟩
      exact not_lt.mpr (hall y hy) (of_decide_eq_true hless)

/-- A tree in order that holds the multiset. -/
def SortedInv (maxSize : Nat) (t : Tree T) (m : Multiset V) : Prop :=
  ∃ xs : List V, t.Inv L maxSize xs ∧ xs.Pairwise (· ≤ ·) ∧ (xs : Multiset V) = m

theorem lowerBound_of_sorted (ht : t.Inv L maxSize xs) (hsorted : xs.Pairwise (· ≤ ·)) (v : V) :
    t.lowerBound T less v = some (xs.countP (less · v)) :=
  (ht.searchable L).lowerBound (hsorted.imp fun hab hb => decide_eq_true (hab.trans_lt (of_decide_eq_true hb)))

/-- A value is in the list exactly if it is at the place that `lower_bound` finds. -/
theorem mem_iff_head {a b : List V} {v : V} (hsorted : (a ++ b).Pairwise (· ≤ ·)) (ha : ∀ x ∈ a, x < v)
    (hb : ∀ x ∈ b, v ≤ x) : v ∈ a ++ b ↔ b.head? = some v := by
  refine ⟨fun hv => ?_, fun hv => List.mem_append_right _ (List.mem_of_mem_head? hv)⟩
  have hvb : v ∈ b := (List.mem_append.mp hv).resolve_left fun h => lt_irrefl v (ha v h)
  cases b with
  | nil => exact nomatch hvb
  | cons x b =>
    have hx := (List.pairwise_cons.mp (List.pairwise_append.mp hsorted).2.1).1
    rcases List.mem_cons.mp hvb with rfl | hvb
    · rfl
    · exact congrArg some (le_antisymm (hx v hvb) (hb x List.mem_cons_self))

theorem sortedInv_insert (hmax : 2 ≤ maxSize) (ht : SortedInv L maxSize t m) (v : V) :
    Yields ((SortedOp.insert v).onTree T maxSize t) (SortedInv L maxSize · (v ::ₘ m)) := by
  obtain ⟨xs, ht, hsorted, rfl⟩ := ht
  rw [SortedOp.onTree, lowerBound_of_sorted L ht hsorted]
  obtain ⟨a, b, rfl, hlength, ha, hb⟩ := split_lowerBound v hsorted
  rw [← hlength]
  have hstep : (Op.insert a.length v).onList (a ++ b) = some ((a ++ b).insertIdx a.length v) := if_pos (by simp)
  refine (inv_step L hmax ht hstep).mono fun t' ht' => ⟨_, ht', ?_, ?_⟩
  · rw [insertIdx_mid]
    obtain ⟨ha', hb', hab⟩ := List.pairwise_append.mp hsorted
    refine List.pairwise_append.mpr ⟨ha', List.pairwise_cons.mpr ⟨hb, hb'⟩, fun x hx y hy => ?_⟩
    rcases List.mem_cons.mp hy with rfl | hy
    · exact (ha x hx).le
    · exact hab x hx y hy
  · rw [insertIdx_mid]
    exact Multiset.coe_eq_coe.mpr List.perm_middle

theorem sortedInv_erase (hmax : 2 ≤ maxSize) (ht : SortedInv L maxSize t m) (v : V) :
    Yields ((SortedOp.erase v).onTree T maxSize t) (SortedInv L maxSize · (m.erase v)) := by
  obtain ⟨xs, ht, hsorted, rfl⟩ := ht
  rw [SortedOp.onTree, lowerBound_of_sorted L ht hsorted]
  obtain ⟨a, b, rfl, hlength, ha, hb⟩ := split_lowerBound v hsorted
  have hmem := mem_iff_head hsorted ha hb
  rw [← hlength]
  dsimp only
  rw [ht.size_eq]
  cases b with
  | nil =>
    rw [if_neg (by simp)]
    refine Yields.pure ⟨_, ht, hsorted, (Multiset.erase_of_notMem fun hv => ?_).symm⟩
    exact nomatch hmem.mp hv
  | cons y b =>
    have hlt : a.length < (a ++ y :: b).length := by simp
    obtain ⟨hget, ht'⟩ := get_spec L ht hlt
    rw [if_pos hlt, hget, getElem?_mid]
    split
    · rename_i hy
      obtain rfl := Option.some.inj hy
      have hstep : (Op.erase a.length).onList (a ++ y :: b) = some ((a ++ y :: b).eraseIdx a.length) := if_pos hlt
      refine (inv_step L hmax ht' hstep).mono fun t' ht' => ⟨_, ht', ?_, ?_⟩
      · rw [eraseIdx_mid]
        exact hsorted.sublist ((List.sublist_cons_self _ _).append_left a)
      · rw [eraseIdx_mid]
        exact (Multiset.erase_cons_head _ _).symm.trans (congrArg (Multiset.erase · _)
          (Multiset.coe_eq_coe.mpr List.perm_middle.symm))
    · rename_i hy
      exact Yields.pure ⟨_, ht', hsorted, (Multiset.erase_of_notMem fun hv => hy (hmem.mp hv)).symm⟩

theorem sortedInv_step (hmax : 2 ≤ maxSize) (ht : SortedInv L maxSize t m) : ∀ op : SortedOp V,
    Yields (op.onTree T maxSize t) (SortedInv L maxSize · (op.onMultiset m))
  | .insert v => sortedInv_insert L hmax ht v
  | .erase v => sortedInv_erase L hmax ht v

theorem sortedInv_run (hmax : 2 ≤ maxSize) : ∀ (ops : List (SortedOp V)) {t : Tree T} {m : Multiset V},
    SortedInv L maxSize t m → Yields (runSorted T maxSize ops t)
      (SortedInv L maxSize · (ops.foldl SortedOp.onMultiset m))
  | [], _, _, ht => Yields.pure ht
  | op :: ops, _, _, ht => (sortedInv_step L hmax ht op).bind fun _ ht' => sortedInv_run hmax ops ht'

/-- **A sorted multiset.**  From the empty tree every sequence of such insertions and erasures returns, and leaves a
tree that denotes the multiset in order; a value is in it exactly if it is at the place that `lower_bound` finds. -/
theorem sorted_run (hmax : 2 ≤ maxSize) (ops : List (SortedOp V)) :
    Yields (Tree.create T >>= runSorted T maxSize ops) fun t =>
      t.Denotes L maxSize ((ops.foldl SortedOp.onMultiset 0).sort (· ≤ ·)) ∧
      ∀ v, ∃ i, t.lowerBound T less v = some i ∧
        (v ∈ ops.foldl SortedOp.onMultiset 0 ↔ i < t.size ∧ (t.get T i).1 = some v) := by
  refine ((inv_create L).bind fun t ht => sortedInv_run L hmax ops (m := 0) ⟨[], ht, .nil, rfl⟩).mono fun t ht => ?_
  obtain ⟨xs, ht, hsorted, hm⟩ := ht
  rw [← hm]
  have hsort : (xs : Multiset V).sort (· ≤ ·) = xs :=
    (Multiset.coe_eq_coe.mp (Multiset.sort_eq _ _)).eq_of_pairwise' (Multiset.pairwise_sort _ _) hsorted
  refine ⟨hsort.symm ▸ ht.denotes L, fun v => ⟨_, lowerBound_of_sorted L ht hsorted v, ?_⟩⟩
  obtain ⟨a, b, rfl, hlength, ha, hb⟩ := split_lowerBound v hsorted
  rw [← hlength, ht.size_eq, Multiset.mem_coe, mem_iff_head hsorted ha hb]
  cases b with
  | nil => simp
  | cons y b =>
    have hlt : a.length < (a ++ y :: b).length := by simp
    rw [(get_spec L ht hlt).1, getElem?_mid]
    exact ⟨fun h => ⟨hlt, h⟩, fun h => h.2⟩

end Runs

/-- 2, 1 and 2 again are inserted and 2 is erased, with two elements to a node. -/
theorem sorted_run_integers : 2 ≤ 2 ∧
    Yields (Tree.create Leaf.integerClass >>= runSorted Leaf.integerClass 2 [.insert 2, .insert 1, .insert 2, .erase 2])
      (·.Denotes Leaf.integerListLike 2 (({1, 2} : Multiset Int).sort (· ≤ ·))) :=
  ⟨le_rfl, (sorted_run Leaf.integerListLike le_rfl [.insert 2, .insert 1, .insert 2, .erase 2]).mono fun _ ht => ht.1⟩

end Llbt.BPlusTree
