import Mathlib

/-!
# Blocks of an address space

A block is a range of addresses.  `cover bs x` counts the blocks of a list that contain address
`x`, which turns statements about lists of ranges into linear arithmetic at one address: a list
is disjoint when no count exceeds one, two lists hold the same space when they have the same
counts, a list tiles `[0, n)` when the count is one below `n` and zero from there on.

* `ind_split`, `ind_join` — cutting a block in two or joining neighbours changes no count;
* `cover_perm` — nor does reordering.
-/

set_option autoImplicit false

namespace Blocks

structure Block where
  ref : Nat
  size : Nat
  deriving DecidableEq, Repr

/-- The first address behind a block. -/
def Block.finish (b : Block) : Nat := b.ref + b.size

/-- Address `x` lies in the block. -/
def Block.Has (b : Block) (x : Nat) : Prop := b.ref ≤ x ∧ x < b.ref + b.size

instance (b : Block) (x : Nat) : Decidable (b.Has x) := inferInstanceAs (Decidable (_ ∧ _))

/-- One on the block, zero elsewhere. -/
def Block.ind (b : Block) (x : Nat) : Nat := if b.ref ≤ x ∧ x < b.ref + b.size then 1 else 0

/-- The number of blocks that contain `x`. -/
def cover (bs : List Block) (x : Nat) : Nat := (bs.map fun b => b.ind x).sum

/-- The blocks fill `[0, n)` exactly. -/
def Tiles (bs : List Block) (n : Nat) : Prop := ∀ x, cover bs x = if x < n then 1 else 0

/-- Two blocks have no address in common. -/
def Block.Apart (a b : Block) : Prop := a.finish ≤ b.ref ∨ b.finish ≤ a.ref

instance (a b : Block) : Decidable (a.Apart b) := inferInstanceAs (Decidable (_ ∨ _))

/-! ## Counting -/

@[simp] theorem cover_nil (x : Nat) : cover [] x = 0 := rfl

@[simp] theorem cover_cons (b : Block) (bs : List Block) (x : Nat) :
    cover (b :: bs) x = b.ind x + cover bs x := rfl

@[simp] theorem cover_append (as bs : List Block) (x : Nat) :
    cover (as ++ bs) x = cover as x + cover bs x := by
  simp [cover]

theorem cover_perm {as bs : List Block} (h : as.Perm bs) (x : Nat) : cover as x = cover bs x :=
  (h.map _).sum_eq

theorem ind_pos_iff {b : Block} {x : Nat} : 0 < b.ind x ↔ b.Has x := by
  unfold Block.ind Block.Has
  split <;> simp_all

theorem ind_eq_zero_iff {b : Block} {x : Nat} : b.ind x = 0 ↔ ¬ b.Has x := by
  rw [← ind_pos_iff]
  omega

theorem ind_le_one (b : Block) (x : Nat) : b.ind x ≤ 1 := by
  unfold Block.ind
  split <;> omega

theorem ind_eq_zero_of_size {b : Block} (h : b.size = 0) (x : Nat) : b.ind x = 0 := by
  rw [ind_eq_zero_iff]
  simp only [Block.Has]
  omega

theorem cover_eq_zero_iff {bs : List Block} {x : Nat} :
    cover bs x = 0 ↔ ∀ b ∈ bs, ¬ b.Has x := by
  induction bs with
  | nil => simp
  | cons b bs ih =>
    rw [cover_cons, Nat.add_eq_zero_iff, ih, ind_eq_zero_iff, List.forall_mem_cons]

theorem cover_pos_iff {bs : List Block} {x : Nat} : 0 < cover bs x ↔ ∃ b ∈ bs, b.Has x := by
  rw [Nat.pos_iff_ne_zero, Ne, cover_eq_zero_iff]
  simp only [not_forall, not_not, exists_prop]

theorem cover_erase {bs : List Block} {b : Block} (h : b ∈ bs) (x : Nat) :
    cover bs x = b.ind x + cover (bs.erase b) x := by
  rw [cover_perm (List.perm_cons_erase h), cover_cons]

theorem ind_le_cover {bs : List Block} {b : Block} (h : b ∈ bs) (x : Nat) :
    b.ind x ≤ cover bs x := by
  rw [cover_erase h]
  omega

theorem ind_split (b : Block) {k : Nat} (h : k ≤ b.size) (x : Nat) :
    b.ind x = (Block.mk b.ref k).ind x + (Block.mk (b.ref + k) (b.size - k)).ind x := by
  unfold Block.ind
  dsimp only
  split <;> split <;> split <;> omega

theorem ind_join {a b : Block} (h : a.ref + a.size = b.ref) (x : Nat) :
    (Block.mk a.ref (a.size + b.size)).ind x = a.ind x + b.ind x := by
  unfold Block.ind
  dsimp only
  split <;> split <;> split <;> omega

/-! ## Disjointness -/

theorem Block.apart_iff {a b : Block} (ha : 0 < a.size) (hb : 0 < b.size) :
    a.Apart b ↔ ∀ x, ¬ (a.Has x ∧ b.Has x) := by
  simp only [Block.Apart, Block.finish, Block.Has]
  constructor
  · intro h x
    omega
  · intro h
    have := h (max a.ref b.ref)
    omega

theorem cover_le_one : ∀ {bs : List Block}, bs.Pairwise (fun a b => a.finish ≤ b.ref) →
    ∀ x, cover bs x ≤ 1
  | [], _, _ => Nat.zero_le _
  | b :: bs, h, x => by
    obtain ⟨hb, hbs⟩ := List.pairwise_cons.mp h
    rw [cover_cons]
    by_cases hx : b.Has x
    · have hrest : cover bs x = 0 := by
        rw [cover_eq_zero_iff]
        intro c hc hcx
        have := hb c hc
        simp only [Block.Has, Block.finish] at hx hcx this
        omega
      have := ind_le_one b x
      omega
    · have := cover_le_one hbs x
      rw [← ind_eq_zero_iff] at hx
      omega

end Blocks
