import Mathlib

/-!
# Programs that allocate and free blocks

A program here is a function on a `Ledger`: the account a transaction keeps of the blocks it has
allocated and not yet freed.  Blocks below the ledger's `baseline` belong to the attached file and
are read-only, so a program that wants to change one copies it first (`copyOnWrite`); a block that
grows may be moved by the allocator (`write`).  Both return the block's ref afterwards.

The judgement `Yields x P` says that `x` always returns, and that what it returns satisfies `P`; it
has one rule per way of building a program.
-/

set_option autoImplicit false

namespace Ownership

/-- A block is named by its ref; a name is used for one allocation only. -/
abbrev Ref := Nat

/-- The account of one transaction. -/
structure Ledger where
  /-- Blocks below this ref are part of the attached file. -/
  baseline : Ref
  /-- The ref of the next allocation. -/
  next : Ref
  /-- The blocks allocated and not freed. -/
  live : List Ref
  /-- How many times a block was freed that was not live. -/
  faults : Nat
  /-- Whether the `k`-th write to a block finds too little room and moves it. -/
  moves : Nat → Bool
  /-- The number of writes so far. -/
  clock : Nat

/-- A program over the ledger; `none` is an error thrown. -/
abbrev Prog := StateT Ledger Option

def alloc : Prog Ref := fun s => some (s.next, { s with next := s.next + 1, live := s.next :: s.live })

/-- The block `r` is given back. -/
def free (r : Ref) : Prog Unit := fun s =>
  if r ∈ s.live then some ((), { s with live := s.live.erase r })
  else some ((), { s with faults := s.faults + 1 })

/-- The block `r` is replaced by a new block. -/
def relocate (r : Ref) : Prog Ref := do
  let r' ← alloc
  free r
  pure r'

/-- A change that fits into the block: a read-only block is copied first. -/
def copyOnWrite (r : Ref) : Prog Ref := fun s =>
  if r < s.baseline then relocate r s else some (r, s)

/-- A change that may need more room: a read-only block is copied, any other may be moved. -/
def write (r : Ref) : Prog Ref := fun s =>
  if r < s.baseline || s.moves s.clock then relocate r { s with clock := s.clock + 1 }
  else some (r, { s with clock := s.clock + 1 })

/-- Whether the block `r` is part of the attached file. -/
def isReadOnly (r : Ref) : Prog Bool := fun s => some (decide (r < s.baseline), s)

/-- The blocks of a list are given back in turn. -/
def freeAll : List Ref → Prog Unit
  | [] => pure ()
  | r :: rs => do
    free r
    freeAll rs

/-! ## Sequencing -/

section Sequencing

variable {α β : Type}

theorem bind_eq_some {x : Prog α} {f : α → Prog β} {s s'' : Ledger} {b : β} :
    (x >>= f) s = some (b, s'') ↔ ∃ a s', x s = some (a, s') ∧ f a s' = some (b, s'') := by
  constructor
  · intro h
    change (x s).bind (fun p => f p.1 p.2) = some (b, s'') at h
    obtain ⟨⟨a, s'⟩, hx, hf⟩ := Option.bind_eq_some_iff.mp h
    exact ⟨a, s', hx, hf⟩
  · rintro ⟨a, s', hx, hf⟩
    change (x s).bind (fun p => f p.1 p.2) = some (b, s'')
    rw [hx]
    exact hf

theorem not_failure_eq_some {a : α} {s s' : Ledger} : ¬ (failure : Prog α) s = some (a, s') := by
  intro h
  cases h

end Sequencing

/-! ## What a program returns -/

/-- `x` returns from every ledger, with a value that satisfies `P`. -/
def Yields {α : Type} (x : Prog α) (P : α → Prop) : Prop :=
  ∀ s, ∃ a s', x s = some (a, s') ∧ P a

namespace Yields

variable {α β : Type} {P : α → Prop} {Q : β → Prop}

theorem pure {a : α} (h : P a) : Yields (pure a : Prog α) P := fun s => ⟨a, s, rfl, h⟩

theorem bind {x : Prog α} {f : α → Prog β} (hx : Yields x P) (hf : ∀ a, P a → Yields (f a) Q) :
    Yields (x >>= f) Q := by
  intro s
  obtain ⟨a, s', ha, hP⟩ := hx s
  obtain ⟨b, s'', hb, hQ⟩ := hf a hP s'
  exact ⟨b, s'', bind_eq_some.mpr ⟨a, s', ha, hb⟩, hQ⟩

theorem mono {x : Prog α} {P' : α → Prop} (hx : Yields x P) (h : ∀ a, P a → P' a) :
    Yields x P' := by
  intro s
  obtain ⟨a, s', ha, hP⟩ := hx s
  exact ⟨a, s', ha, h a hP⟩

theorem and {x : Prog α} {P' : α → Prop} (hx : Yields x P) (hx' : Yields x P') :
    Yields x (fun a => P a ∧ P' a) := by
  intro s
  obtain ⟨a, s', ha, hP⟩ := hx s
  obtain ⟨b, s'', hb, hP'⟩ := hx' s
  obtain ⟨rfl, rfl⟩ : a = b ∧ s' = s'' := by simpa using ha.symm.trans hb
  exact ⟨a, s', ha, hP, hP'⟩

theorem alloc : Yields alloc (fun _ => True) := fun _ => ⟨_, _, rfl, trivial⟩

theorem free (r : Ref) : Yields (free r) (fun _ => True) := by
  intro s
  by_cases h : r ∈ s.live
  · exact ⟨(), _, if_pos h, trivial⟩
  · exact ⟨(), _, if_neg h, trivial⟩

theorem relocate (r : Ref) : Yields (relocate r) (fun _ => True) :=
  alloc.bind fun _ _ => (free r).bind fun _ _ => Yields.pure trivial

theorem copyOnWrite (r : Ref) : Yields (copyOnWrite r) (fun _ => True) := by
  intro s
  unfold Ownership.copyOnWrite
  split
  · exact relocate r s
  · exact ⟨_, _, rfl, trivial⟩

theorem write (r : Ref) : Yields (write r) (fun _ => True) := by
  intro s
  unfold Ownership.write
  split
  · exact relocate r _
  · exact ⟨_, _, rfl, trivial⟩

theorem isReadOnly (r : Ref) : Yields (isReadOnly r) (fun _ => True) := fun _ => ⟨_, _, rfl, trivial⟩

theorem freeAll : ∀ rs : List Ref, Yields (freeAll rs) (fun _ => True)
  | [] => Yields.pure trivial
  | r :: rs => (free r).bind fun _ _ => freeAll rs

end Yields

/-- As `Yields`, except that `x` may also throw unless it must be total. -/
def Meets {α : Type} (total : Bool) (x : Prog α) (P : α → Prop) : Prop :=
  ∀ s, (∃ a s', x s = some (a, s') ∧ P a) ∨ total = false ∧ x s = none

theorem Yields.meets {α : Type} {x : Prog α} {P : α → Prop} (h : Yields x P) (total : Bool) :
    Meets total x P := fun s => Or.inl (h s)

theorem Meets.yields {α : Type} {x : Prog α} {P : α → Prop} (h : Meets true x P) : Yields x P := by
  intro s
  rcases h s with h | ⟨h, -⟩
  · exact h
  · cases h

theorem Meets.of_eq_some {α : Type} {total : Bool} {x : Prog α} {P : α → Prop} (h : Meets total x P)
    {a : α} {s s' : Ledger} (hx : x s = some (a, s')) : P a := by
  rcases h s with ⟨b, t, hb, hP⟩ | ⟨-, hnone⟩
  · rw [hx] at hb
    cases hb
    exact hP
  · rw [hx] at hnone
    cases hnone

namespace Meets

variable {α β : Type} {total : Bool} {P : α → Prop} {Q : β → Prop}

theorem pure {a : α} (h : P a) : Meets total (pure a : Prog α) P := (Yields.pure h).meets total

theorem bind {x : Prog α} {f : α → Prog β} (hx : Meets total x P)
    (hf : ∀ a, P a → Meets total (f a) Q) : Meets total (x >>= f) Q := by
  intro s
  rcases hx s with ⟨a, s', ha, hP⟩ | ⟨ht, hnone⟩
  · rcases hf a hP s' with ⟨b, s'', hb, hQ⟩ | ⟨ht, hnone⟩
    · exact Or.inl ⟨b, s'', bind_eq_some.mpr ⟨a, s', ha, hb⟩, hQ⟩
    · refine Or.inr ⟨ht, ?_⟩
      change (x s).bind (fun r => f r.1 r.2) = none
      rw [ha]
      exact hnone
  · refine Or.inr ⟨ht, ?_⟩
    change (x s).bind (fun r => f r.1 r.2) = none
    rw [hnone]
    rfl

theorem mono {x : Prog α} {P' : α → Prop} (hx : Meets total x P) (h : ∀ a, P a → P' a) :
    Meets total x P' := by
  intro s
  rcases hx s with ⟨a, s', ha, hP⟩ | hthrown
  · exact Or.inl ⟨a, s', ha, h a hP⟩
  · exact Or.inr hthrown

theorem failure (h : total = false) : Meets total (failure : Prog α) P := fun _ => Or.inr ⟨h, rfl⟩

end Meets

end Ownership
