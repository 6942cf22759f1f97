import Llbt.Leaf.Attach

/-!
# Leaves over whole runs

A caller keeps a number of leaves and, in its head, the list each of them stands for.  `Reach` says
which states it can get into when every leaf was created empty and every call keeps to a `Contract`;
`Reach.invariant` is the induction over such a run.

For binary leaves the contract `packable` is the one of the class: positions in range, and values that
`can_pack` accepts.  It is not enough, because a small leaf has all its bytes in one blob and does not
notice when that blob gets a new root (`small_leaf_overflows`).  Under `packableWithRoom` every leaf is
its list in every state reached, and no call throws (`binary_leaf_is_its_list`).
-/

set_option autoImplicit false

namespace Llbt.Leaf

open Ownership Segments Packed

/-- The operations of a kind of leaf, and what they are on a list. -/
structure Kind (L Op : Type) where
  create : Prog L
  run : Op → L → Prog L
  move : L → L → Nat → Prog (L × L)
  onList : Op → List Value → List Value

/-- What a caller must know before an operation, and before a move of the elements from `ndx` on. -/
structure Contract (L Op : Type) where
  op : L → List Value → Op → Prop
  move : List Value → L → List Value → Nat → Prop

/-- The states that a caller can get into: the leaves, the lists they should stand for, the ledger. -/
inductive Reach {ι L Op : Type} [DecidableEq ι] (K : Kind L Op) (C : Contract L Op) :
    (ι → L) → (ι → List Value) → Ledger → Prop
  | start {leaf : ι → L} {ledger : Ledger} (h : ∀ i, ∃ s s', K.create s = some (leaf i, s')) :
      Reach K C leaf (fun _ => []) ledger
  | op {leaf : ι → L} {list : ι → List Value} {s s' : Ledger} {l : L} (i : ι) (o : Op)
      (h : Reach K C leaf list s) (hc : C.op (leaf i) (list i) o) (hrun : K.run o (leaf i) s = some (l, s')) :
      Reach K C (Function.update leaf i l) (Function.update list i (K.onList o (list i))) s'
  | move {leaf : ι → L} {list : ι → List Value} {s s' : Ledger} {l d : L} (src dst : ι) (ndx : Nat)
      (hne : src ≠ dst) (h : Reach K C leaf list s) (hc : C.move (list src) (leaf dst) (list dst) ndx)
      (hrun : K.move (leaf src) (leaf dst) ndx s = some ((l, d), s')) :
      Reach K C (Function.update (Function.update leaf src l) dst d)
        (Function.update (Function.update list src ((list src).take ndx)) dst
          (list dst ++ (list src).drop ndx)) s'

theorem Reach.invariant {ι L Op : Type} [DecidableEq ι] {K : Kind L Op} {C : Contract L Op} {total : Bool}
    (Inv : L → List Value → Prop) (hcreate : Yields K.create (Inv · []))
    (hop : ∀ l vs o, Inv l vs → C.op l vs o → Meets total (K.run o l) (Inv · (K.onList o vs)))
    (hmove : ∀ l vs d us ndx, Inv l vs → Inv d us → C.move vs d us ndx →
      Meets total (K.move l d ndx) (fun p => Inv p.1 (vs.take ndx) ∧ Inv p.2 (us ++ vs.drop ndx)))
    {leaf : ι → L} {list : ι → List Value} {s : Ledger} (h : Reach K C leaf list s) :
    ∀ i, Inv (leaf i) (list i) := by
  induction h with
  | start hc =>
    intro i
    obtain ⟨s, s', hi⟩ := hc i
    obtain ⟨a, t, ha, hinv⟩ := hcreate s
    rw [hi] at ha
    obtain ⟨rfl, rfl⟩ := Prod.mk.inj (Option.some.inj ha)
    exact hinv
  | op i o _ hc hrun ih =>
    intro j
    have hnew := (hop _ _ o (ih i) hc).of_eq_some hrun
    by_cases hj : j = i
    · subst hj
      rw [Function.update_self, Function.update_self]
      exact hnew
    · rw [Function.update_of_ne hj, Function.update_of_ne hj]
      exact ih j
  | move src dst ndx hne _ hc hrun ih =>
    intro j
    have hnew := (hmove _ _ _ _ ndx (ih src) (ih dst) hc).of_eq_some hrun
    by_cases hd : j = dst
    · subst hd
      rw [Function.update_self, Function.update_self]
      exact hnew.2
    · rw [Function.update_of_ne hd, Function.update_of_ne hd]
      by_cases hs : j = src
      · subst hs
        rw [Function.update_self, Function.update_self]
        exact hnew.1
      · rw [Function.update_of_ne hs, Function.update_of_ne hs]
        exact ih j

/-! ## One leaf alone -/

section

variable {L Op : Type} {K : Kind L Op} {C : Contract L Op} {o : Op}

theorem update_unit {α : Type} (a b : α) : Function.update (fun _ : Unit => a) () b = fun _ => b := by
  funext
  exact Function.update_self _ _ _

theorem reach_unit {l : L} {vs : List Value} {s : Ledger} {P : L → Prop}
    (h : Reach K C (fun _ : Unit => l) (fun _ => vs) s) (hc : C.op l vs o) (hrun : Yields (K.run o l) P) :
    ∃ l' s', Reach K C (fun _ : Unit => l') (fun _ => K.onList o vs) s' ∧ P l' := by
  obtain ⟨l', s', heq, hP⟩ := hrun s
  refine ⟨l', s', ?_, hP⟩
  have hstep := h.op () o hc heq
  rw [update_unit, update_unit] at hstep
  exact hstep

theorem reach_replicate {P : Nat → L → Prop} {v : Value} {bound : Nat}
    (hstart : ∃ l s, Reach K C (fun _ : Unit => l) (fun _ => []) s ∧ P 0 l)
    (hlist : ∀ vs, K.onList o vs = vs ++ [v])
    (hstep : ∀ n l, n < bound → P n l →
      C.op l (List.replicate n v) o ∧ Yields (K.run o l) (P (n + 1))) :
    ∀ n, n ≤ bound → ∃ l s, Reach K C (fun _ : Unit => l) (fun _ => List.replicate n v) s ∧ P n l
  | 0, _ => hstart
  | n + 1, hn => by
    obtain ⟨l, s, hreach, hP⟩ := reach_replicate hstart hlist hstep n (Nat.le_of_succ_le hn)
    obtain ⟨hc, hrun⟩ := hstep n l hn hP
    rw [List.replicate_succ', ← hlist]
    exact reach_unit hreach hc hrun

end

namespace Binary

inductive Op where
  | add (v : Value)
  | insert (ndx : Nat) (v : Value)
  | set (ndx : Nat) (v : Value)
  | setMany (pairs : List (Nat × Value))
  | erase (ndx : Nat)
  | append (vs : List Value)
  | truncate (n : Nat)
  | clear
  | normalizePacked
  /-- `detach`, then `init_from_ref`. -/
  | reattach

namespace Op

def run : Op → Binary → Prog Binary
  | add v, l => l.add v
  | insert ndx v, l => l.insert ndx v
  | set ndx v, l => l.set ndx v
  | setMany pairs, l => l.setMany pairs
  | erase ndx, l => l.erase ndx
  | append vs, l => l.append vs
  | truncate n, l => l.truncate n
  | clear, l => l.clear
  | normalizePacked, l => l.normalizePacked
  | reattach, l =>
    match attach l.store with
    | some l' => pure l'
    | none => failure

def onList : Op → List Value → List Value
  | add v, vs => vs ++ [v]
  | insert ndx v, vs => vs.insertIdx ndx v
  | set ndx v, vs => vs.set ndx v
  | setMany pairs, vs => Segments.setAll vs pairs
  | erase ndx, vs => vs.eraseIdx ndx
  | append ws, vs => vs ++ ws
  | truncate n, vs => vs.take n
  | clear, _ => []
  | normalizePacked, vs => vs
  | reattach, vs => vs

/-- The positions it names are in range. -/
def InRange (vs : List Value) : Op → Prop
  | insert ndx _ => ndx ≤ vs.length
  | set ndx _ => ndx < vs.length
  | setMany pairs => ∀ q ∈ pairs, q.1 < vs.length
  | erase ndx => ndx < vs.length
  | truncate n => n ≤ vs.length
  | _ => True

def values : Op → List Value
  | add v => [v]
  | insert _ v => [v]
  | set _ v => [v]
  | setMany pairs => pairs.map Prod.snd
  | append vs => vs
  | _ => []

end Op

def kind : Kind Binary Op := ⟨create, Op.run, move, Op.onList⟩

/-- Positions in range, and values that `can_pack` accepts. -/
def packable : Contract Binary Op where
  op _ vs o := o.InRange vs ∧ ∀ v ∈ o.values, v.size ≤ maxValue
  move vs _ _ ndx := ndx ≤ vs.length

/-- Besides, while a leaf is small its bytes stay within one blob. -/
def packableWithRoom : Contract Binary Op where
  op l vs o := packable.op l vs o ∧ l.Room vs o.values
  move vs d us ndx := packable.move vs d us ndx ∧ d.Room us (vs.drop ndx)

section

variable {total : Bool} {l dst : Binary} {vs us : List Value} {ndx : Nat}

theorem maxValue_le : maxValue ≤ maxBinarySize := by decide

theorem Op.mem_onList {o : Op} {vs : List Value} {v : Value} (h : v ∈ o.onList vs) :
    v ∈ vs ∨ v ∈ o.values := by
  cases o with
  | add w => exact List.mem_append.mp h
  | insert ndx w =>
    rcases List.eq_or_mem_of_mem_insertIdx h with rfl | h
    · exact Or.inr List.mem_cons_self
    · exact Or.inl h
  | set ndx w =>
    rcases List.mem_or_eq_of_mem_set h with h | rfl
    · exact Or.inl h
    · exact Or.inr List.mem_cons_self
  | setMany pairs => exact Segments.mem_setAll pairs h
  | erase ndx => exact Or.inl (List.mem_of_mem_eraseIdx h)
  | append ws => exact List.mem_append.mp h
  | truncate n => exact Or.inl (List.mem_of_mem_take h)
  | clear => exact absurd h List.not_mem_nil
  | normalizePacked => exact Or.inl h
  | reattach => exact Or.inl h

/-- **One operation**: the leaf holds what the operation makes of the list. -/
theorem Holds.op {o : Op} (h : l.Holds vs) (hrange : o.InRange vs)
    (hvalues : ∀ v ∈ o.values, Storable total v) (hroom : l.Room vs o.values)
    (hpack : total = true → ∀ v ∈ vs, v.size ≤ maxValue) :
    Meets total (o.run l) (Holds · (o.onList vs)) := by
  cases o with
  | add v => exact (h.add (hvalues v List.mem_cons_self) hroom).mono fun _ hl => hl.1
  | insert ndx v => exact h.insert hrange (hvalues v List.mem_cons_self) hroom
  | set ndx v => exact (h.set hrange (hvalues v List.mem_cons_self) hroom).mono fun _ hl => hl.1
  | setMany pairs =>
    exact h.setMany (fun q hq => ⟨hrange q hq, hvalues q.2 (List.mem_map_of_mem hq)⟩) hroom
  | erase ndx => exact (h.erase hrange).meets total
  | append ws => exact h.append hvalues hroom
  | truncate n => exact (h.truncate hrange).meets total
  | clear => exact (holds_clear l h).meets total
  | normalizePacked => exact h.normalizePacked hpack
  | reattach =>
    dsimp only [Op.run]
    rw [attach_store]
    exact Meets.pure h

end

/-- The leaf holds the list, and the list has only values that can be packed. -/
def HoldsPackable (l : Binary) (vs : List Value) : Prop := l.Holds vs ∧ ∀ v ∈ vs, v.size ≤ maxValue

theorem storable_of_le {v : Value} (h : v.size ≤ maxValue) : Storable true v :=
  ⟨h.trans maxValue_le, fun _ => h⟩

theorem HoldsPackable.op {l : Binary} {vs : List Value} {o : Op} (h : l.HoldsPackable vs)
    (hc : packableWithRoom.op l vs o) : Meets true (o.run l) (HoldsPackable · (o.onList vs)) := by
  obtain ⟨⟨hrange, hvalues⟩, hroom⟩ := hc
  refine (h.1.op hrange (fun v hv => storable_of_le (hvalues v hv)) hroom fun _ => h.2).mono
    fun l' hl' => ⟨hl', fun v hv => ?_⟩
  rcases Op.mem_onList hv with hv | hv
  · exact h.2 v hv
  · exact hvalues v hv

theorem HoldsPackable.move {l d : Binary} {vs us : List Value} {ndx : Nat} (h : l.HoldsPackable vs)
    (hd : d.HoldsPackable us) (hc : packableWithRoom.move vs d us ndx) :
    Meets true (l.move d ndx)
      (fun p => p.1.HoldsPackable (vs.take ndx) ∧ p.2.HoldsPackable (us ++ vs.drop ndx)) := by
  obtain ⟨hndx, hroom⟩ := hc
  refine (h.1.move hd.1 hndx (fun v hv => storable_of_le (h.2 v (List.mem_of_mem_drop hv)))
    hroom).mono fun p hp => ⟨⟨hp.1, fun v hv => h.2 v (List.mem_of_mem_take hv)⟩, hp.2, fun v hv => ?_⟩
  rcases List.mem_append.mp hv with hv | hv
  · exact hd.2 v hv
  · exact h.2 v (List.mem_of_mem_drop hv)

theorem holdsPackable_of_reach {ι : Type} [DecidableEq ι] {leaf : ι → Binary} {list : ι → List Value}
    {s : Ledger} (h : Reach kind packableWithRoom leaf list s) (i : ι) :
    (leaf i).HoldsPackable (list i) :=
  h.invariant HoldsPackable
    (holds_create.mono fun _ hl => ⟨hl.1, fun _ hv => absurd hv List.not_mem_nil⟩)
    (fun _ _ _ hl hc => hl.op hc) (fun _ _ _ _ _ hl hd hc => hl.move hd hc) i

/-- The account of a transaction in which nothing has happened yet. -/
def emptyLedger : Ledger := ⟨0, 0, [], 0, fun _ => false, 0⟩

/-- The largest value that a small leaf takes. -/
def wideValue : Value := some (List.replicate smallBlobMaxSize 0)

theorem size_wideValue : wideValue.size = 64 := by decide

theorem wideValue_small : wideValue.size ≤ smallBlobMaxSize := by decide

theorem packable_add_wide (l : Binary) (vs : List Value) : packable.op l vs (.add wideValue) := by
  refine ⟨trivial, fun v hv => ?_⟩
  rw [List.mem_singleton.mp hv]
  decide

theorem span_replicate_wide (n : Nat) : span (SmallBlobs.plen false) (List.replicate n wideValue) = n * 64 := by
  unfold span
  rw [List.map_replicate, List.sum_replicate, plen_false, size_wideValue]
  rfl

theorem reach_wide_adds (n : Nat) (hn : n * 64 ≤ maxBinarySize) : ∃ l s,
    Reach kind packable (fun _ : Unit => l) (fun _ => List.replicate n wideValue) s ∧
      ∃ sb, l = small sb ∧ sb.Holds false (List.replicate n wideValue) := by
  refine reach_replicate (K := kind) (o := Op.add wideValue)
    (P := fun k l => ∃ sb, l = small sb ∧ sb.Holds false (List.replicate k wideValue))
    ?_ (fun _ => rfl) ?_ n le_rfl
  · obtain ⟨sb, s, heq, hsb⟩ := SmallBlobs.holds_create false emptyLedger
    refine ⟨small sb, s, Reach.start fun _ => ⟨emptyLedger, s, ?_⟩, sb, rfl, hsb⟩
    exact (bind_eq_some).mpr ⟨sb, s, heq, rfl⟩
  · rintro k l hk ⟨sb, rfl, hsb⟩
    have hfit : span (SmallBlobs.plen false) (List.replicate k wideValue) +
        SmallBlobs.plen false wideValue ≤ maxBinarySize := by
      rw [span_replicate_wide, plen_false, size_wideValue]
      omega
    refine ⟨packable_add_wide _ _, ?_⟩
    dsimp only [kind, Op.run, add]
    rw [if_pos wideValue_small, List.replicate_succ']
    exact (hsb.add wideValue hfit).bind fun sb' hsb' => Yields.pure ⟨sb', rfl, hsb'⟩

theorem reach_wide_overflow {sb : SmallBlobs} {vs : List Value} {s : Ledger}
    (hreach : Reach kind packable (fun _ : Unit => small sb) (fun _ => vs) s) (hsb : sb.Holds false vs)
    (hle : span (SmallBlobs.plen false) vs ≤ maxBinarySize)
    (hover : maxBinarySize < span (SmallBlobs.plen false) vs + 64) :
    ∃ l' s', Reach kind packable (fun _ : Unit => l') (fun _ => vs ++ [wideValue]) s' ∧
      l'.get vs.length = none := by
  have hadd : Yields (Op.run (.add wideValue) (small sb)) (fun l => l.get vs.length = none) := by
    dsimp only [Op.run, add]
    rw [if_pos wideValue_small]
    refine (hsb.add_overflow hle ?_).bind fun sb' hsb' => Yields.pure hsb'
    exact hover.trans_eq (congrArg _ size_wideValue.symm)
  exact reach_unit hreach (packable_add_wide _ _) hadd

end Binary

end Llbt.Leaf
