import Llbt.GroupCommit.ExactlyOnce

/-!
# Group commit: on which state a closure was judged

A closure that throws in a batch has run on the effects of the entries before it.  The batch is
rolled back and those entries run again, one by one, and between the two other writers may commit.
So the exception that `write` throws may come from a state that was never committed
(`thrown_on_rolled_back_state`).  It does not when a closure that throws in a batch throws the same
on the store the batch started from: `outcome_on_committed_state`.
-/

set_option autoImplicit false

namespace Llbt.GroupCommit

variable {T S E : Type} [DecidableEq T]

/-- Closures that depend on nothing but the store. -/
def deterministic (f : T → S → Except E S) : Closures T S E := fun t σ r => r = f t σ

/-- The states that were committed, in the order of the transactions; `σ` is the first. -/
def State.committed (s : State T S E) (σ : S) : List S := σ :: s.history.map (·.after)

/-- The closure of `t` throws `e` on a committed state. -/
def State.Throws (f : T → S → Except E S) (σ : S) (s : State T S E) (t : T) (e : E) : Prop :=
  ∃ σ' ∈ s.committed σ, f t σ' = .error e

/-- A closure that throws on the effects of its batch also throws on the store before the batch. -/
def State.ThrowsAlone (f : T → S → Except E S) (s : State T S E) : Prop :=
  ∀ l t batch todo ran cur e, s.leader = some (l, .running batch (t :: todo) ran cur) →
    f t cur = .error e → f t s.store = .error e

/-- Reachable by steps that throw in a batch only what the closure throws alone. -/
inductive ReachableAlone (f : T → S → Except E S) : State T S E → Prop
  | initial {s : State T S E} : Initial s → ReachableAlone f s
  | move {s s' : State T S E} : ReachableAlone f s → s.ThrowsAlone f →
    Move (deterministic f) true s s' → ReachableAlone f s'
  | plain {s s' : State T S E} : ReachableAlone f s → PlainStep s s' → ReachableAlone f s'

theorem ReachableAlone.reachable {f : T → S → Except E S} {s : State T S E}
    (h : ReachableAlone f s) : Reachable (deterministic f) s := by
  induction h with
  | initial hinit => exact .initial hinit
  | move _ _ hmove ih => exact ih.move hmove
  | plain _ hstep ih => exact ih.plain hstep

/-- The exception that a phase has in store for an entry of its batch. -/
def Phase.blames : Phase T S E → T → E → Prop
  | .thrown batch thrower e, t, e' | .rerun batch thrower e _, t, e'
  | .rerunning batch thrower e _ _, t, e' | .rerunRan batch thrower e _ _ _, t, e' =>
    batch[thrower]? = some t ∧ e' = e
  | .finishing batch (some (.failed (.closure e))), t, e' => t ∈ batch ∧ e' = e
  | _, _, _ => False

/-- Every exception of a closure, set or announced, is thrown on a committed state. -/
structure Judged (f : T → S → Except E S) (σ : S) (s : State T S E) : Prop where
  error : ∀ t e, (s.pending t).error = some (.closure e) → s.Throws f σ t e
  blamed : ∀ l ph t e, s.leader = some (l, ph) → ph.blames t e → s.Throws f σ t e

section Judged

variable {f : T → S → Except E S} {σ : S} {s s' : State T S E} {l : T} {ph ph' : Phase T S E}

omit [DecidableEq T] in
theorem chain_end_mem {runs : Closures T S E} {σ σ' : S} {p : List (Option T × S × S)}
    (h : Chain runs σ p σ') : σ' ∈ σ :: p.map fun x => x.2.2 := by
  induction p generalizing σ with
  | nil =>
    cases h
    exact List.mem_cons_self
  | cons x p ih =>
    obtain ⟨-, -, hrest⟩ := h
    exact List.mem_cons_of_mem _ (ih hrest)

omit [DecidableEq T] in
theorem Chained.store_mem {runs : Closures T S E} (h : Chained runs σ s) :
    s.store ∈ s.committed σ := by
  have hmem := chain_end_mem h.history
  rw [List.map_map] at hmem
  exact hmem

omit [DecidableEq T] in
theorem Judged.keep (h : Judged f σ s) (hhistory : ∃ new, s'.history = s.history ++ new)
    (herror : ∀ t e, (s'.pending t).error = some (.closure e) →
      (s.pending t).error = some (.closure e) ∨ s'.Throws f σ t e)
    (hblamed : ∀ l ph t e, s'.leader = some (l, ph) → ph.blames t e →
      (∃ l₀ ph₀, s.leader = some (l₀, ph₀) ∧ ph₀.blames t e) ∨ s'.Throws f σ t e) :
    Judged f σ s' := by
  obtain ⟨new, hnew⟩ := hhistory
  have hmono : ∀ t e, s.Throws f σ t e → s'.Throws f σ t e := by
    rintro t e ⟨σ', hmem, hthrows⟩
    refine ⟨σ', ?_, hthrows⟩
    rw [State.committed, hnew, List.map_append, ← List.cons_append]
    exact List.mem_append_left _ hmem
  refine ⟨?_, ?_⟩
  · intro t e he
    rcases herror t e he with hold | hthrows
    · exact hmono t e (h.error t e hold)
    · exact hthrows
  · intro l ph t e hl hb
    rcases hblamed l ph t e hl hb with ⟨l₀, ph₀, h₀, hb₀⟩ | hthrows
    · exact hmono t e (h.blamed l₀ ph₀ t e h₀ hb₀)
    · exact hthrows

omit [DecidableEq T] in
theorem Judged.move (h : Judged f σ s) (hl : s.leader = some (l, ph)) (hl' : s'.leader = some (l, ph'))
    (hhistory : ∃ new, s'.history = s.history ++ new)
    (herror : ∀ t, (s'.pending t).error = (s.pending t).error)
    (hblames : ∀ t e, ph'.blames t e → ph.blames t e) : Judged f σ s' := by
  refine h.keep hhistory ?_ ?_
  · intro t e he
    rw [herror] at he
    exact .inl he
  · intro l₀ ph₀ t e h₀ hb
    obtain ⟨rfl, rfl⟩ := Prod.mk.inj (Option.some.inj (hl'.symm.trans h₀))
    exact .inl ⟨l, ph, hl, hblames t e hb⟩

theorem Judged.setError (h : Judged f σ s) {u : T} {x : Failure E} (hl : s.leader = some (l, ph))
    (hl' : s'.leader = some (l, ph')) (hhistory : ∃ new, s'.history = s.history ++ new)
    (hpending : s'.pending = Function.update s.pending u { s.pending u with error := some x })
    (hx : ∀ e, x = .closure e → s'.Throws f σ u e)
    (hblames : ∀ t e, ph'.blames t e → ph.blames t e) : Judged f σ s' := by
  refine h.keep hhistory ?_ ?_
  · intro t e he
    rw [hpending] at he
    by_cases htu : t = u
    · subst htu
      rw [Function.update_self] at he
      exact .inr (hx e (Option.some.inj he))
    · rw [Function.update_of_ne htu] at he
      exact .inl he
  · intro l₀ ph₀ t e h₀ hb
    obtain ⟨rfl, rfl⟩ := Prod.mk.inj (Option.some.inj (hl'.symm.trans h₀))
    exact .inl ⟨l, ph, hl, hblames t e hb⟩

omit [DecidableEq T] in
theorem finish_error {p : Pending E} {result : Option (Outcome E)} {e : E}
    (h : (p.finish result).error = some (.closure e)) :
    p.error = some (.closure e) ∨ result = some (.failed (.closure e)) := by
  cases result with
  | none => exact .inl h
  | some o =>
    cases o with
    | version v => exact .inl h
    | failed x =>
      cases h
      exact .inr rfl

theorem Judged.finish (h : Judged f σ s) {batch : List T} {result : Option (Outcome E)}
    (hl : s.leader = some (l, .finishing batch result)) :
    Judged f σ ((s.finish batch result).setPhase l .finished) := by
  refine h.keep ⟨[], (List.append_nil _).symm⟩ ?_ ?_
  · intro t e he
    have he : (if t ∈ batch then (s.pending t).finish result else s.pending t).error =
        some (.closure e) := he
    by_cases hmem : t ∈ batch
    · rw [if_pos hmem] at he
      rcases finish_error he with hold | rfl
      · exact .inl hold
      · exact .inr (h.blamed l _ t e hl ⟨hmem, rfl⟩)
    · rw [if_neg hmem] at he
      exact .inl he
  · rintro l₀ ph₀ t e ⟨⟩ hb
    exact hb.elim

theorem Move.judged (hmove : Move (deterministic f) true s s') (hp : Placed s)
    (hchained : Chained (deterministic f) σ s) (halone : s.ThrowsAlone f) (h : Judged f σ s) :
    Judged f σ s' := by
  have hsame : ∀ {s' : State T S E}, s'.history = s.history →
      ∃ new, s'.history = s.history ++ new := fun heq => ⟨[], by rw [heq, List.append_nil]⟩
  cases hmove with
  | call _ | ret _ _ _ =>
    exact h.keep (hsame rfl) (fun _ _ he => .inl he) fun l ph _ _ hl hb => .inl ⟨l, ph, hl, hb⟩
  | lead _ _ _ =>
    refine h.keep (hsame rfl) (fun _ _ he => .inl he) ?_
    rintro l ph t e ⟨⟩ hb
    exact hb.elim
  | beginWrite hl _ | beginFails _ hl | drainFailed hl | drain hl | run hl _ | rerunEnd hl =>
    exact h.move hl rfl (hsame rfl) (fun _ => rfl) fun _ _ hb => hb.elim
  | @throws l t batch todo ran cur e hl hrun =>
    refine h.keep (hsame rfl) (fun _ _ he => .inl he) ?_
    rintro l₀ ph₀ u e' ⟨⟩ ⟨hu, rfl⟩
    have hbatch : batch = ran.map (·.1) ++ t :: todo := (hp.leader _ _ hl).2.2.2
    rw [hbatch, List.getElem?_append_right (by simp), List.length_map, Nat.sub_self] at hu
    cases hu
    have hthrows : f t s.store = .error e' := halone l t batch todo ran cur e' hl hrun.symm
    exact .inr ⟨s.store, hchained.store_mem, hthrows⟩
  | commit hl => exact h.move hl rfl ⟨_, rfl⟩ (fun _ => rfl) fun _ _ hb => hb.elim
  | commitFails published _ hl =>
    cases published with
    | true => exact h.move hl rfl ⟨_, rfl⟩ (fun _ => rfl) fun _ _ hb => hb.elim
    | false => exact h.move hl rfl (hsame rfl) (fun _ => rfl) fun _ _ hb => hb.elim
  | @rollback l batch thrower e hl =>
    obtain ⟨-, hlt⟩ := (hp.leader _ _ hl).2.2
    refine h.move hl rfl (hsame rfl) (fun _ => rfl) ?_
    intro t e' hb
    split at hb
    next hone =>
      obtain ⟨hmem, rfl⟩ := hb
      obtain ⟨u, rfl⟩ := List.length_eq_one_iff.mp hone
      have hzero : thrower = 0 := by simpa using hlt
      rw [List.mem_singleton.mp hmem, hzero]
      exact ⟨rfl, rfl⟩
    next => exact hb
  | @rerunThrower l t batch thrower e hl ht =>
    refine h.setError hl rfl (hsame rfl) rfl ?_ fun _ _ hb => hb
    rintro e' ⟨⟩
    exact h.blamed l _ t e hl ⟨ht, rfl⟩
  | rerunBegin hl _ _ _ => exact h.move hl rfl (hsame rfl) (fun _ => rfl) fun _ _ hb => hb
  | rerunBeginFails _ hl _ _ =>
    exact h.setError hl rfl (hsame rfl) rfl (fun _ he => (by cases he)) fun _ _ hb => hb
  | rerunRun hl _ => exact h.move hl rfl (hsame rfl) (fun _ => rfl) fun _ _ hb => hb
  | rerunThrows hl hrun =>
    refine h.setError hl rfl (hsame rfl) rfl ?_ fun _ _ hb => hb
    rintro e' ⟨⟩
    exact ⟨s.store, hchained.store_mem, hrun.symm⟩
  | @rerunCommit l t batch thrower i e cur hl =>
    refine h.move hl rfl ⟨_, rfl⟩ ?_ fun _ _ hb => hb
    intro u
    change (Function.update s.pending t { s.pending t with version := s.version + 1 } u).error = _
    by_cases hut : u = t
    · subst hut
      rw [Function.update_self]
    · rw [Function.update_of_ne hut]
  | rerunCommitFails published _ hl =>
    cases published with
    | true => exact h.setError hl rfl ⟨_, rfl⟩ rfl (fun _ he => (by cases he)) fun _ _ hb => hb
    | false => exact h.setError hl rfl (hsame rfl) rfl (fun _ he => (by cases he)) fun _ _ hb => hb
  | finish hl => exact h.finish hl
  | stepDown hl => exact h.keep (hsame rfl) (fun _ _ he => .inl he) fun _ _ _ _ h₀ => by cases h₀

omit [DecidableEq T] in
theorem PlainStep.judged (hstep : PlainStep s s') (h : Judged f σ s) : Judged f σ s' := by
  have hblamed : ∀ l ph t e, s.leader = some (l, ph) → ph.blames t e →
      (∃ l₀ ph₀, s.leader = some (l₀, ph₀) ∧ ph₀.blames t e) ∨ s'.Throws f σ t e :=
    fun l ph _ _ hl hb => .inl ⟨l, ph, hl, hb⟩
  cases hstep with
  | begin _ => exact h.keep ⟨[], (List.append_nil _).symm⟩ (fun _ _ he => .inl he) hblamed
  | commit new _ => exact h.keep ⟨_, rfl⟩ (fun _ _ he => .inl he) hblamed
  | rollback _ => exact h.keep ⟨[], (List.append_nil _).symm⟩ (fun _ _ he => .inl he) hblamed

omit [DecidableEq T] in
theorem Initial.judged (h : Initial s) : Judged f σ s := by
  refine ⟨?_, ?_⟩
  · intro t e he
    rw [h.pending] at he
    cases he
  · intro l ph t e hl
    rw [h.leader] at hl
    cases hl

theorem ReachableAlone.judged (h : ReachableAlone f s) :
    ∃ σ, Chained (deterministic f) σ s ∧ Judged f σ s := by
  induction h with
  | initial hinit => exact ⟨_, hinit.chained, hinit.judged⟩
  | move hr halone hmove ih =>
    obtain ⟨σ, hchained, hjudged⟩ := ih
    exact ⟨σ, hmove.chained hchained, hmove.judged hr.reachable.placed hchained halone hjudged⟩
  | plain hr hstep ih =>
    obtain ⟨σ, hchained, hjudged⟩ := ih
    exact ⟨σ, hstep.chained hr.reachable.lock hchained, hstep.judged hjudged⟩

end Judged

/-! ## Main theorem -/

/-- The committed transactions form one serial order, in which every call that returned a version ran
its closure on the state before its part, and every call that threw the exception of its closure
has a state on which the closure throws it. -/
theorem outcome_on_committed_state (f : T → S → Except E S) {s : State T S E}
    (h : ReachableAlone f s) :
    ∃ σ, Chain (deterministic f) σ (s.history.map Entry.part) s.store ∧
      (∀ t v, s.status t = .returned (.version v) →
        ∃ e, s.partsOf t = [e] ∧ e.version = v ∧ f t e.before = .ok e.after) ∧
      (∀ t e, s.status t = .returned (.failed (.closure e)) →
        ∃ σ' ∈ s.committed σ, f t σ' = .error e) := by
  obtain ⟨σ, hchained, hjudged⟩ := h.judged
  have hplaced := h.reachable.placed
  refine ⟨σ, hchained.history, ?_, ?_⟩
  · intro t v ht
    obtain ⟨hd, ho⟩ := hplaced.returned t _ ht
    have hsettled := h.reachable.results.settled t (.inl hd)
    rw [← ho] at hsettled
    obtain ⟨e, he, hv⟩ := hsettled
    exact ⟨e, he, hv, (hchained.runs_of_mem (he ▸ List.mem_singleton_self e)).symm⟩
  · intro t e ht
    obtain ⟨-, ho⟩ := hplaced.returned t _ ht
    refine hjudged.error t e ?_
    rw [Pending.outcome] at ho
    split at ho
    next f hf =>
      cases ho
      exact hf
    next => cases ho

/-- Two calls before they are made; the store is `0`. -/
def twoCalls : State Bool Nat Unit where
  status := fun _ => .idle
  pending := fun _ => {}
  queue := []
  leader := none
  writer := none
  store := 0
  version := 1
  history := []

theorem twoCalls_initial : Initial twoCalls :=
  ⟨fun _ => rfl, fun _ => rfl, rfl, rfl, rfl, rfl⟩

/-- `false` adds one and `true` always throws. -/
def oneThrows : Bool → Nat → Except Unit Nat
  | false, σ => .ok (σ + 1)
  | true, _ => .error ()

theorem outcome_on_committed_state_small :
    ∃ s : State Bool Nat Unit, ReachableAlone oneThrows s ∧
      s.status true = .returned (.failed (.closure ())) ∧
      ∃ σ, ∃ σ' ∈ s.committed σ, oneThrows true σ' = .error () := by
  have halone : ∀ s : State Bool Nat Unit, s.ThrowsAlone oneThrows := by
    intro s l t batch todo ran cur e _ he
    cases t with
    | false => cases he
    | true => exact he
  have h0 : ReachableAlone oneThrows twoCalls := .initial twoCalls_initial
  have h1 := h0.move (halone _) (.call (t := false) rfl)
  have h2 := h1.move (halone _) (.call (t := true) rfl)
  have h3 := h2.move (halone _) (.lead (t := false) rfl rfl rfl)
  have h4 := h3.move (halone _) (.beginWrite rfl rfl)
  have h5 := h4.move (halone _) (.drain rfl)
  have h6 := h5.move (halone _) (.run (t := false) rfl rfl)
  have h7 := h6.move (halone _) (.throws (t := true) rfl rfl)
  have h8 := h7.move (halone _) (.rollback rfl)
  have h9 := h8.move (halone _) (.rerunBegin (t := false) rfl rfl (by decide) rfl)
  have h10 := h9.move (halone _) (.rerunRun (t := false) rfl rfl)
  have h11 := h10.move (halone _) (.rerunCommit rfl)
  have h12 := h11.move (halone _) (.rerunThrower (t := true) rfl rfl)
  have h13 := h12.move (halone _) (.rerunEnd rfl)
  have h14 := h13.move (halone _) (.finish rfl)
  have h15 := h14.move (halone _) (.ret (t := true) rfl rfl fun ph hph => by cases hph)
  obtain ⟨σ, -, -, hfailed⟩ := outcome_on_committed_state oneThrows h15
  exact ⟨_, h15, rfl, σ, hfailed true () rfl⟩

/-- `false` turns `0` into `1` and throws on anything else; `true` throws only on `1`. -/
def throwsOnOne : Bool → Nat → Except Unit Nat
  | false, 0 => .ok 1
  | false, _ + 1 => .error ()
  | true, 1 => .error ()
  | true, σ => .ok σ

/-- The batch computes `1`, on which `true` throws, and is rolled back.  Another writer commits `5`
before the first entry runs again, and now that entry throws as well.  The committed states are
`0` and `5`; the closure of `true` throws on neither, and yet its call throws. -/
theorem thrown_on_rolled_back_state :
    ∃ s : State Bool Nat Unit, Reachable (deterministic throwsOnOne) s ∧
      s.status true = .returned (.failed (.closure ())) ∧
      ∀ σ, Chain (deterministic throwsOnOne) σ (s.history.map Entry.part) s.store →
        ∀ σ' ∈ s.committed σ, throwsOnOne true σ' ≠ .error () := by
  have h0 : Reachable (deterministic throwsOnOne) twoCalls := .initial twoCalls_initial
  have h1 := h0.move (.call (t := false) rfl)
  have h2 := h1.move (.call (t := true) rfl)
  have h3 := h2.move (.lead (t := false) rfl rfl rfl)
  have h4 := h3.move (.beginWrite rfl rfl)
  have h5 := h4.move (.drain rfl)
  have h6 := h5.move (.run (t := false) rfl rfl)
  have h7 := h6.move (.throws (t := true) rfl rfl)
  have h8 := h7.move (.rollback rfl)
  have h9 := h8.plain (.begin rfl)
  have h10 := h9.plain (.commit 5 rfl)
  have h11 := h10.move (.rerunBegin (t := false) rfl rfl (by decide) rfl)
  have h12 := h11.move (.rerunThrows (t := false) rfl rfl)
  have h13 := h12.move (.rerunThrower (t := true) rfl rfl)
  have h14 := h13.move (.rerunEnd rfl)
  have h15 := h14.move (.finish rfl)
  have h16 := h15.move (.ret (t := true) rfl rfl fun ph hph => by cases hph)
  refine ⟨_, h16, rfl, ?_⟩
  rintro σ ⟨hfirst, -⟩ σ' hmem
  have hstates : σ' = 0 ∨ σ' = 5 := by
    have hmem : σ' ∈ [σ, 5] := hmem
    have hzero : 0 = σ := hfirst
    rcases List.mem_cons.mp hmem with rfl | hmem
    · exact .inl hzero.symm
    · exact .inr (List.mem_singleton.mp hmem)
  rcases hstates with rfl | rfl <;> decide

end Llbt.GroupCommit
