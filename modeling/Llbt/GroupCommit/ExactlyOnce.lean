import Llbt.GroupCommit.Progress

/-!
# Group commit: every closure takes effect exactly once

`Results` says what is known about the result of each call: a call that is done, or whose result is
set, has the parts of the committed history that its outcome promises; any other call has none.
`Chained` says that the history is a chain: each closure ran on the state before its part and gave
the state after it, and the last state is the committed store.

* `Reachable.results`, `Reachable.chained` — both hold in every reachable state;
* `write_exactly_once` — what callers of `write` rely on.
-/

set_option autoImplicit false

namespace Llbt.GroupCommit

variable {T S E : Type} [DecidableEq T]

/-! ## Results -/

/-- The parts of the committed history that call `t` made. -/
def State.partsOf (s : State T S E) (t : T) : List (Entry T S) :=
  s.history.filter fun e => decide (e.call = some t)

/-- What an outcome of call `t` promises. -/
def Settled (s : State T S E) (t : T) : Outcome E → Prop
  | .version v => ∃ e, s.partsOf t = [e] ∧ e.version = v
  | .failed (.closure _) => s.partsOf t = []
  | .failed .engine => (s.partsOf t).length ≤ 1

/-- Entries of the batch whose result is set but which are not done. -/
def Phase.settled : Phase T S E → List T
  | .rerun batch _ _ i | .rerunning batch _ _ i _ | .rerunRan batch _ _ i _ _ => batch.take i
  | .finishing batch none => batch
  | _ => []

/-- The result that `finish` will set. -/
def Phase.announced : Phase T S E → Option (List T × Outcome E)
  | .finishing batch (some o) => some (batch, o)
  | _ => none

def State.settledEntries (s : State T S E) : List T := (s.leader.map (·.2.settled)).getD []

def State.announced (s : State T S E) : Option (List T × Outcome E) :=
  s.leader.bind (·.2.announced)

/-- The entry has a result already, or will get one from `finish`. -/
def State.Decided (s : State T S E) (t : T) : Prop :=
  (s.pending t).done = true ∨ t ∈ s.settledEntries ∨ ∃ batch o, s.announced = some (batch, o) ∧ t ∈ batch

structure Results (s : State T S E) : Prop where
  settled : ∀ t, (s.pending t).done = true ∨ t ∈ s.settledEntries →
    Settled s t (s.pending t).outcome
  announced : ∀ batch o, s.announced = some (batch, o) → ∀ t ∈ batch, Settled s t o
  absent : ∀ t, ¬ s.Decided t → s.partsOf t = []
  fresh : ∀ t, (s.pending t).done = false → t ∉ s.settledEntries → s.pending t = {}

section Results

variable {s s' : State T S E} {l t : T} {ph ph' : Phase T S E}

theorem Settled.congr {o : Outcome E} (h : Settled s t o) (hparts : s'.partsOf t = s.partsOf t) :
    Settled s' t o := by
  cases o with
  | version v =>
    obtain ⟨e, he, hv⟩ := h
    exact ⟨e, hparts.trans he, hv⟩
  | failed f =>
    cases f with
    | closure e => exact hparts.trans h
    | engine => exact (congrArg List.length hparts).trans_le h

omit [DecidableEq T] in
theorem settledEntries_of_leader (h : s.leader = some (l, ph)) : s.settledEntries = ph.settled := by
  rw [State.settledEntries, h]
  rfl

omit [DecidableEq T] in
theorem announced_of_leader (h : s.leader = some (l, ph)) : s.announced = ph.announced := by
  rw [State.announced, h]
  rfl

theorem Results.keep (h : Results s) (hpending : s'.pending = s.pending)
    (hhistory : s'.history = s.history) (hsettled : s'.settledEntries = s.settledEntries)
    (hannounced : s'.announced = s.announced) : Results s' := by
  have hparts : ∀ t, s'.partsOf t = s.partsOf t := fun t => by
    rw [State.partsOf, State.partsOf, hhistory]
  have hdecided : ∀ t, s'.Decided t ↔ s.Decided t := fun t => by
    rw [State.Decided, State.Decided, hpending, hsettled, hannounced]
  refine ⟨?_, ?_, ?_, ?_⟩
  · intro t ht
    rw [hpending, hsettled] at ht
    rw [hpending]
    exact (h.settled t ht).congr (hparts t)
  · intro batch o ho t ht
    rw [hannounced] at ho
    exact (h.announced batch o ho t ht).congr (hparts t)
  · intro t ht
    rw [hparts]
    exact h.absent t fun hd => ht ((hdecided t).mpr hd)
  · intro t hd ht
    rw [hsettled] at ht
    rw [hpending] at hd ⊢
    exact h.fresh t hd ht

theorem Results.move (h : Results s) (hl : s.leader = some (l, ph)) (hl' : s'.leader = some (l, ph'))
    (hpending : s'.pending = s.pending) (hhistory : s'.history = s.history)
    (hsettled : ph'.settled = ph.settled) (hannounced : ph'.announced = ph.announced) :
    Results s' := by
  refine h.keep hpending hhistory ?_ ?_
  · rw [settledEntries_of_leader hl, settledEntries_of_leader hl', hsettled]
  · rw [announced_of_leader hl, announced_of_leader hl', hannounced]

theorem Results.announce (h : Results s) {batch : List T} {o : Outcome E}
    (hl : s.leader = some (l, ph)) (hl' : s'.leader = some (l, .finishing batch (some o)))
    (hpending : s'.pending = s.pending) (hsettled : ph.settled = [])
    (hannounced : ph.announced = none)
    (hin : ∀ t ∈ batch, (s.pending t).done = false → s.partsOf t = [] → Settled s' t o)
    (hbatch : ∀ t ∈ batch, (s.pending t).done = false)
    (hout : ∀ t, t ∉ batch → s'.partsOf t = s.partsOf t) : Results s' := by
  have hs : s.settledEntries = [] := by rw [settledEntries_of_leader hl, hsettled]
  have ha : s.announced = none := by rw [announced_of_leader hl, hannounced]
  have hs' : s'.settledEntries = [] := settledEntries_of_leader hl'
  have ha' : s'.announced = some (batch, o) := announced_of_leader hl'
  have habsent : ∀ t, (s.pending t).done = false → s.partsOf t = [] := by
    intro t ht
    refine h.absent t ?_
    rintro (hd | hm | ⟨b, o', hb, -⟩)
    · rw [ht] at hd
      cases hd
    · rw [hs] at hm
      cases hm
    · rw [ha] at hb
      cases hb
  refine ⟨?_, ?_, ?_, ?_⟩
  · intro t ht
    rw [hpending, hs'] at ht
    rw [hpending]
    rcases ht with hd | hm
    · have hnot : t ∉ batch := by
        intro hmem
        rw [hbatch t hmem] at hd
        cases hd
      exact (h.settled t (.inl hd)).congr (hout t hnot)
    · cases hm
  · intro b o' hb t ht
    rw [ha'] at hb
    cases hb
    exact hin t ht (hbatch t ht) (habsent t (hbatch t ht))
  · intro t ht
    have hnot : t ∉ batch := fun hmem => ht (.inr (.inr ⟨batch, o, ha', hmem⟩))
    have hd : (s.pending t).done = false := by
      cases hd : (s.pending t).done with
      | false => rfl
      | true => exact absurd (.inl (by rw [hpending]; exact hd)) ht
    rw [hout t hnot]
    exact habsent t hd
  · intro t hd _
    rw [hpending] at hd ⊢
    exact h.fresh t hd (by rw [hs]; exact List.not_mem_nil)

theorem Results.setResult (h : Results s) {batch : List T} {thrower i : Nat} {e : E} {p : Pending E}
    (hl : s.leader = some (l, ph)) (hl' : s'.leader = some (l, .rerun batch thrower e (i + 1)))
    (ht : batch[i]? = some t) (hnodup : batch.Nodup) (hsettled : ph.settled = batch.take i)
    (hannounced : ph.announced = none) (hpending : s'.pending = Function.update s.pending t p)
    (hdone : p.done = (s.pending t).done) (hundone : (s.pending t).done = false)
    (hresult : s.pending t = {} → s.partsOf t = [] → Settled s' t p.outcome)
    (hout : ∀ u, u ≠ t → s'.partsOf u = s.partsOf u) : Results s' := by
  have hs : s.settledEntries = batch.take i := by rw [settledEntries_of_leader hl, hsettled]
  have ha : s.announced = none := by rw [announced_of_leader hl, hannounced]
  have hs' : s'.settledEntries = batch.take i ++ [t] := by
    rw [settledEntries_of_leader hl', Phase.settled, List.take_add_one, ht]
    rfl
  have ha' : s'.announced = none := announced_of_leader hl'
  have hfresh : t ∉ batch.take i := by
    obtain ⟨hi, rfl⟩ := List.getElem?_eq_some_iff.mp ht
    intro hmem
    obtain ⟨j, hj, heq⟩ := List.getElem_of_mem hmem
    rw [List.length_take] at hj
    rw [List.getElem_take] at heq
    have := (List.Nodup.getElem_inj_iff hnodup).mp heq
    omega
  have hundecided : ¬ s.Decided t := by
    rintro (hd | hm | ⟨b, o, hb, -⟩)
    · rw [hundone] at hd
      cases hd
    · rw [hs] at hm
      exact hfresh hm
    · rw [ha] at hb
      cases hb
  have hold : s.pending t = {} := h.fresh t hundone (by rw [hs]; exact hfresh)
  have hself : s'.pending t = p := by rw [hpending, Function.update_self]
  have hother : ∀ u, u ≠ t → s'.pending u = s.pending u := fun u hu => by
    rw [hpending, Function.update_of_ne hu]
  refine ⟨?_, ?_, ?_, ?_⟩
  · intro u hu
    by_cases hut : u = t
    · subst hut
      rw [hself]
      exact hresult hold (h.absent u hundecided)
    · rw [hother u hut] at hu ⊢
      refine (h.settled u ?_).congr (hout u hut)
      refine hu.imp_right fun hm => ?_
      rw [hs'] at hm
      rw [hs]
      exact (List.mem_append.mp hm).resolve_right fun h1 => hut (List.mem_singleton.mp h1)
  · intro b o hb
    rw [ha'] at hb
    cases hb
  · intro u hu
    have hut : u ≠ t := by
      rintro rfl
      exact hu (.inr (.inl (by rw [hs']; simp)))
    rw [hout u hut]
    refine h.absent u ?_
    rintro (hd | hm | ⟨b, o, hb, -⟩)
    · exact hu (.inl (by rw [hother u hut]; exact hd))
    · refine hu (.inr (.inl ?_))
      rw [hs] at hm
      rw [hs']
      exact List.mem_append_left _ hm
    · rw [ha] at hb
      cases hb
  · intro u hd hu
    have hut : u ≠ t := by
      rintro rfl
      exact hu (by rw [hs']; simp)
    rw [hother u hut] at hd ⊢
    refine h.fresh u hd fun hm => hu ?_
    rw [hs] at hm
    rw [hs']
    exact List.mem_append_left _ hm

omit [DecidableEq T] in
theorem finish_outcome (o : Outcome E) : (Pending.finish {} (some o)).outcome = o := by
  cases o <;> rfl

theorem Results.finish (h : Results s) {batch : List T} {result : Option (Outcome E)}
    (hl : s.leader = some (l, .finishing batch result))
    (hundone : ∀ t ∈ batch, (s.pending t).done = false) :
    Results ((s.finish batch result).setPhase l .finished) := by
  have hs' : State.settledEntries ((s.finish batch result).setPhase l .finished) = [] := rfl
  have ha' : State.announced ((s.finish batch result).setPhase l .finished) = none := rfl
  have hin : ∀ t ∈ batch, ((s.finish batch result).setPhase l .finished).pending t =
      (s.pending t).finish result := fun t ht => if_pos ht
  have hout : ∀ t, t ∉ batch → ((s.finish batch result).setPhase l .finished).pending t =
      s.pending t := fun t ht => if_neg ht
  have hparts : ∀ t, ((s.finish batch result).setPhase l .finished).partsOf t = s.partsOf t :=
    fun _ => rfl
  have hresult : ∀ t ∈ batch, Settled s t ((s.pending t).finish result).outcome := by
    intro t ht
    cases result with
    | none => exact h.settled t (.inr (by rw [settledEntries_of_leader hl]; exact ht))
    | some o =>
      have hfresh : s.pending t = {} := h.fresh t (hundone t ht) (by
        rw [settledEntries_of_leader hl]
        exact List.not_mem_nil)
      rw [hfresh, finish_outcome]
      exact h.announced batch o (announced_of_leader hl) t ht
  have hdecided : ∀ t, t ∉ batch → s.Decided t → (s.pending t).done = true := by
    rintro t ht (hd | hm | ⟨b, o, hb, hm⟩)
    · exact hd
    · rw [settledEntries_of_leader hl] at hm
      cases result with
      | none => exact absurd hm ht
      | some o => cases hm
    · rw [announced_of_leader hl] at hb
      cases result with
      | none => cases hb
      | some o =>
        cases hb
        exact absurd hm ht
  refine ⟨?_, ?_, ?_, ?_⟩
  · intro t ht
    by_cases hb : t ∈ batch
    · rw [hin t hb]
      exact (hresult t hb).congr (hparts t)
    · rw [hout t hb] at ht ⊢
      refine (h.settled t (.inl (ht.resolve_right ?_))).congr (hparts t)
      rw [hs']
      exact List.not_mem_nil
  · intro b o hb
    rw [ha'] at hb
    cases hb
  · intro t ht
    rw [hparts]
    have hb : t ∉ batch := fun hb => ht (.inl (by rw [hin t hb]; exact finish_done _ _))
    exact h.absent t fun hd => ht (.inl (by rw [hout t hb]; exact hdecided t hb hd))
  · intro t hd _
    by_cases hb : t ∈ batch
    · rw [hin t hb, finish_done] at hd
      cases hd
    · rw [hout t hb] at hd ⊢
      refine h.fresh t hd fun hm => ?_
      have := hdecided t hb (.inr (.inl hm))
      rw [hd] at this
      cases this

theorem Settled.length_le {o : Outcome E} (h : Settled s t o) : (s.partsOf t).length ≤ 1 := by
  cases o with
  | version v =>
    obtain ⟨e, he, -⟩ := h
    rw [he]
    rfl
  | failed f =>
    cases f with
    | closure e => exact (Nat.le_of_eq (congrArg List.length h)).trans (Nat.zero_le 1)
    | engine => exact h

theorem Results.length_le (h : Results s) (t : T) : (s.partsOf t).length ≤ 1 := by
  by_cases hd : s.Decided t
  · rcases hd with hd | hm | ⟨batch, o, hb, hm⟩
    · exact (h.settled t (.inl hd)).length_le
    · exact (h.settled t (.inr hm)).length_le
    · exact (h.announced batch o hb t hm).length_le
  · rw [h.absent t hd]
    exact Nat.zero_le 1

/-! ### What a commit adds -/

theorem partsOf_publish (parts : List (Option T × S × S)) (store : S) (t : T) :
    (s.publish parts store).partsOf t = s.partsOf t ++
      (parts.filter fun p => decide (p.1 = some t)).map fun p => ⟨s.version + 1, p.1, p.2.1, p.2.2⟩ := by
  rw [State.partsOf, State.publish, List.filter_append, List.filter_map]
  rfl

theorem partsOf_publish_single {u : T} (before store : S) (hu : u ≠ t) :
    (s.publish [(some t, before, store)] store).partsOf u = s.partsOf u := by
  rw [partsOf_publish]
  simp [Ne.symm hu]

theorem partsOf_publish_self (before store : S) :
    (s.publish [(some t, before, store)] store).partsOf t =
      s.partsOf t ++ [⟨s.version + 1, some t, before, store⟩] := by
  rw [partsOf_publish]
  simp

theorem partsOf_publish_plain (before store : S) :
    (s.publish [(none, before, store)] store).partsOf t = s.partsOf t := by
  rw [partsOf_publish]
  simp

def parts (ran : List (T × S × S)) : List (Option T × S × S) := ran.map fun (t, b, a) => (some t, b, a)

theorem partsOf_publish_batch_out (ran : List (T × S × S)) (store : S) (ht : t ∉ ran.map (·.1)) :
    (s.publish (parts ran) store).partsOf t = s.partsOf t := by
  rw [partsOf_publish, parts, List.filter_map]
  have hnil : ran.filter ((fun p : Option T × S × S => decide (p.1 = some t)) ∘
      fun (t, b, a) => (some t, b, a)) = [] := by
    rw [List.filter_eq_nil_iff]
    rintro ⟨u, b, a⟩ hmem hu
    have heq : u = t := by simpa using hu
    exact ht (List.mem_map.mpr ⟨(u, b, a), hmem, heq⟩)
  rw [hnil, List.map_nil, List.map_nil, List.append_nil]

theorem partsOf_publish_batch_in (ran : List (T × S × S)) (store : S) (ht : t ∈ ran.map (·.1))
    (hnodup : (ran.map (·.1)).Nodup) :
    ∃ b a, (s.publish (parts ran) store).partsOf t =
      s.partsOf t ++ [⟨s.version + 1, some t, b, a⟩] := by
  obtain ⟨⟨u, b, a⟩, hmem, rfl⟩ := List.mem_map.mp ht
  obtain ⟨pre, post, rfl⟩ := List.append_of_mem hmem
  refine ⟨b, a, ?_⟩
  rw [List.map_append, List.map_cons, List.nodup_middle, List.nodup_cons, List.mem_append, not_or]
    at hnodup
  obtain ⟨⟨hpre, hpost⟩, -⟩ := hnodup
  rw [partsOf_publish, parts]
  have hnone : ∀ r : List (T × S × S), u ∉ r.map (·.1) →
      (r.map fun (t, b, a) => ((some t, b, a) : Option T × S × S)).filter
        (fun p => decide (p.1 = some u)) = [] := by
    intro r hr
    rw [List.filter_eq_nil_iff]
    rintro ⟨o, b', a'⟩ hm ho
    obtain ⟨⟨v, b'', a''⟩, hv, heq⟩ := List.mem_map.mp hm
    cases heq
    have : v = u := by simpa using ho
    exact hr (List.mem_map.mpr ⟨_, hv, this⟩)
  rw [List.map_append, List.map_cons, List.filter_append, hnone pre hpre, List.nil_append,
    List.filter_cons_of_pos (by simp), hnone post hpost]
  rfl

theorem Move.results {runs : Closures T S E} {faulty : Bool} (hmove : Move runs faulty s s')
    (hp : Placed s) (h : Results s) : Results s' := by
  have hundone : ∀ {l : T} {ph : Phase T S E}, s.leader = some (l, ph) →
      ∀ t ∈ ph.batch, (s.pending t).done = false := by
    intro l ph hl t ht
    exact (hp.listed t (List.mem_append_right _ (by rw [batch_of_leader hl]; exact ht))).2
  have hbatch : ∀ {l : T} {ph : Phase T S E}, s.leader = some (l, ph) → ph.batch.Nodup := by
    intro l ph hl
    have := (List.nodup_append.mp hp.nodup).2.1
    rwa [batch_of_leader hl] at this
  cases hmove with
  | call _ => exact h.keep rfl rfl rfl rfl
  | lead _ _ hl =>
    refine h.keep rfl rfl ?_ ?_
    · rw [State.settledEntries, State.settledEntries, hl]
      rfl
    · rw [State.announced, State.announced, hl]
      rfl
  | ret _ _ _ => exact h.keep rfl rfl rfl rfl
  | beginWrite hl _ => exact h.move hl rfl rfl rfl rfl rfl
  | beginFails _ hl => exact h.move hl rfl rfl rfl rfl rfl
  | drainFailed hl =>
    refine h.announce hl rfl rfl rfl rfl ?_ ?_ (fun _ _ => rfl)
    · intro t _ _ hnil
      refine (Nat.le_of_eq ?_).trans (Nat.zero_le 1)
      exact congrArg List.length hnil
    · intro t ht
      exact (hp.listed t (List.mem_append_left _ (List.mem_of_mem_take ht))).2
  | drain hl => exact h.move hl rfl rfl rfl rfl rfl
  | run hl _ => exact h.move hl rfl rfl rfl rfl rfl
  | throws hl _ => exact h.move hl rfl rfl rfl rfl rfl
  | @commit l batch ran cur hl =>
    have hran : ran.map (·.1) = batch := by
      have := (hp.leader _ _ hl).2.2.2
      rw [this, List.append_nil]
    have hnodup : (ran.map (·.1)).Nodup := hran ▸ hbatch hl
    refine h.announce hl rfl rfl rfl rfl ?_ (hundone hl) ?_
    · intro t ht _ hnil
      obtain ⟨b, a, heq⟩ := partsOf_publish_batch_in (s := s) ran cur (hran ▸ ht) hnodup
      rw [hnil] at heq
      exact ⟨_, heq, rfl⟩
    · intro t ht
      exact partsOf_publish_batch_out ran cur (hran ▸ ht)
  | @commitFails l batch ran cur published _ hl =>
    have hran : ran.map (·.1) = batch := by
      have := (hp.leader _ _ hl).2.2.2
      rw [this, List.append_nil]
    have hnodup : (ran.map (·.1)).Nodup := hran ▸ hbatch hl
    cases published with
    | true =>
      refine h.announce hl rfl rfl rfl rfl ?_ (hundone hl) ?_
      · intro t ht _ hnil
        obtain ⟨b, a, heq⟩ := partsOf_publish_batch_in (s := s) ran cur (hran ▸ ht) hnodup
        rw [hnil] at heq
        exact Nat.le_of_eq (congrArg List.length heq)
      · intro t ht
        exact partsOf_publish_batch_out ran cur (hran ▸ ht)
    | false =>
      refine h.announce hl rfl rfl rfl rfl ?_ (hundone hl) (fun _ _ => rfl)
      intro t _ _ hnil
      exact (Nat.le_of_eq (congrArg List.length hnil)).trans (Nat.zero_le 1)
  | rollback hl =>
    split
    · refine h.announce hl rfl rfl rfl rfl ?_ (hundone hl) (fun _ _ => rfl)
      intro t _ _ hnil
      exact hnil
    · exact h.move hl rfl rfl rfl rfl rfl
  | @rerunThrower l t batch thrower e hl ht =>
    refine h.setResult hl rfl ht (hbatch hl) rfl rfl rfl rfl
      (hundone hl t (List.mem_of_getElem? ht)) ?_ (fun _ _ => rfl)
    intro _ hnil
    exact hnil
  | rerunBegin hl _ _ _ => exact h.move hl rfl rfl rfl rfl rfl
  | @rerunBeginFails l t batch thrower i e _ hl ht _ =>
    refine h.setResult hl rfl ht (hbatch hl) rfl rfl rfl rfl
      (hundone hl t (List.mem_of_getElem? ht)) ?_ (fun _ _ => rfl)
    intro _ hnil
    exact (Nat.le_of_eq (congrArg List.length hnil)).trans (Nat.zero_le 1)
  | rerunRun hl _ => exact h.move hl rfl rfl rfl rfl rfl
  | @rerunThrows l t batch thrower i e e' hl _ =>
    have ht := (hp.leader _ _ hl).2.2.2.2.2
    refine h.setResult hl rfl ht (hbatch hl) rfl rfl rfl rfl
      (hundone hl t (List.mem_of_getElem? ht)) ?_ (fun _ _ => rfl)
    intro _ hnil
    exact hnil
  | @rerunCommit l t batch thrower i e cur hl =>
    have ht := (hp.leader _ _ hl).2.2.2.2.2
    refine h.setResult hl rfl ht (hbatch hl) rfl rfl rfl rfl
      (hundone hl t (List.mem_of_getElem? ht)) ?_ ?_
    · intro hfresh hnil
      have hparts := partsOf_publish_self (s := s) (t := t) s.store cur
      rw [hnil] at hparts
      change Settled _ t ({ s.pending t with version := s.version + 1 } : Pending E).outcome
      rw [hfresh]
      exact ⟨_, hparts, rfl⟩
    · intro u hu
      exact partsOf_publish_single s.store cur hu
  | @rerunCommitFails l t batch thrower i e cur published _ hl =>
    have ht := (hp.leader _ _ hl).2.2.2.2.2
    cases published with
    | true =>
      refine h.setResult hl rfl ht (hbatch hl) rfl rfl rfl rfl
        (hundone hl t (List.mem_of_getElem? ht)) ?_ ?_
      · intro _ hnil
        have hparts := partsOf_publish_self (s := s) (t := t) s.store cur
        rw [hnil] at hparts
        exact Nat.le_of_eq (congrArg List.length hparts)
      · intro u hu
        exact partsOf_publish_single s.store cur hu
    | false =>
      refine h.setResult hl rfl ht (hbatch hl) rfl rfl rfl rfl
        (hundone hl t (List.mem_of_getElem? ht)) ?_ (fun _ _ => rfl)
      intro _ hnil
      exact (Nat.le_of_eq (congrArg List.length hnil)).trans (Nat.zero_le 1)
  | rerunEnd hl =>
    refine h.move hl rfl rfl rfl ?_ rfl
    simp [Phase.settled]
  | finish hl => exact h.finish hl (hundone hl)
  | stepDown hl =>
    refine h.keep rfl rfl ?_ ?_
    · rw [settledEntries_of_leader hl]
      rfl
    · rw [announced_of_leader hl]
      rfl

theorem PlainStep.results (hstep : PlainStep s s') (h : Results s) : Results s' := by
  cases hstep with
  | begin _ => exact h.keep rfl rfl rfl rfl
  | commit new _ =>
    have hparts : ∀ t, (s.publish [(none, s.store, new)] new).partsOf t = s.partsOf t :=
      fun t => partsOf_publish_plain s.store new
    refine ⟨?_, ?_, ?_, h.fresh⟩
    · intro t ht
      exact (h.settled t ht).congr (hparts t)
    · intro batch o ho t ht
      exact (h.announced batch o ho t ht).congr (hparts t)
    · intro t ht
      rw [hparts]
      exact h.absent t ht
  | rollback _ => exact h.keep rfl rfl rfl rfl

theorem Initial.results (h : Initial s) : Results s := by
  have hs : s.settledEntries = [] := by rw [State.settledEntries, h.leader]; rfl
  have ha : s.announced = none := by rw [State.announced, h.leader]; rfl
  refine ⟨?_, ?_, ?_, fun t _ _ => h.pending t⟩
  · rintro t (hd | hm)
    · rw [h.pending] at hd
      cases hd
    · rw [hs] at hm
      cases hm
  · intro batch o ho
    rw [ha] at ho
    cases ho
  · intro t _
    rw [State.partsOf, h.history]
    rfl

theorem Reachable.results {runs : Closures T S E} (h : Reachable runs s) : Results s := by
  induction h with
  | initial hinit => exact hinit.results
  | move hr hmove ih => exact hmove.results hr.placed ih
  | plain _ hstep ih => exact hstep.results ih

end Results

/-! ## The history is a chain -/

/-- Each part starts from the state before it, and a part of a call is a run of its closure. -/
def Chain (runs : Closures T S E) : S → List (Option T × S × S) → S → Prop
  | σ, [], σ' => σ = σ'
  | σ, (call, before, after) :: parts, σ' =>
    before = σ ∧ (∀ t, call = some t → runs t before (.ok after)) ∧ Chain runs after parts σ'

def Entry.part (e : Entry T S) : Option T × S × S := (e.call, e.before, e.after)

/-- What the leader has computed so far comes from the committed store. -/
def Phase.Computed (runs : Closures T S E) (store : S) : Phase T S E → Prop
  | .running _ _ ran cur => Chain runs store (parts ran) cur
  | .rerunRan _ _ _ _ t cur => runs t store (.ok cur)
  | _ => True

/-- `σ` is the committed state before the first transaction. -/
structure Chained (runs : Closures T S E) (σ : S) (s : State T S E) : Prop where
  history : Chain runs σ (s.history.map Entry.part) s.store
  leader : ∀ l ph, s.leader = some (l, ph) → ph.Computed runs s.store

section Chained

variable {runs : Closures T S E} {σ : S} {s s' : State T S E} {l : T} {ph ph' : Phase T S E}

omit [DecidableEq T] in
theorem chain_append {σ σ' σ'' : S} {p q : List (Option T × S × S)} (hp : Chain runs σ p σ')
    (hq : Chain runs σ' q σ'') : Chain runs σ (p ++ q) σ'' := by
  induction p generalizing σ with
  | nil =>
    cases hp
    exact hq
  | cons x p ih =>
    obtain ⟨call, before, after⟩ := x
    obtain ⟨hbefore, hcall, hrest⟩ := hp
    exact ⟨hbefore, hcall, ih hrest⟩

omit [DecidableEq T] in
theorem chain_single {t : T} {σ σ' : S} (h : runs t σ (.ok σ')) :
    Chain runs σ [(some t, σ, σ')] σ' := by
  refine ⟨rfl, ?_, rfl⟩
  intro u hu
  cases hu
  exact h

omit [DecidableEq T] in
theorem chain_runs {t : T} {σ σ' b a : S} {p : List (Option T × S × S)} (h : Chain runs σ p σ')
    (hmem : (some t, b, a) ∈ p) : runs t b (.ok a) := by
  induction p generalizing σ with
  | nil => cases hmem
  | cons x p ih =>
    obtain ⟨call, before, after⟩ := x
    obtain ⟨-, hcall, hrest⟩ := h
    rcases List.mem_cons.mp hmem with heq | hmem
    · cases heq
      exact hcall t rfl
    · exact ih hrest hmem

omit [DecidableEq T] in
theorem Chained.keep (h : Chained runs σ s) (hhistory : s'.history = s.history)
    (hstore : s'.store = s.store)
    (hleader : ∀ l ph, s'.leader = some (l, ph) → ph.Computed runs s.store) : Chained runs σ s' := by
  refine ⟨?_, ?_⟩
  · rw [hhistory, hstore]
    exact h.history
  · rw [hstore]
    exact hleader

omit [DecidableEq T] in
theorem Chained.setPhase (h : Chained runs σ s) (hl' : s'.leader = some (l, ph'))
    (hhistory : s'.history = s.history) (hstore : s'.store = s.store)
    (hcomputed : ph'.Computed runs s.store) : Chained runs σ s' := by
  refine h.keep hhistory hstore ?_
  intro l₀ ph₀ h₀
  obtain ⟨rfl, rfl⟩ := Prod.mk.inj (Option.some.inj (hl'.symm.trans h₀))
  exact hcomputed

omit [DecidableEq T] in
theorem Chained.publish (h : Chained runs σ s) {ps : List (Option T × S × S)} {store : S}
    (hchain : Chain runs s.store ps store)
    (hhistory : s'.history = s.history ++ ps.map fun (call, before, after) =>
      ⟨s.version + 1, call, before, after⟩) (hstore : s'.store = store)
    (hleader : ∀ l ph, s'.leader = some (l, ph) → ph.Computed runs store) : Chained runs σ s' := by
  refine ⟨?_, by rw [hstore]; exact hleader⟩
  have hparts : (ps.map fun (call, before, after) =>
      (⟨s.version + 1, call, before, after⟩ : Entry T S)).map Entry.part = ps := by
    rw [List.map_map]
    exact List.map_id ps
  rw [hhistory, hstore, List.map_append, hparts]
  exact chain_append h.history hchain

theorem Move.chained {faulty : Bool} (hmove : Move runs faulty s s') (h : Chained runs σ s) :
    Chained runs σ s' := by
  cases hmove with
  | call _ => exact h.keep rfl rfl h.leader
  | lead _ _ _ => exact h.setPhase rfl rfl rfl trivial
  | ret _ _ _ => exact h.keep rfl rfl h.leader
  | beginWrite _ _ | beginFails _ _ | drainFailed _ | throws _ _ | rerunThrower _ _
  | rerunBegin _ _ _ _ | rerunBeginFails _ _ _ _ | rerunThrows _ _ | rerunEnd _ | finish _ =>
    exact h.setPhase rfl rfl rfl trivial
  | drain _ => exact h.setPhase rfl rfl rfl (rfl : s.store = s.store)
  | @run l t batch todo ran cur new hl hrun =>
    refine h.setPhase rfl rfl rfl ?_
    have hcur : Chain runs s.store (parts ran) cur := h.leader _ _ hl
    rw [Phase.Computed, parts, List.map_append]
    exact chain_append hcur (chain_single hrun)
  | @commit l batch ran cur hl =>
    refine h.publish (h.leader _ _ hl) rfl rfl ?_
    rintro l₀ ph₀ ⟨⟩
    trivial
  | @commitFails l batch ran cur published _ hl =>
    cases published with
    | true =>
      refine h.publish (h.leader _ _ hl) rfl rfl ?_
      rintro l₀ ph₀ ⟨⟩
      trivial
    | false => exact h.setPhase rfl rfl rfl trivial
  | rollback hl =>
    refine h.setPhase rfl rfl rfl ?_
    split <;> trivial
  | rerunRun hl hrun => exact h.setPhase rfl rfl rfl hrun
  | @rerunCommit l t batch thrower i e cur hl =>
    refine h.publish (chain_single (h.leader _ _ hl)) rfl rfl ?_
    rintro l₀ ph₀ ⟨⟩
    trivial
  | @rerunCommitFails l t batch thrower i e cur published _ hl =>
    cases published with
    | true =>
      refine h.publish (chain_single (h.leader _ _ hl)) rfl rfl ?_
      rintro l₀ ph₀ ⟨⟩
      trivial
    | false => exact h.setPhase rfl rfl rfl trivial
  | stepDown _ => exact h.keep rfl rfl fun _ _ h₀ => by cases h₀

omit [DecidableEq T] in
theorem PlainStep.chained (hstep : PlainStep s s') (hlock : Locked s) (h : Chained runs σ s) :
    Chained runs σ s' := by
  cases hstep with
  | begin _ => exact h.keep rfl rfl h.leader
  | rollback _ => exact h.keep rfl rfl h.leader
  | commit new hw =>
    have hchain : Chain runs s.store [(none, s.store, new)] new :=
      ⟨rfl, fun t ht => (by cases ht), rfl⟩
    refine h.publish hchain rfl rfl ?_
    intro l ph hl
    have hl : s.leader = some (l, ph) := hl
    have hunlocked : ph.locked = false := by
      rw [← Bool.not_eq_true]
      intro hph
      have hleader : s.writer = some .leader := hlock.mpr (by
        rw [leaderLocked_of_leader hl]
        exact hph)
      rw [hw] at hleader
      cases hleader
    cases ph <;> trivial

omit [DecidableEq T] in
theorem Initial.chained (h : Initial s) : Chained runs s.store s := by
  refine ⟨?_, ?_⟩
  · rw [h.history]
    rfl
  · intro l ph hl
    rw [h.leader] at hl
    cases hl

theorem Reachable.chained (h : Reachable runs s) : ∃ σ, Chained runs σ s := by
  induction h with
  | initial hinit => exact ⟨_, hinit.chained⟩
  | move _ hmove ih =>
    obtain ⟨σ, hσ⟩ := ih
    exact ⟨σ, hmove.chained hσ⟩
  | plain hr hstep ih =>
    obtain ⟨σ, hσ⟩ := ih
    exact ⟨σ, hstep.chained hr.lock hσ⟩

theorem Chained.runs_of_mem (h : Chained runs σ s) {t : T} {e : Entry T S} (he : e ∈ s.partsOf t) :
    runs t e.before (.ok e.after) := by
  obtain ⟨hhist, hcall⟩ := List.mem_filter.mp he
  refine chain_runs h.history (List.mem_map.mpr ⟨e, hhist, ?_⟩)
  rw [Entry.part, of_decide_eq_true hcall]

end Chained

/-! ## A call returns once -/

section Returned

variable {runs : Closures T S E} {s s' : State T S E} {t : T} {o : Outcome E}

theorem Move.returned {faulty : Bool} (hmove : Move runs faulty s s') (h : s.status t = .returned o) :
    s'.status t = .returned o := by
  have hupdate : ∀ u st, s.status u ≠ .returned o → (s.setStatus u st).status t = .returned o := by
    intro u st hu
    have hne : t ≠ u := by
      rintro rfl
      exact hu h
    exact (Function.update_of_ne hne ..).trans h
  cases hmove with
  | call hu => exact hupdate _ _ (by rw [hu]; exact fun he => by cases he)
  | ret hu _ _ => exact hupdate _ _ (by rw [hu]; exact fun he => by cases he)
  | commitFails published _ _ | rerunCommitFails published _ _ => cases published <;> exact h
  | _ => exact h

omit [DecidableEq T] in
theorem PlainStep.returned (hstep : PlainStep s s') (h : s.status t = .returned o) :
    s'.status t = .returned o := by
  cases hstep <;> exact h

theorem queued_can_lead (h : Placed s) (hl : s.leader = none) (ht : t ∈ s.queue) :
    s.status t = .waiting ∧ (s.pending t).done = false ∧
      Move runs false s (s.setPhase t .entered) := by
  obtain ⟨hw, hd⟩ := h.listed t (List.mem_append_left _ ht)
  exact ⟨hw, hd, .lead hw hd hl⟩

omit [DecidableEq T] in
theorem nothing_left (h : Placed s) (hout : ∀ t, s.status t ≠ .waiting) :
    s.queue = [] ∧ s.leader = none := by
  constructor
  · rw [List.eq_nil_iff_forall_not_mem]
    intro t ht
    exact hout t (h.listed t (List.mem_append_left _ ht)).1
  · cases hl : s.leader with
    | none => rfl
    | some p => exact absurd (h.leader p.1 p.2 hl).1 (hout p.1)

end Returned

/-! ## Main theorem -/

/-- In every reachable state, whatever calls were made, however long the queue and wherever begin or
commit failed:

* the committed history is a chain of transactions ending in the store, in which a call that
  returned a version has exactly one part, made by its closure, in the commit of that version, and a
  call whose closure threw has none;
* a call that has returned or thrown never does so again;
* an entry in the queue without a leader belongs to a call that can lead, and no entry is left when
  no call is inside `write`;
* a call inside `write` can return, or the leader it waits for can move, unless a transaction made
  with `begin_write` has the lock; each step of a leader takes the call closer to its end and no step
  takes it further away; with finitely many calls, only finitely many steps are left. -/
theorem write_exactly_once {runs : Closures T S E} (hruns : ∀ t σ, ∃ r, runs t σ r) {s : State T S E}
    (h : Reachable runs s) :
    (∃ σ, Chain runs σ (s.history.map Entry.part) s.store) ∧
    (∀ t v, s.status t = .returned (.version v) →
      ∃ e, s.partsOf t = [e] ∧ e.version = v ∧ runs t e.before (.ok e.after)) ∧
    (∀ t e, s.status t = .returned (.failed (.closure e)) → s.partsOf t = []) ∧
    (∀ t, (s.partsOf t).length ≤ 1) ∧
    (∀ t o s', s.status t = .returned o → Move runs true s s' ∨ PlainStep s s' →
      s'.status t = .returned o) ∧
    (s.leader = none → ∀ t ∈ s.queue, s.status t = .waiting ∧
      Move runs false s (s.setPhase t .entered)) ∧
    ((∀ t, s.status t ≠ .waiting) → s.queue = [] ∧ s.leader = none) ∧
    (∀ t, s.status t = .waiting →
      (∃ s' o, Move runs false s s' ∧ s'.status t = .returned o) ∨
      (s.WaitsForLeader t ∧ ∃ s', Move runs false s s' ∧ s'.leader ≠ s.leader) ∨
      s.writer = some .plain) ∧
    (∀ t s', s.status t = .waiting → Move runs true s s' →
      s'.owed t ≤ s.owed t ∧ (s.WaitsForLeader t → s'.leader ≠ s.leader → s'.owed t < s.owed t)) ∧
    (∀ t s', PlainStep s s' → s'.owed t = s.owed t) ∧
    (∀ [Fintype T] (s' : State T S E), Move runs true s s' → s'.remaining < s.remaining) ∧
    (∀ [Fintype T] (s' : State T S E), PlainStep s s' → s'.remaining = s.remaining) := by
  have hplaced := h.placed
  have hresults := h.results
  obtain ⟨σ, hchained⟩ := h.chained
  have hsettled : ∀ t o, s.status t = .returned o → Settled s t o := by
    intro t o ht
    obtain ⟨hd, rfl⟩ := hplaced.returned t o ht
    exact hresults.settled t (.inl hd)
  refine ⟨⟨σ, hchained.history⟩, ?_, fun t e ht => hsettled t _ ht, hresults.length_le, ?_, ?_,
    nothing_left hplaced, fun t ht => progress hruns hplaced h.lock ht,
    fun t s' ht hmove => hmove.advances hplaced ht, fun t s' hstep => hstep.owed_eq t,
    fun s' hmove => hmove.remaining_lt hplaced, fun s' hstep => hstep.remaining_eq⟩
  · intro t v ht
    obtain ⟨e, he, hv⟩ := hsettled t _ ht
    exact ⟨e, he, hv, hchained.runs_of_mem (he ▸ List.mem_singleton_self e)⟩
  · rintro t o s' ht (hmove | hstep)
    · exact hmove.returned ht
    · exact hstep.returned ht
  · intro hl t ht
    obtain ⟨hw, -, hmove⟩ := queued_can_lead hplaced hl ht
    exact ⟨hw, hmove⟩

/-- Two calls, each of which adds one to the store. -/
def incrementing : Closures Bool Nat Unit := fun _ σ r => r = .ok (σ + 1)

def unused : State Bool Nat Unit where
  status := fun _ => .idle
  pending := fun _ => {}
  queue := []
  leader := none
  writer := none
  store := 0
  version := 7
  history := []

/-- The second call is run in the batch of the first one. -/
theorem write_exactly_once_small :
    ∃ s : State Bool Nat Unit, Reachable incrementing s ∧ s.store = 2 ∧
      (s.status false = .returned (.version 8) ∧
        ∃ e, s.partsOf false = [e] ∧ e.version = 8 ∧ incrementing false e.before (.ok e.after)) ∧
      s.status true = .returned (.version 8) ∧
        ∃ e, s.partsOf true = [e] ∧ e.version = 8 ∧ incrementing true e.before (.ok e.after) := by
  have hruns : ∀ t σ, ∃ r, incrementing t σ r := fun _ σ => ⟨.ok (σ + 1), rfl⟩
  have h0 : Reachable incrementing unused :=
    .initial ⟨fun _ => rfl, fun _ => rfl, rfl, rfl, rfl, rfl⟩
  have h1 := h0.move (.call (t := false) rfl)
  have h2 := h1.move (.call (t := true) rfl)
  have h3 := h2.move (.lead (t := false) rfl rfl rfl)
  have h4 := h3.move (.beginWrite rfl rfl)
  have h5 := h4.move (.drain rfl)
  have h6 := h5.move (.run (t := false) rfl rfl)
  have h7 := h6.move (.run (t := true) rfl rfl)
  have h8 := h7.move (.commit rfl)
  have h9 := h8.move (.finish rfl)
  have h10 := h9.move (.stepDown rfl)
  have h11 := h10.move (.ret (t := false) rfl rfl fun ph hph => by cases hph)
  have h12 := h11.move (.ret (t := true) rfl rfl fun ph hph => by cases hph)
  obtain ⟨-, hversion, -⟩ := write_exactly_once hruns h12
  exact ⟨_, h12, rfl, ⟨rfl, hversion false 8 rfl⟩, rfl, hversion true 8 rfl⟩

end Llbt.GroupCommit
