import Llbt.GroupCommit.Protocol

/-!
# Group commit: every call ends

* `Move.turn` — what a move does to the queue, the entries and the phase of the leader;
* `State.remaining` — a number that every move makes smaller (`Move.remaining_lt`);
* `State.owed` — what is left to do before one call returns.  No step makes it larger, and every
  step of a leader makes it smaller (`Move.owed`), whatever other calls arrive;
* `Locked` — the leader has the write lock in the phases in which it works on the store;
* `progress` — as long as a call has not returned, some thread can bring it closer to its end.
-/

set_option autoImplicit false

namespace Llbt.GroupCommit

section Progress

variable {T S E : Type} [DecidableEq T] {s s' : State T S E} {l : T} {ph ph' : Phase T S E}

/-- Progress of the leader inside `lead_batch`, counting down. -/
def Phase.rank : Phase T S E → Nat
  | .entered => 300
  | .beginFailed | .begun => 299
  | .running _ todo _ _ => 200 + todo.length
  | .thrown .. => 199
  | .rerun batch _ _ i => 2 + 3 * (batch.length - i)
  | .rerunning batch _ _ i _ => 1 + 3 * (batch.length - i)
  | .rerunRan batch _ _ i _ _ => 3 * (batch.length - i)
  | .finishing .. => 1
  | .finished => 302

/-- A call that was not pushed yet counts twice, one that is not done once. -/
def State.undone (s : State T S E) (t : T) : Nat :=
  match s.status t with
  | .idle => 2
  | .waiting => if (s.pending t).done then 0 else 1
  | .returned _ => 0

def State.inside (s : State T S E) (t : T) : Nat :=
  match s.status t with
  | .returned _ => 0
  | _ => 1

def State.leaderRank (s : State T S E) : Nat := (s.leader.map (·.2.rank)).getD 301

/-- What is left to do: calls that are not done, calls that have not returned, and the rest of the
leader's work.  A batch is worth more than a whole term of a leader. -/
def State.remaining [Fintype T] (s : State T S E) : Nat :=
  304 * ∑ t, s.undone t + ∑ t, s.inside t + s.leaderRank

omit [DecidableEq T] in
theorem leaderRank_of_leader (h : s.leader = some (l, ph)) : s.leaderRank = ph.rank := by
  rw [State.leaderRank, h]
  rfl

omit [DecidableEq T] in
theorem undone_congr {t : T} (hstatus : s'.status t = s.status t)
    (hdone : (s'.pending t).done = (s.pending t).done) : s'.undone t = s.undone t := by
  rw [State.undone, State.undone, hstatus, hdone]

omit [DecidableEq T] in
theorem inside_congr {t : T} (hstatus : s'.status t = s.status t) : s'.inside t = s.inside t := by
  rw [State.inside, State.inside, hstatus]

omit [DecidableEq T] in
theorem remaining_lt_of_rank [Fintype T] (hl : s.leader = some (l, ph))
    (hl' : s'.leader = some (l, ph')) (hstatus : s'.status = s.status)
    (hdone : ∀ t, (s'.pending t).done = (s.pending t).done) (hrank : ph'.rank < ph.rank) :
    s'.remaining < s.remaining := by
  have h1 : s'.undone = s.undone := funext fun t => undone_congr (by rw [hstatus]) (hdone t)
  have h2 : s'.inside = s.inside := funext fun t => inside_congr (by rw [hstatus])
  rw [State.remaining, State.remaining, h1, h2, leaderRank_of_leader hl, leaderRank_of_leader hl']
  omega

/-! ## What a move does -/

/-- The leader has drained its batch and not finished it. -/
def Phase.busy : Phase T S E → Bool
  | .entered | .beginFailed | .begun | .finished => false
  | _ => true

/-- What the leader has to do before its own call can return. -/
def Phase.own : Phase T S E → Nat
  | .finished => 0
  | ph => ph.rank

/-- The leader works: what it has to do becomes less, and it keeps the queue or drains a batch from it. -/
structure Works (s s' : State T S E) (ph ph' : Phase T S E) : Prop where
  status_eq : s'.status = s.status
  done_eq : ∀ t, (s'.pending t).done = (s.pending t).done
  rank_lt : ph'.rank < ph.rank
  own_eq : ph.own = ph.rank
  queue_eq : s'.queue = s.queue ∧ ph'.busy = ph.busy ∨
    s'.queue = s.queue.drop maxBatch ∧ ph.busy = false ∧ ph'.busy = true

/-- A move, as far as it matters for what is left to do. -/
inductive Turn (s : State T S E) : State T S E → Prop
  | call {t : T} (ht : s.status t = .idle) :
    Turn s { s.setStatus t .waiting with queue := s.queue ++ [t] }
  | lead {t : T} (ht : s.status t = .waiting) (hd : (s.pending t).done = false) (hl : s.leader = none) :
    Turn s (s.setPhase t .entered)
  | ret {t : T} (ht : s.status t = .waiting) (hd : (s.pending t).done = true) :
    Turn s (s.setStatus t (.returned (s.pending t).outcome))
  | works {s' : State T S E} {l : T} {ph ph' : Phase T S E} (hl : s.leader = some (l, ph))
    (hl' : s'.leader = some (l, ph')) (h : Works s s' ph ph') : Turn s s'
  | finish {l : T} {batch : List T} {result : Option (Outcome E)}
    (hl : s.leader = some (l, .finishing batch result)) :
    Turn s ((s.finish batch result).setPhase l .finished)
  | stepDown {l : T} (hl : s.leader = some (l, .finished)) : Turn s { s with leader := none }

theorem Turn.leader (hl : s.leader = some (l, ph)) (hl' : s'.leader = some (l, ph')) (hstatus : s'.status = s.status)
    (hqueue : s'.queue = s.queue) (hdone : ∀ t, (s'.pending t).done = (s.pending t).done)
    (hbusy : ph'.busy = ph.busy) (hrank : ph'.rank < ph.rank) (hown : ph.own = ph.rank) : Turn s s' :=
  .works hl hl' ⟨hstatus, hdone, hrank, hown, .inl ⟨hqueue, hbusy⟩⟩

theorem Turn.update {u : T} {q : Pending E} (hl : s.leader = some (l, ph)) (hl' : s'.leader = some (l, ph'))
    (hstatus : s'.status = s.status) (hqueue : s'.queue = s.queue)
    (hpending : s'.pending = Function.update s.pending u q) (hq : q.done = (s.pending u).done)
    (hbusy : ph'.busy = ph.busy) (hrank : ph'.rank < ph.rank) (hown : ph.own = ph.rank) : Turn s s' := by
  refine .leader hl hl' hstatus hqueue (fun t => ?_) hbusy hrank hown
  rw [hpending]
  by_cases hu : t = u
  · subst hu
    rw [Function.update_self, hq]
  · rw [Function.update_of_ne hu]

theorem Turn.drain (hl : s.leader = some (l, ph)) (hl' : s'.leader = some (l, ph')) (hstatus : s'.status = s.status)
    (hpending : s'.pending = s.pending) (hqueue : s'.queue = s.queue.drop maxBatch)
    (hidle : ph.busy = false) (hbusy : ph'.busy = true) (hrank : ph'.rank < ph.rank) (hown : ph.own = ph.rank) :
    Turn s s' := by
  refine .works hl hl' ⟨hstatus, fun t => ?_, hrank, hown, .inr ⟨hqueue, hidle, hbusy⟩⟩
  rw [hpending]

omit [DecidableEq T] in
theorem lt_of_entry {batch : List T} {i : Nat} {t : T} (ht : batch[i]? = some t) : i < batch.length :=
  (List.getElem?_eq_some_iff.mp ht).1

theorem Move.turn {runs : Closures T S E} {faulty : Bool} (hmove : Move runs faulty s s') (hp : Placed s) :
    Turn s s' := by
  cases hmove with
  | call ht => exact .call ht
  | lead ht hd hl => exact .lead ht hd hl
  | ret ht hd _ => exact .ret ht hd
  | beginWrite hl _ => exact .leader hl rfl rfl rfl (fun _ => rfl) rfl (by simp [Phase.rank]) rfl
  | beginFails _ hl => exact .leader hl rfl rfl rfl (fun _ => rfl) rfl (by simp [Phase.rank]) rfl
  | drainFailed hl => exact .drain hl rfl rfl rfl rfl rfl rfl (by simp [Phase.rank]) rfl
  | drain hl =>
    refine .drain hl rfl rfl rfl rfl rfl rfl ?_ rfl
    simp only [Phase.rank, List.length_take, maxBatch]
    omega
  | run hl _ => exact .leader hl rfl rfl rfl (fun _ => rfl) rfl (by simp [Phase.rank]) rfl
  | throws hl _ =>
    refine .leader hl rfl rfl rfl (fun _ => rfl) rfl ?_ rfl
    simp only [Phase.rank]
    omega
  | commit hl => exact .leader hl rfl rfl rfl (fun _ => rfl) rfl (by simp [Phase.rank]) rfl
  | commitFails published _ hl =>
    cases published <;> exact .leader hl rfl rfl rfl (fun _ => rfl) rfl (by simp [Phase.rank]) rfl
  | rollback hl =>
    obtain ⟨⟨-, hlen⟩, -⟩ := (hp.leader _ _ hl).2.2
    unfold maxBatch at hlen
    split
    · exact .leader hl rfl rfl rfl (fun _ => rfl) rfl (by simp [Phase.rank]) rfl
    · refine .leader hl rfl rfl rfl (fun _ => rfl) rfl ?_ rfl
      simp only [Phase.rank]
      omega
  | rerunThrower hl ht =>
    have hlt := lt_of_entry ht
    refine .update hl rfl rfl rfl rfl rfl rfl ?_ rfl
    simp only [Phase.rank]
    omega
  | rerunBegin hl ht hne _ =>
    exact .leader hl rfl rfl rfl (fun _ => rfl) rfl (by simp only [Phase.rank]; omega) rfl
  | rerunBeginFails _ hl ht _ =>
    have hlt := lt_of_entry ht
    refine .update hl rfl rfl rfl rfl rfl rfl ?_ rfl
    simp only [Phase.rank]
    omega
  | rerunRun hl _ => exact .leader hl rfl rfl rfl (fun _ => rfl) rfl (by simp only [Phase.rank]; omega) rfl
  | rerunThrows hl _ =>
    have hlt := lt_of_entry (hp.leader _ _ hl).2.2.2.2.2
    refine .update hl rfl rfl rfl rfl rfl rfl ?_ rfl
    simp only [Phase.rank]
    omega
  | rerunCommit hl =>
    have hlt := lt_of_entry (hp.leader _ _ hl).2.2.2.2.2
    refine .update hl rfl rfl rfl rfl rfl rfl ?_ rfl
    simp only [Phase.rank]
    omega
  | rerunCommitFails published _ hl =>
    have hlt := lt_of_entry (hp.leader _ _ hl).2.2.2.2.2
    cases published <;>
    · refine .update hl rfl rfl rfl rfl rfl rfl ?_ rfl
      simp only [Phase.rank]
      omega
  | rerunEnd hl => exact .leader hl rfl rfl rfl (fun _ => rfl) rfl (by simp [Phase.rank]) rfl
  | finish hl => exact .finish hl
  | stepDown hl => exact .stepDown hl

/-! ## The work that is left -/

/-- **Every move makes the remaining work smaller.** -/
theorem Move.remaining_lt [Fintype T] {runs : Closures T S E} {faulty : Bool}
    (hmove : Move runs faulty s s') (h : Placed s) : s'.remaining < s.remaining := by
  cases hmove.turn h with
  | @call t ht =>
    have hlt : ∑ u, State.undone { s.setStatus t .waiting with queue := s.queue ++ [t] } u <
        ∑ u, s.undone u := by
      refine Finset.sum_lt_sum (fun u _ => ?_) ⟨t, Finset.mem_univ t, ?_⟩
      · by_cases hu : u = t
        · subst hu
          simp [State.undone, State.setStatus, ht, h.idle u ht]
        · exact Nat.le_of_eq (undone_congr (Function.update_of_ne hu ..) rfl)
      · simp [State.undone, State.setStatus, ht, h.idle t ht]
    have hinside : ∑ u, State.inside { s.setStatus t .waiting with queue := s.queue ++ [t] } u =
        ∑ u, s.inside u := by
      refine Finset.sum_congr rfl fun u _ => ?_
      by_cases hu : u = t
      · subst hu
        simp [State.inside, State.setStatus, ht]
      · exact inside_congr (Function.update_of_ne hu ..)
    have hrank : State.leaderRank { s.setStatus t .waiting with queue := s.queue ++ [t] } =
        s.leaderRank := rfl
    rw [State.remaining, State.remaining, hinside, hrank]
    omega
  | @lead t ht hd hl =>
    have hrank : s.leaderRank = 301 := by rw [State.leaderRank, hl]; rfl
    have hrank' : (s.setPhase t .entered).leaderRank = 300 := rfl
    have hundone : (s.setPhase t .entered).undone = s.undone := rfl
    have hinside : (s.setPhase t .entered).inside = s.inside := rfl
    rw [State.remaining, State.remaining, hundone, hinside, hrank, hrank']
    omega
  | @ret t ht hd =>
    have hundone : ∑ u, (s.setStatus t (.returned (s.pending t).outcome)).undone u =
        ∑ u, s.undone u := by
      refine Finset.sum_congr rfl fun u _ => ?_
      by_cases hu : u = t
      · subst hu
        simp [State.undone, State.setStatus, ht, hd]
      · exact undone_congr (Function.update_of_ne hu ..) rfl
    have hlt : ∑ u, (s.setStatus t (.returned (s.pending t).outcome)).inside u <
        ∑ u, s.inside u := by
      refine Finset.sum_lt_sum (fun u _ => ?_) ⟨t, Finset.mem_univ t, ?_⟩
      · by_cases hu : u = t
        · subst hu
          simp [State.inside, State.setStatus]
        · exact Nat.le_of_eq (inside_congr (Function.update_of_ne hu ..))
      · simp [State.inside, State.setStatus, ht]
    have hrank : (s.setStatus t (.returned (s.pending t).outcome)).leaderRank = s.leaderRank := rfl
    rw [State.remaining, State.remaining, hundone, hrank]
    omega
  | works hl hl' hworks => exact remaining_lt_of_rank hl hl' hworks.status_eq hworks.done_eq hworks.rank_lt
  | @finish l batch result hl =>
    obtain ⟨hne, -⟩ := (h.leader _ _ hl).2.2
    obtain ⟨t, ht⟩ := List.exists_mem_of_ne_nil _ hne
    have hbatch : s.batch = batch := batch_of_leader hl
    have hlisted : ∀ u ∈ batch, s.status u = .waiting ∧ (s.pending u).done = false := fun u hu =>
      h.listed u (by rw [hbatch]; simp [hu])
    have hlt : ∑ u, ((s.finish batch result).setPhase l .finished).undone u < ∑ u, s.undone u := by
      have hin : ∀ u ∈ batch, ((s.finish batch result).setPhase l .finished).undone u = 0 ∧
          s.undone u = 1 := by
        intro u hu
        simp [State.undone, State.setPhase, State.finish, hlisted u hu, hu, finish_done]
      refine Finset.sum_lt_sum (fun u _ => ?_) ⟨t, Finset.mem_univ t, ?_⟩
      · by_cases hu : u ∈ batch
        · rw [(hin u hu).1]
          exact Nat.zero_le _
        · exact Nat.le_of_eq (undone_congr rfl (by simp [State.setPhase, State.finish, hu]))
      · rw [(hin t ht).1, (hin t ht).2]
        exact Nat.one_pos
    have hinside : ((s.finish batch result).setPhase l .finished).inside = s.inside := rfl
    have hrank : s.leaderRank = 1 := leaderRank_of_leader hl
    have hrank' : ((s.finish batch result).setPhase l .finished).leaderRank = 302 := rfl
    rw [State.remaining, State.remaining, hinside, hrank, hrank']
    omega
  | stepDown hl =>
    have hrank : s.leaderRank = 302 := leaderRank_of_leader hl
    have hrank' : State.leaderRank { s with leader := none } = 301 := rfl
    have hundone : State.undone { s with leader := none } = s.undone := rfl
    have hinside : State.inside { s with leader := none } = s.inside := rfl
    rw [State.remaining, State.remaining, hundone, hinside, hrank, hrank']
    omega

/-! ## What a call waits for -/

def State.leaderBusy (s : State T S E) : Bool := (s.leader.map (·.2.busy)).getD false

/-- The batches that are drained before the one with the entry of `t`. -/
def State.batchesAhead (s : State T S E) (t : T) : Nat :=
  if t ∈ s.queue then s.queue.idxOf t / maxBatch + (if s.leaderBusy then 1 else 0) else 0

/-- What is left to do before a call that is inside `write` returns.  Entries behind its own do not
count: the queue is served in order. -/
def State.owed (s : State T S E) (t : T) : Nat :=
  if (s.pending t).done then
    match s.leader with
    | some (l, ph) => if l = t then 2 + ph.own else 1
    | none => 1
  else 400 + 304 * s.batchesAhead t + s.leaderRank

omit [DecidableEq T] in
theorem leaderBusy_of_leader (h : s.leader = some (l, ph)) : s.leaderBusy = ph.busy := by
  rw [State.leaderBusy, h]
  rfl

theorem owed_of_undone {t : T} (h : (s.pending t).done = false) :
    s.owed t = 400 + 304 * s.batchesAhead t + s.leaderRank := by
  rw [State.owed, h]
  rfl

theorem owed_of_done {t : T} (h : (s.pending t).done = true) (hl : s.leader = some (l, ph)) :
    s.owed t = if l = t then 2 + ph.own else 1 := by
  rw [State.owed, h, hl]
  rfl

/-- A call that is not done, or that leads, waits for the leader. -/
def State.WaitsForLeader (s : State T S E) (t : T) : Prop :=
  (s.pending t).done = false ∨ ∃ ph, s.leader = some (t, ph)

/-- A step does not take a call further from its end, and a step of the leader takes those that
wait for it closer. -/
def Advances (s s' : State T S E) (t : T) : Prop :=
  s'.owed t ≤ s.owed t ∧ (s.WaitsForLeader t → s'.leader ≠ s.leader → s'.owed t < s.owed t)

theorem Advances.of_lt {t : T} (h : s'.owed t < s.owed t) : Advances s s' t :=
  ⟨Nat.le_of_lt h, fun _ _ => h⟩

theorem Advances.of_done {t : T} (hl : s.leader = some (l, ph)) (hl' : s'.leader = some (l, ph'))
    (hd : (s.pending t).done = true) (hd' : (s'.pending t).done = true) (hown : ph'.own < ph.own) :
    Advances s s' t := by
  rw [Advances, owed_of_done hd hl, owed_of_done hd' hl']
  by_cases hlt : l = t
  · rw [if_pos hlt, if_pos hlt]
    exact ⟨by omega, fun _ _ => by omega⟩
  · rw [if_neg hlt, if_neg hlt]
    refine ⟨Nat.le_refl _, ?_⟩
    rintro (hundone | ⟨ph₀, h₀⟩)
    · rw [hd] at hundone
      cases hundone
    · rw [hl] at h₀
      cases h₀
      exact absurd rfl hlt

theorem Advances.leader {t : T} (hl : s.leader = some (l, ph)) (hl' : s'.leader = some (l, ph'))
    (hqueue : s'.queue = s.queue) (hdone : (s'.pending t).done = (s.pending t).done)
    (hbusy : ph'.busy = ph.busy) (hrank : ph'.rank < ph.rank) (hown : ph.own = ph.rank) :
    Advances s s' t := by
  have hown' : ph'.own ≤ ph'.rank := by cases ph' <;> simp [Phase.own]
  cases hd : (s.pending t).done with
  | false =>
    refine .of_lt ?_
    have hahead : s'.batchesAhead t = s.batchesAhead t := by
      rw [State.batchesAhead, State.batchesAhead, hqueue, leaderBusy_of_leader hl,
        leaderBusy_of_leader hl', hbusy]
    rw [owed_of_undone hd, owed_of_undone (hdone.trans hd), hahead, leaderRank_of_leader hl,
      leaderRank_of_leader hl']
    omega
  | true =>
    exact .of_done hl hl' hd (hdone.trans hd) (by omega)

theorem Advances.other {t : T} (hl : s'.leader = s.leader) (hpending : s'.pending t = s.pending t)
    (hahead : s'.batchesAhead t = s.batchesAhead t) : Advances s s' t := by
  have hrank : s'.leaderRank = s.leaderRank := by rw [State.leaderRank, State.leaderRank, hl]
  refine ⟨Nat.le_of_eq ?_, fun _ hne => absurd hl hne⟩
  rw [State.owed, State.owed, hpending, hl, hahead, hrank]

theorem Advances.drain {t : T} (hl : s.leader = some (l, ph)) (hl' : s'.leader = some (l, ph'))
    (hdone : (s'.pending t).done = (s.pending t).done) (hqueue : s'.queue = s.queue.drop maxBatch)
    (hidle : ph.busy = false) (hbusy : ph'.busy = true) (hrank : ph'.rank < ph.rank)
    (hown : ph.own = ph.rank) (hnodup : s.queue.Nodup) : Advances s s' t := by
  have hown' : ph'.own ≤ ph'.rank := by cases ph' <;> simp [Phase.own]
  cases hd : (s.pending t).done with
  | false =>
    refine .of_lt ?_
    have hahead : s'.batchesAhead t ≤ s.batchesAhead t := by
      rw [State.batchesAhead, State.batchesAhead, hqueue, leaderBusy_of_leader hl,
        leaderBusy_of_leader hl', hidle, hbusy]
      by_cases hmem : t ∈ s.queue.drop maxBatch
      · have hnot : t ∉ s.queue.take maxBatch := fun htake =>
          List.disjoint_take_drop hnodup (Nat.le_refl _) htake hmem
        have hidx : s.queue.idxOf t = maxBatch + (s.queue.drop maxBatch).idxOf t := by
          have hlen : (s.queue.take maxBatch).length = maxBatch := by
            have := List.length_pos_of_mem hmem
            rw [List.length_drop] at this
            rw [List.length_take]
            omega
          conv_lhs => rw [← List.take_append_drop maxBatch s.queue]
          rw [List.idxOf_append_of_notMem hnot, hlen]
        rw [if_pos hmem, if_pos (List.mem_of_mem_drop hmem), hidx, Nat.add_comm maxBatch,
          Nat.add_div_right _ (by decide)]
        exact Nat.le_refl _
      · rw [if_neg hmem]
        exact Nat.zero_le _
    rw [owed_of_undone hd, owed_of_undone (hdone.trans hd), leaderRank_of_leader hl,
      leaderRank_of_leader hl']
    omega
  | true =>
    exact .of_done hl hl' hd (hdone.trans hd) (by omega)

theorem Advances.finish {t : T} {batch : List T} {result : Option (Outcome E)} (hp : Placed s)
    (ht : s.status t = .waiting) (hl : s.leader = some (l, .finishing batch result)) :
    Advances s ((s.finish batch result).setPhase l .finished) t := by
  have hbatch : s.batch = batch := batch_of_leader hl
  have hleader : ((s.finish batch result).setPhase l .finished).leader = some (l, .finished) := rfl
  cases hd : (s.pending t).done with
  | true =>
    refine .of_done hl hleader hd ?_ (by simp [Phase.own, Phase.rank])
    change (if t ∈ batch then (s.pending t).finish result else s.pending t).done = true
    split
    · exact finish_done _ _
    · exact hd
  | false =>
    refine .of_lt ?_
    rw [owed_of_undone hd, leaderRank_of_leader hl]
    by_cases hmem : t ∈ batch
    · have hdone : (((s.finish batch result).setPhase l .finished).pending t).done = true := by
        change (if t ∈ batch then (s.pending t).finish result else s.pending t).done = true
        rw [if_pos hmem]
        exact finish_done _ _
      rw [owed_of_done hdone hleader, Phase.own]
      split <;> omega
    · have hdone : (((s.finish batch result).setPhase l .finished).pending t).done = false := by
        change (if t ∈ batch then (s.pending t).finish result else s.pending t).done = false
        rw [if_neg hmem]
        exact hd
      rw [owed_of_undone hdone, leaderRank_of_leader hleader, State.batchesAhead, State.batchesAhead,
        leaderBusy_of_leader hl, leaderBusy_of_leader hleader]
      have hqueue : t ∈ s.queue := by
        have := hp.waiting t ht hd
        rw [hbatch] at this
        exact (List.mem_append.mp this).resolve_right hmem
      rw [if_pos hqueue]
      change 400 + 304 * (if t ∈ s.queue then s.queue.idxOf t / maxBatch + 0 else 0) + 302 <
        400 + 304 * (s.queue.idxOf t / maxBatch + 1) + 1
      rw [if_pos hqueue]
      omega

theorem Advances.stepDown {t : T} (hl : s.leader = some (l, .finished)) :
    Advances s { s with leader := none } t := by
  cases hd : (s.pending t).done with
  | false =>
    refine .of_lt ?_
    have hahead : State.batchesAhead { s with leader := none } t = s.batchesAhead t := by
      rw [State.batchesAhead, State.batchesAhead, leaderBusy_of_leader hl]
      rfl
    have hd' : (State.pending { s with leader := none } t).done = false := hd
    rw [owed_of_undone hd, owed_of_undone hd', hahead, leaderRank_of_leader hl]
    exact Nat.add_lt_add_left (by decide : 301 < 302) _
  | true =>
    have hnew : State.owed { s with leader := none } t = 1 := by
      rw [State.owed, hd]
      rfl
    rw [Advances, hnew, owed_of_done hd hl, Phase.own]
    by_cases hlt : l = t
    · rw [if_pos hlt]
      exact ⟨by decide, fun _ _ => by decide⟩
    · rw [if_neg hlt]
      refine ⟨Nat.le_refl _, ?_⟩
      rintro (hundone | ⟨ph₀, h₀⟩)
      · rw [hd] at hundone
        cases hundone
      · rw [hl] at h₀
        cases h₀
        exact absurd rfl hlt

/-- **No step takes a call further from its end, and every step of a leader takes all calls that
wait for it closer.** -/
theorem Move.advances {runs : Closures T S E} {faulty : Bool} (hmove : Move runs faulty s s')
    (hp : Placed s) {t : T} (ht : s.status t = .waiting) : Advances s s' t := by
  have hnodup : s.queue.Nodup := (List.nodup_append.mp hp.nodup).1
  cases hmove.turn hp with
  | @call u hu =>
    have hne : t ≠ u := by
      rintro rfl
      rw [ht] at hu
      cases hu
    refine .other rfl rfl ?_
    change (if t ∈ s.queue ++ [u] then (s.queue ++ [u]).idxOf t / maxBatch + _ else 0) = _
    rw [State.batchesAhead]
    by_cases hmem : t ∈ s.queue
    · rw [if_pos hmem, if_pos (List.mem_append_left _ hmem), List.idxOf_append_of_mem hmem]
      rfl
    · rw [if_neg hmem, if_neg (by simp [hmem, hne])]
  | @lead u hu hd hl =>
    have hrank : s.leaderRank = 301 := by rw [State.leaderRank, hl]; rfl
    cases hdt : (s.pending t).done with
    | false =>
      refine .of_lt ?_
      have hdt' : ((s.setPhase u .entered).pending t).done = false := hdt
      have hahead : (s.setPhase u .entered).batchesAhead t = s.batchesAhead t := by
        rw [State.batchesAhead, State.batchesAhead, State.leaderBusy, State.leaderBusy, hl]
        rfl
      rw [owed_of_undone hdt, owed_of_undone hdt', hahead, hrank]
      exact Nat.add_lt_add_left (by decide : 300 < 301) _
    | true =>
      have hne : u ≠ t := by
        rintro rfl
        rw [hd] at hdt
        cases hdt
      have hdt' : ((s.setPhase u .entered).pending t).done = true := hdt
      have hold : s.owed t = 1 := by
        rw [State.owed, hdt, hl]
        rfl
      refine ⟨?_, ?_⟩
      · rw [hold, owed_of_done hdt' rfl, if_neg hne]
      · rintro (hundone | ⟨ph, hph⟩)
        · rw [hdt] at hundone
          cases hundone
        · rw [hl] at hph
          cases hph
  | @ret u hu hd => exact .other rfl rfl rfl
  | works hl hl' hworks =>
    rcases hworks.queue_eq with ⟨hqueue, hbusy⟩ | ⟨hqueue, hidle, hbusy⟩
    · exact .leader hl hl' hqueue (hworks.done_eq t) hbusy hworks.rank_lt hworks.own_eq
    · exact .drain hl hl' (hworks.done_eq t) hqueue hidle hbusy hworks.rank_lt hworks.own_eq hnodup
  | finish hl => exact .finish hp ht hl
  | stepDown hl => exact .stepDown hl

omit [DecidableEq T] in
theorem PlainStep.remaining_eq [Fintype T] (hstep : PlainStep s s') : s'.remaining = s.remaining := by
  cases hstep <;> rfl

theorem PlainStep.owed_eq (hstep : PlainStep s s') (t : T) : s'.owed t = s.owed t := by
  cases hstep <;> rfl

/-! ## The write lock -/

/-- The leader has the write lock exactly in these phases. -/
def Phase.locked : Phase T S E → Bool
  | .begun | .running .. | .thrown .. | .rerunning .. | .rerunRan .. => true
  | _ => false

def State.leaderLocked (s : State T S E) : Bool := (s.leader.map (·.2.locked)).getD false

def Locked (s : State T S E) : Prop := s.writer = some .leader ↔ s.leaderLocked = true

omit [DecidableEq T] in
theorem leaderLocked_of_leader (h : s.leader = some (l, ph)) : s.leaderLocked = ph.locked := by
  rw [State.leaderLocked, h]
  rfl

theorem Move.lock {runs : Closures T S E} {faulty : Bool} (hmove : Move runs faulty s s')
    (h : Locked s) : Locked s' := by
  unfold Locked at h ⊢
  cases hmove with
  | call _ => exact h
  | lead _ _ hl =>
    rw [State.leaderLocked, hl] at h
    exact h
  | ret _ _ _ => exact h
  | beginWrite hl _ => exact ⟨fun _ => rfl, fun _ => rfl⟩
  | beginFails _ hl | drainFailed hl | run hl _ | throws hl _ | rerunThrower hl _
  | rerunBeginFails _ hl _ _ | rerunRun hl _ | rerunEnd hl | finish hl | drain hl =>
    rw [leaderLocked_of_leader hl] at h
    exact h
  | commit hl => exact ⟨fun he => (by cases he), fun he => (by cases he)⟩
  | commitFails published _ hl =>
    cases published <;> exact ⟨fun he => (by cases he), fun he => (by cases he)⟩
  | rollback hl =>
    refine ⟨fun he => (by cases he), fun he => ?_⟩
    rw [leaderLocked_of_leader rfl] at he
    split at he <;> cases he
  | rerunBegin hl _ _ _ => exact ⟨fun _ => rfl, fun _ => rfl⟩
  | rerunThrows hl _ => exact ⟨fun he => (by cases he), fun he => (by cases he)⟩
  | rerunCommit hl => exact ⟨fun he => (by cases he), fun he => (by cases he)⟩
  | rerunCommitFails published _ hl =>
    cases published <;> exact ⟨fun he => (by cases he), fun he => (by cases he)⟩
  | stepDown hl =>
    rw [leaderLocked_of_leader hl] at h
    exact h

omit [DecidableEq T] in
theorem PlainStep.lock (hstep : PlainStep s s') (h : Locked s) : Locked s' := by
  unfold Locked at h ⊢
  cases hstep with
  | begin hw =>
    rw [hw] at h
    exact ⟨fun he => (by cases he), fun he => (by cases h.mpr he)⟩
  | commit new hw =>
    rw [hw] at h
    exact ⟨fun he => (by cases he), fun he => (by cases h.mpr he)⟩
  | rollback hw =>
    rw [hw] at h
    exact ⟨fun he => (by cases he), fun he => (by cases h.mpr he)⟩

theorem Reachable.lock {runs : Closures T S E} (h : Reachable runs s) : Locked s := by
  induction h with
  | initial hinit =>
    unfold Locked
    rw [hinit.writer, State.leaderLocked, hinit.leader]
    exact ⟨fun he => (by cases he), fun he => (by cases he)⟩
  | move _ hmove ih => exact hmove.lock ih
  | plain _ hstep ih => exact hstep.lock ih

theorem leader_moves {runs : Closures T S E} (hruns : ∀ t s, ∃ r, runs t s r) (h : Placed s)
    (hlock : Locked s) (hleader : s.leader = some (l, ph)) :
    (∃ s', Move runs false s s' ∧ s'.leader ≠ s.leader) ∨ s.writer = some .plain := by
  have hsized := (h.leader l ph hleader).2.2
  unfold Locked at hlock
  rw [leaderLocked_of_leader hleader] at hlock
  have hfree : ph.locked = false → s.writer = none ∨ s.writer = some .plain := by
    intro hph
    cases hw : s.writer with
    | none => exact .inl rfl
    | some w =>
      cases w with
      | plain => exact .inr rfl
      | leader =>
        rw [hlock.mp hw] at hph
        cases hph
  cases ph with
  | entered =>
    exact (hfree rfl).imp_left fun hw => ⟨_, .beginWrite hleader hw, by simp [State.setPhase, hleader]⟩
  | beginFailed => exact .inl ⟨_, .drainFailed hleader, by simp [State.setPhase, hleader]⟩
  | begun => exact .inl ⟨_, .drain hleader, by simp [State.setPhase, hleader]⟩
  | running batch todo ran cur =>
    cases todo with
    | nil => exact .inl ⟨_, .commit hleader, by simp [State.setPhase, hleader]⟩
    | cons u todo =>
      obtain ⟨r, hr⟩ := hruns u cur
      cases r with
      | ok new => exact .inl ⟨_, .run hleader hr, by simp [State.setPhase, hleader]⟩
      | error e => exact .inl ⟨_, .throws hleader hr, by simp [State.setPhase, hleader]⟩
  | thrown batch thrower e =>
    refine .inl ⟨_, .rollback hleader, ?_⟩
    rw [hleader, State.setPhase]
    split <;> simp
  | rerun batch thrower e i =>
    obtain ⟨-, -, hle⟩ := hsized
    by_cases hi : i = batch.length
    · subst hi
      exact .inl ⟨_, .rerunEnd hleader, by simp [State.setPhase, hleader]⟩
    · have hu := List.getElem?_eq_getElem (Nat.lt_of_le_of_ne hle hi)
      by_cases hthrower : i = thrower
      · subst hthrower
        exact .inl ⟨_, .rerunThrower hleader hu, by simp [State.setPhase, hleader]⟩
      · exact (hfree rfl).imp_left fun hw =>
          ⟨_, .rerunBegin hleader hu hthrower hw, by simp [State.setPhase, hleader]⟩
  | rerunning batch thrower e i u =>
    obtain ⟨r, hr⟩ := hruns u s.store
    cases r with
    | ok new => exact .inl ⟨_, .rerunRun hleader hr, by simp [State.setPhase, hleader]⟩
    | error e' => exact .inl ⟨_, .rerunThrows hleader hr, by simp [State.setPhase, hleader]⟩
  | rerunRan batch thrower e i u cur =>
    exact .inl ⟨_, .rerunCommit hleader, by simp [State.setPhase, hleader]⟩
  | finishing batch result => exact .inl ⟨_, .finish hleader, by simp [State.setPhase, hleader]⟩
  | finished => exact .inl ⟨_, .stepDown hleader, by simp [hleader]⟩

/-- **No deadlock.**  A call that is inside `write` can return, or the leader it waits for can take a
step (it may itself become the leader), or a transaction made with `begin_write` has the lock. -/
theorem progress {runs : Closures T S E} (hruns : ∀ t s, ∃ r, runs t s r) (h : Placed s)
    (hlock : Locked s) {t : T} (ht : s.status t = .waiting) :
    (∃ s' o, Move runs false s s' ∧ s'.status t = .returned o) ∨
      (s.WaitsForLeader t ∧ ∃ s', Move runs false s s' ∧ s'.leader ≠ s.leader) ∨
      s.writer = some .plain := by
  by_cases hwaits : s.WaitsForLeader t
  · cases hleader : s.leader with
    | none =>
      have hd : (s.pending t).done = false := by
        refine hwaits.resolve_right ?_
        rintro ⟨ph, hph⟩
        rw [hleader] at hph
        cases hph
      exact .inr (.inl ⟨hwaits, _, .lead ht hd hleader, by simp [State.setPhase]⟩)
    | some p =>
      rw [← hleader]
      exact .inr ((leader_moves hruns h hlock hleader).imp_left fun hm => ⟨hwaits, hm⟩)
  · have hd : (s.pending t).done = true := by
      rw [← Bool.not_eq_false]
      exact fun hd => hwaits (.inl hd)
    refine .inl ⟨_, (s.pending t).outcome, .ret ht hd fun ph hph => hwaits (.inr ⟨ph, hph⟩), ?_⟩
    exact Function.update_self ..

end Progress

end Llbt.GroupCommit
