import Mathlib

/-!
# The tickets of writers

`DB::do_begin_write` takes a ticket, locks the write mutex and waits on a condition variable while its ticket is ahead
of `next_served`; the wait ends after half a second in any case.  `do_try_begin_write` takes no ticket.  `do_end_write`
advances `next_served`.

* `oldest_may_proceed` — while writers are served in the order of their tickets, the oldest one in line is never ahead;
* `line_is_stuck` — a writer that has timed out lets an older one set `next_served` back, and the next one waits for its
  timeout.
-/

set_option autoImplicit false

namespace Llbt.Tickets

/-- A call of `do_begin_write` that has a ticket and has not been served: it has yet to lock the mutex, or waits on the
condition variable. -/
structure Call where
  ticket : BitVec 32
  waiting : Bool
  deriving DecidableEq

/-- Who holds the write mutex. -/
inductive Holder where
  | nobody
  | ticketed
  | tryLocked
  deriving DecidableEq

/-- The counters and the flag in `SharedInfo`, and the calls in the order of their tickets. -/
structure State where
  nextTicket : BitVec 32
  nextServed : BitVec 32
  commitInCriticalPhase : Bool
  line : List Call
  holder : Holder
  deriving DecidableEq

def State.start : State := ⟨0, 0, false, [], .nobody⟩

/-- `int32_t(my_ticket - next_served) > 0` -/
def State.ahead (s : State) (ticket : BitVec 32) : Bool := decide ((ticket - s.nextServed).toInt > 0)

inductive Event where
  /-- `next_ticket.fetch_add(1)` -/
  | take
  /-- A call in line locks the mutex. -/
  | lock (i : Nat)
  /-- A call wakes up and has the mutex again. -/
  | wake (i : Nat) (timeout : Bool)
  | tryBegin
  | endWrite
  /-- A commit enters or leaves its critical phase, or a process has died in it. -/
  | setCriticalPhase (b : Bool)

/-- The end of `do_begin_write`; `finish_begin_write` unlocks and throws in a critical phase. -/
def State.proceed (s : State) (i : Nat) (ticket : BitVec 32) : State :=
  { s with nextServed := ticket, line := s.line.eraseIdx i, holder := if s.commitInCriticalPhase then .nobody
    else .ticketed }

def State.step (s : State) : Event → Option State
  | .take => some { s with nextTicket := s.nextTicket + 1, line := s.line ++ [⟨s.nextTicket, false⟩] }
  | .lock i =>
    match s.holder, s.line[i]? with
    | .nobody, some ⟨ticket, false⟩ => some (if s.ahead ticket then { s with line := s.line.set i ⟨ticket, true⟩ }
      else s.proceed i ticket)
    | _, _ => none
  | .wake i timeout =>
    match s.holder, s.line[i]? with
    | .nobody, some ⟨ticket, true⟩ => some (if !timeout && s.ahead ticket then s else s.proceed i ticket)
    | _, _ => none
  | .tryBegin =>
    match s.holder with
    | .nobody => some { s with holder := if s.commitInCriticalPhase then .nobody else .tryLocked }
    | _ => none
  | .endWrite =>
    match s.holder with
    | .nobody => none
    | _ => some { s with nextServed := s.nextServed + 1, holder := .nobody }
  | .setCriticalPhase b => some { s with commitInCriticalPhase := b }

def runAll : List Event → State → Option State
  | [], s => some s
  | e :: es, s => (s.step e).bind (runAll es)

/-! ## Writers in the order of their tickets -/

/-- The oldest ticket in line, or the next one to be taken. -/
def State.oldest (s : State) : BitVec 32 := (s.line.head?.map Call.ticket).getD s.nextTicket

/-- Calls are served in order and do not throw; and not more than `2 ^ 31` transactions without a ticket end in a
row. -/
def State.orderly (s : State) : Event → Bool
  | .lock i => s.line[i]?.all fun c => s.ahead c.ticket || (i == 0 && !s.commitInCriticalPhase)
  | .wake i timeout => s.line[i]?.all fun c => (!timeout && s.ahead c.ticket) || (i == 0 && !s.commitInCriticalPhase)
  | .endWrite => s.holder ≠ .tryLocked || (s.nextServed - s.oldest).toNat + 1 < 2 ^ 31
  | _ => true

def orderlyRun : List Event → State → Bool
  | [], _ => true
  | e :: es, s => s.orderly e && (s.step e).all (orderlyRun es)

/-- The tickets in line are the numbers from `m` on; `next_served` has got to `m`, and `d` transactions without a ticket
further. -/
structure Line (s : State) (m d : Nat) : Prop where
  tickets : s.line.map Call.ticket = (List.range' m s.line.length).map (BitVec.ofNat 32)
  next : s.nextTicket = BitVec.ofNat 32 (m + s.line.length)
  served : s.nextServed + (if s.holder = .ticketed then 1 else 0) = BitVec.ofNat 32 (m + d)
  near : d < 2 ^ 31
  reset : s.holder = .ticketed → d = 0

theorem not_ahead_of_le {s : State} {m d : Nat} (hserved : s.nextServed = BitVec.ofNat 32 (m + d)) (hd : d < 2 ^ 31) :
    s.ahead (BitVec.ofNat 32 m) = false := by
  have hdiff : (BitVec.ofNat 32 m - s.nextServed).toNat = (2 ^ 32 - d) % 2 ^ 32 := by
    rw [hserved, BitVec.toNat_sub, BitVec.toNat_ofNat, BitVec.toNat_ofNat]
    omega
  rw [State.ahead, decide_eq_false_iff_not, BitVec.toInt_eq_toNat_cond, hdiff]
  split <;> omega

section Step

variable {s s' : State} {m d : Nat}

theorem Line.head (h : Line s m d) {c : Call} {rest : List Call} (hline : s.line = c :: rest) :
    c.ticket = BitVec.ofNat 32 m := by
  have := h.tickets
  rw [hline] at this
  simpa [List.range'_succ] using (List.cons.inj this).1

theorem Line.oldest (h : Line s m d) : s.oldest = BitVec.ofNat 32 m := by
  cases hline : s.line with
  | nil => simp [State.oldest, hline, h.next]
  | cons c rest => simp [State.oldest, hline, h.head hline]

theorem Line.proceed (h : Line s m d) {c : Call} (hcall : s.line[0]? = some c)
    (hphase : s.commitInCriticalPhase = false) :
    Line (s.proceed 0 c.ticket) (m + 1) 0 := by
  obtain ⟨rest, hline⟩ : ∃ rest, s.line = c :: rest := by
    cases hline : s.line with
    | nil => simp [hline] at hcall
    | cons a rest => exact ⟨rest, by simpa [hline] using hcall⟩
  have htickets := h.tickets
  have hnext := h.next
  have hhead := h.head hline
  rw [hline] at htickets hnext
  refine ⟨?_, ?_, ?_, by decide, fun _ => rfl⟩
  · simpa [State.proceed, hline, List.range'_succ] using (List.cons.inj htickets).2
  · simpa [State.proceed, hline, Nat.add_assoc, Nat.add_comm 1] using hnext
  · simp [State.proceed, hphase, hhead, BitVec.ofNat_add]

theorem Line.set (h : Line s m d) {i : Nat} {c : Call} (hcall : s.line[i]? = some c) :
    Line { s with line := s.line.set i ⟨c.ticket, true⟩ } m d := by
  have hsame : (s.line.set i ⟨c.ticket, true⟩).map Call.ticket = s.line.map Call.ticket := by
    obtain ⟨hi, rfl⟩ := List.getElem?_eq_some_iff.mp hcall
    rw [List.map_set, ← List.getElem_map Call.ticket (h := by simpa using hi)]
    exact List.set_getElem_self _
  exact ⟨by simpa [hsame] using h.tickets, by simpa using h.next, h.served, h.near, h.reset⟩

theorem Line.step (h : Line s m d) {e : Event} (horderly : s.orderly e = true) (hstep : s.step e = some s') :
    ∃ m' d', Line s' m' d' := by
  cases e with
  | take =>
    cases hstep
    refine ⟨m, d, ?_, ?_, h.served, h.near, h.reset⟩
    · simp [List.range'_1_concat, h.tickets, h.next]
    · simp [h.next, BitVec.ofNat_add, BitVec.add_assoc]
  | lock i =>
    simp only [State.step] at hstep
    split at hstep
    · rename_i ticket hholder hcall
      simp only [State.orderly, hcall, Option.all_some] at horderly
      cases hahead : s.ahead ticket with
      | true =>
        rw [hahead] at hstep
        cases hstep
        exact ⟨m, d, h.set hcall⟩
      | false =>
        rw [hahead] at hstep horderly
        cases hstep
        simp only [Bool.false_or, Bool.and_eq_true, beq_iff_eq, Bool.not_eq_true'] at horderly
        obtain ⟨rfl, hphase⟩ := horderly
        exact ⟨m + 1, 0, h.proceed hcall hphase⟩
    · cases hstep
  | wake i timeout =>
    simp only [State.step] at hstep
    split at hstep
    · rename_i ticket hholder hcall
      simp only [State.orderly, hcall, Option.all_some] at horderly
      cases hwaits : !timeout && s.ahead ticket with
      | true =>
        rw [hwaits] at hstep
        cases hstep
        exact ⟨m, d, h⟩
      | false =>
        rw [hwaits] at hstep horderly
        cases hstep
        simp only [Bool.false_or, Bool.and_eq_true, beq_iff_eq, Bool.not_eq_true'] at horderly
        obtain ⟨rfl, hphase⟩ := horderly
        exact ⟨m + 1, 0, h.proceed hcall hphase⟩
    · cases hstep
  | tryBegin =>
    simp only [State.step] at hstep
    split at hstep
    · rename_i hholder
      cases hstep
      have hserved := h.served
      refine ⟨m, d, h.tickets, h.next, ?_, h.near, ?_⟩
      · cases hphase : s.commitInCriticalPhase <;> simpa [hholder, hphase] using hserved
      · cases s.commitInCriticalPhase <;> simp
    · cases hstep
  | endWrite =>
    have hserved := h.served
    cases hholder : s.holder with
    | nobody => simp [State.step, hholder] at hstep
    | ticketed =>
      simp only [State.step, hholder, Option.some.injEq] at hstep
      subst hstep
      exact ⟨m, d, h.tickets, h.next, by simpa [hholder] using hserved, h.near, by simp⟩
    | tryLocked =>
      simp only [State.step, hholder, Option.some.injEq] at hstep
      subst hstep
      simp only [State.orderly, hholder, h.oldest, ne_eq, not_true_eq_false, decide_false, Bool.false_or,
        decide_eq_true_eq] at horderly
      have hnext : s.nextServed = BitVec.ofNat 32 (m + d) := by simpa [hholder] using hserved
      have hdistance : (s.nextServed - BitVec.ofNat 32 m).toNat = d := by
        have := h.near
        rw [hnext, BitVec.toNat_sub, BitVec.toNat_ofNat, BitVec.toNat_ofNat]
        omega
      refine ⟨m, d + 1, h.tickets, h.next, ?_, by omega, by simp⟩
      simp [hnext, BitVec.ofNat_add, BitVec.add_assoc]
  | setCriticalPhase b =>
    cases hstep
    exact ⟨m, d, h.tickets, h.next, h.served, h.near, h.reset⟩

end Step

/-- **Orderly runs.**  If calls are served in the order of their tickets without an exception, and not too many
transactions without a ticket end in between, the oldest call in line may proceed whenever the mutex is free. -/
theorem oldest_may_proceed {es : List Event} {s : State} (hrun : runAll es .start = some s)
    (horderly : orderlyRun es .start = true)
    (hfree : s.holder = .nobody) (hline : s.line ≠ []) : ∃ c ∈ s.line, s.ahead c.ticket = false := by
  have hall : ∀ (es : List Event) {s s' : State} {m d : Nat}, Line s m d → runAll es s = some s' →
    orderlyRun es s = true →
      ∃ m' d', Line s' m' d' := by
    intro es
    induction es with
    | nil =>
      intro s s' m d h hrun _
      cases hrun
      exact ⟨m, d, h⟩
    | cons e es ih =>
      intro s s' m d h hrun horderly
      obtain ⟨s₁, hfirst, hrest⟩ := Option.bind_eq_some_iff.mp hrun
      simp only [orderlyRun, hfirst, Option.all_some, Bool.and_eq_true] at horderly
      obtain ⟨m₁, d₁, h₁⟩ := h.step horderly.1 hfirst
      exact ih h₁ hrest horderly.2
  obtain ⟨m, d, h⟩ := hall es (m := 0) (d := 0) ⟨rfl, rfl, rfl, by decide, by simp [State.start]⟩ hrun horderly
  obtain ⟨c, rest, hcons⟩ := List.exists_cons_of_ne_nil hline
  refine ⟨c, by simp [hcons], ?_⟩
  rw [h.head hcons]
  exact not_ahead_of_le (by simpa [hfree] using h.served) h.near

/-- One writer, and another one in line when it ends. -/
theorem oldest_may_proceed_second :
    ∃ c ∈ [(⟨1, false⟩ : Call)], State.ahead ⟨2, 1, false, [⟨1, false⟩], .nobody⟩ c.ticket = false :=
  @oldest_may_proceed [.take, .lock 0, .take, .endWrite] ⟨2, 1, false, [⟨1, false⟩], .nobody⟩ (by decide)
    (by decide) rfl (by decide)

/-- Four writers: while the first one is at work the others take tickets, the third one times out and is served before
the second one, which then sets `next_served` back.  Ticket 3 is left, and ahead. -/
theorem line_is_stuck : ∃ s, runAll [.take, .lock 0, .take, .take, .take, .endWrite, .lock 1, .wake 1 true, .endWrite,
    .lock 0, .endWrite] .start = some s ∧
    s.holder = .nobody ∧ s.line = [⟨3, false⟩] ∧ s.ahead 3 = true :=
  ⟨⟨4, 2, false, [⟨3, false⟩], .nobody⟩, by decide, rfl, rfl, by decide⟩

end Llbt.Tickets
