import Mathlib

/-!
# The condition variable over a fifo (`util/interprocess_condvar.cpp`)

`wait` takes a number in the line of waiters, unlocks the mutex and polls a fifo; `notify_all` writes a byte
for every waiter that has not been signalled.  A waiter that has been woken up compares its number with
the count of signals and reads a byte.  One that times out counts a signal that nobody has sent.

A step is what a thread does while it holds the mutex, or the end of a call of `poll` without it, which
may have been decided long before the mutex is retaken.

* `condvar_spec` — in every state of every interleaving the counters balance, and the waiters that were
  suspended at the last `notify_all` have a byte each.  A waiter that `poll` has told of data and that
  passes the test of its number finds a byte, provided that no timeout with an empty fifo makes such a
  waiter pass.
* `empty_fifo_is_read` — a run in which one does.
* `notified_returns` — a waiter that has been notified can return, in every state.
-/

set_option autoImplicit false

namespace Llbt.CondVar

/-- What `poll` has returned.  Of its errors only the interruption by a signal is taken up. -/
inductive Poll where
  | ready
  | timedOut
  | interrupted
  deriving DecidableEq

/-- A thread in `wait`: its number, whether it has a timeout, and the result of `poll` it comes back with. -/
structure Waiter where
  ticket : Nat
  timed : Bool
  poll : Option Poll
  deriving DecidableEq

/-- The shared part, the bytes in the fifo, and the suspended threads of all processes.  `notified` is
`wait_counter` at the last `notify_all`. -/
structure State where
  waitCounter : Nat
  signalCounter : Nat
  bytes : Nat
  waiters : List Waiter
  notified : Nat
  deriving DecidableEq

def State.start : State := ⟨0, 0, 0, [], 0⟩

/-- The loop of `notify_all`, for at most `n` signals. -/
def notifyLoop : Nat → State → State
  | 0, s => s
  | n + 1, s =>
    if s.waitCounter > s.signalCounter then
      notifyLoop n { s with signalCounter := s.signalCounter + 1, bytes := s.bytes + 1 }
    else s

def notifyAll (s : State) : State :=
  { notifyLoop (s.waitCounter - s.signalCounter) s with notified := s.waitCounter }

/-- How a thread goes on in `wait` when it has the mutex again. -/
inductive Resumed where
  /-- It returns. -/
  | returns (signalCounter bytes : Nat)
  /-- It calls `poll` again. -/
  | polls
  /-- It calls `poll` again since it has found no byte to read. -/
  | unreachable

def resume (s : State) (ticket : Nat) : Poll → Resumed
  | .timedOut => .returns (s.signalCounter + 1) s.bytes
  | .interrupted => .polls
  | .ready =>
    if s.signalCounter < ticket then .polls
    else if s.bytes = 0 then .unreachable
    else .returns s.signalCounter (s.bytes - 1)

/-- What the operating system may return: data if there is some, a timeout if there is none. -/
def Poll.Possible (s : State) (w : Waiter) : Poll → Prop
  | .ready => 0 < s.bytes
  | .timedOut => w.timed = true ∧ s.bytes = 0
  | .interrupted => True

/-- The steps of all threads, where a timeout takes effect only in states with `C`. -/
inductive Step (C : State → Prop) : State → State → Prop
  /-- `wait`, up to the first `poll`. -/
  | wait (s : State) (timed : Bool) :
      Step C s { s with
        waitCounter := s.waitCounter + 1
        waiters := s.waiters ++ [⟨s.waitCounter + 1, timed, none⟩] }
  | poll {s : State} {pre post : List Waiter} {w : Waiter} (r : Poll) (hs : s.waiters = pre ++ w :: post)
      (hw : w.poll = none) (hr : r.Possible s w) :
      Step C s { s with waiters := pre ++ { w with poll := some r } :: post }
  | return {s : State} {pre post : List Waiter} {w : Waiter} {r : Poll} {signalCounter bytes : Nat}
      (hs : s.waiters = pre ++ w :: post) (hw : w.poll = some r)
      (hr : resume s w.ticket r = .returns signalCounter bytes) (hC : r = .timedOut → C s) :
      Step C s { s with signalCounter := signalCounter, bytes := bytes, waiters := pre ++ post }
  | again {s : State} {pre post : List Waiter} {w : Waiter} {r : Poll} (hs : s.waiters = pre ++ w :: post)
      (hw : w.poll = some r) (hr : ∀ signalCounter bytes, resume s w.ticket r ≠ .returns signalCounter bytes) :
      Step C s { s with waiters := pre ++ { w with poll := none } :: post }
  | notify (s : State) : Step C s (notifyAll s)

inductive Reach (C : State → Prop) : State → Prop
  | start : Reach C .start
  | step {s s' : State} (h : Reach C s) (hstep : Step C s s') : Reach C s'

/-! ## What is claimed of a state -/

/-- The bytes less the suspended threads are the signals less the waits. -/
def Balanced (s : State) : Prop :=
  (s.bytes : Int) - s.waiters.length = (s.signalCounter : Int) - s.waitCounter

/-- A byte for each thread that was suspended at the last `notify_all` and still is. -/
def Supplied (s : State) : Prop := s.waiters.countP (·.ticket ≤ s.notified) ≤ s.bytes

/-- No thread that retakes the mutex now gets to the branch that is marked as unreachable. -/
def FindsByte (s : State) : Prop :=
  ∀ w ∈ s.waiters, ∀ r, w.poll = some r → resume s w.ticket r ≠ .unreachable

/-- With an empty fifo the next signal does not let a thread pass that `poll` has told of data. -/
def Harmless (s : State) : Prop :=
  s.bytes = 0 → ∀ w ∈ s.waiters, w.ticket = s.signalCounter + 1 → w.poll ≠ some .ready

/-! ## The invariant -/

/-- The threads that pass the test of their number. -/
def State.eligible (s : State) : Nat := s.waiters.countP (·.ticket ≤ s.signalCounter)

structure Inv (s : State) : Prop where
  ticket_le : ∀ w ∈ s.waiters, w.ticket ≤ s.waitCounter
  nodup : (s.waiters.map Waiter.ticket).Nodup
  balance : s.bytes + s.waitCounter = s.waiters.length + s.signalCounter
  notified_le : s.notified ≤ s.signalCounter ∧ s.notified ≤ s.waitCounter
  /-- Since a timeout was decided, no byte has arrived without a signal. -/
  timedOut : ∀ w ∈ s.waiters, w.poll = some .timedOut → w.ticket ≤ s.signalCounter ∨ s.bytes = 0
  supplied : s.eligible ≤ s.bytes ∨ (s.bytes = 0 ∧ ∀ w ∈ s.waiters, s.notified < w.ticket)

/-- Where timeouts are harmless, the threads that pass without a byte have not been told of data. -/
def Quiet (s : State) : Prop :=
  s.eligible ≤ s.bytes ∨
    (s.bytes = 0 ∧ ∀ w ∈ s.waiters, w.ticket ≤ s.signalCounter → w.poll ≠ some .ready)

theorem notifyLoop_eq (s : State) : ∀ (n signal bytes : Nat), s.waitCounter = signal + n →
    notifyLoop n { s with signalCounter := signal, bytes := bytes } =
      { s with signalCounter := signal + n, bytes := bytes + n }
  | 0, _, _, _ => rfl
  | n + 1, signal, bytes, h => by
    rw [notifyLoop, if_pos (by dsimp only; omega)]
    refine (notifyLoop_eq s n (signal + 1) (bytes + 1) (by omega)).trans ?_
    rw [Nat.add_assoc, Nat.add_assoc, Nat.add_comm 1 n]

theorem notifyAll_eq (s : State) : notifyAll s = { s with
    signalCounter := s.signalCounter + (s.waitCounter - s.signalCounter)
    bytes := s.bytes + (s.waitCounter - s.signalCounter)
    notified := s.waitCounter } := by
  unfold notifyAll
  rcases Nat.le_total s.signalCounter s.waitCounter with h | h
  · rw [notifyLoop_eq s _ s.signalCounter s.bytes (by omega)]
  · rw [Nat.sub_eq_zero_of_le h]
    rfl

section

variable {s : State} {pre post : List Waiter} {w v : Waiter} {n : Nat}

theorem countP_succ_le {l : List Waiter} (h : (l.map Waiter.ticket).Nodup) (n : Nat) :
    l.countP (·.ticket ≤ n + 1) ≤ l.countP (·.ticket ≤ n) + 1 := by
  have hsplit : l.countP (·.ticket ≤ n + 1) = l.countP (·.ticket ≤ n) + (l.map Waiter.ticket).count (n + 1) := by
    clear h
    induction l with
    | nil => rfl
    | cons w l ih =>
      simp only [List.countP_cons, List.map_cons, List.count_cons, ih, decide_eq_true_eq, beq_iff_eq]
      split_ifs <;> omega
  have hone := List.nodup_iff_count_le_one.mp h (n + 1)
  omega

theorem countP_mid (p : Waiter → Bool) :
    (pre ++ w :: post).countP p = (pre ++ post).countP p + if p w then 1 else 0 := by
  rw [List.countP_append, List.countP_cons, List.countP_append]
  omega

theorem mem_of_mem_erased (h : v ∈ pre ++ post) : v ∈ pre ++ w :: post := by
  rcases List.mem_append.mp h with h | h
  · exact List.mem_append_left _ h
  · exact List.mem_append_right _ (List.mem_cons_of_mem w h)

theorem mem_of_mem_changed {r : Option Poll} (h : v ∈ pre ++ { w with poll := r } :: post) :
    v = { w with poll := r } ∨ v ∈ pre ++ w :: post := by
  rcases List.mem_append.mp h with h | h
  · exact .inr (List.mem_append_left _ h)
  · rcases List.mem_cons.mp h with h | h
    · exact .inl h
    · exact .inr (List.mem_append_right _ (List.mem_cons_of_mem w h))

theorem not_passed_of_empty (h : s.eligible ≤ s.bytes) (hempty : s.bytes = 0) (hw : w ∈ s.waiters) :
    ¬ w.ticket ≤ s.signalCounter := by
  rw [hempty, Nat.le_zero] at h
  intro hle
  exact List.countP_eq_zero.mp h w hw (decide_eq_true hle)

/-! ## The steps keep the invariant -/

theorem Inv.start : Inv .start where
  ticket_le := fun _ h => absurd h List.not_mem_nil
  nodup := List.nodup_nil
  balance := rfl
  notified_le := ⟨Nat.le_refl _, Nat.le_refl _⟩
  timedOut := fun _ h => absurd h List.not_mem_nil
  supplied := .inl (Nat.le_refl _)

theorem Inv.wait (h : Inv s) (timed : Bool) : Inv { s with
    waitCounter := s.waitCounter + 1
    waiters := s.waiters ++ [⟨s.waitCounter + 1, timed, none⟩] } where
  ticket_le := fun w hw => by
    rcases List.mem_append.mp hw with hw | hw
    · exact (h.ticket_le w hw).trans (Nat.le_succ _)
    · rw [List.mem_singleton.mp hw]
  nodup := by
    rw [List.map_append, List.nodup_append]
    refine ⟨h.nodup, List.nodup_singleton _, fun t ht t' ht' heq => ?_⟩
    obtain ⟨w, hw, rfl⟩ := List.mem_map.mp ht
    have hle := h.ticket_le w hw
    rw [List.map_singleton, List.mem_singleton] at ht'
    dsimp only at ht'
    omega
  balance := by
    have hbalance := h.balance
    simp only [List.length_append, List.length_singleton]
    omega
  notified_le := ⟨h.notified_le.1, h.notified_le.2.trans (Nat.le_succ _)⟩
  timedOut := fun w hw hp => by
    rcases List.mem_append.mp hw with hw | hw
    · exact h.timedOut w hw hp
    · rw [List.mem_singleton.mp hw] at hp
      exact nomatch hp
  supplied := by
    have hbalance := h.balance
    have hall : s.eligible ≤ s.waiters.length := List.countP_le_length
    rcases h.supplied with hle | ⟨hempty, hnone⟩
    · refine .inl ?_
      unfold State.eligible at hle hall ⊢
      rw [List.countP_append, List.countP_singleton]
      split_ifs with hnew
      · have hpass : s.waitCounter + 1 ≤ s.signalCounter := of_decide_eq_true hnew
        dsimp only
        omega
      · exact hle
    · refine .inr ⟨hempty, fun w hw => ?_⟩
      rcases List.mem_append.mp hw with hw | hw
      · exact hnone w hw
      · rw [List.mem_singleton.mp hw]
        exact Nat.lt_succ_of_le h.notified_le.2

theorem Inv.setPoll (h : Inv s) (hs : s.waiters = pre ++ w :: post) {r : Option Poll}
    (hr : r = some .timedOut → s.bytes = 0) :
    Inv { s with waiters := pre ++ { w with poll := r } :: post } := by
  have hmap : (pre ++ { w with poll := r } :: post).map Waiter.ticket = s.waiters.map Waiter.ticket := by
    rw [hs, List.map_append, List.map_append, List.map_cons, List.map_cons]
  have hlen : (pre ++ { w with poll := r } :: post).length = s.waiters.length := by
    rw [hs, List.length_append, List.length_append, List.length_cons, List.length_cons]
  have hcount : ∀ k, (pre ++ { w with poll := r } :: post).countP (·.ticket ≤ k) =
      s.waiters.countP (·.ticket ≤ k) := by
    intro k
    rw [hs, countP_mid, countP_mid]
  have hticket : ∀ v ∈ pre ++ { w with poll := r } :: post, ∃ u ∈ s.waiters, u.ticket = v.ticket := by
    intro v hv
    have hmem : v.ticket ∈ s.waiters.map Waiter.ticket := hmap ▸ List.mem_map_of_mem hv
    exact List.mem_map.mp hmem
  refine ⟨fun v hv => ?_, hmap ▸ h.nodup, hlen ▸ h.balance, h.notified_le, fun v hv hp => ?_, ?_⟩
  · obtain ⟨u, hu, heq⟩ := hticket v hv
    exact heq ▸ h.ticket_le u hu
  · rcases mem_of_mem_changed hv with rfl | hv
    · exact .inr (hr hp)
    · exact h.timedOut v (hs ▸ hv) hp
  · rcases h.supplied with hle | ⟨hempty, hnone⟩
    · exact .inl ((hcount s.signalCounter).le.trans hle)
    · refine .inr ⟨hempty, fun v hv => ?_⟩
      obtain ⟨u, hu, heq⟩ := hticket v hv
      exact heq ▸ hnone u hu

theorem nodup_erased (h : Inv s) (hs : s.waiters = pre ++ w :: post) :
    ((pre ++ post).map Waiter.ticket).Nodup := by
  have hnodup := h.nodup
  rw [hs] at hnodup
  exact hnodup.sublist (((List.sublist_cons_self w post).append_left pre).map _)

theorem balance_erased (h : Inv s) (hs : s.waiters = pre ++ w :: post) :
    s.bytes + s.waitCounter = (pre ++ post).length + 1 + s.signalCounter := by
  have hbalance := h.balance
  rw [hs, List.length_append, List.length_cons] at hbalance
  rw [List.length_append]
  omega

theorem eligible_erased (hs : s.waiters = pre ++ w :: post) (hpass : w.ticket ≤ s.signalCounter) :
    s.eligible = (pre ++ post).countP (·.ticket ≤ s.signalCounter) + 1 := by
  unfold State.eligible
  rw [hs, countP_mid, if_pos (decide_eq_true hpass)]

theorem Inv.timeout (h : Inv s) (hs : s.waiters = pre ++ w :: post) (hw : w.poll = some .timedOut) :
    Inv { s with signalCounter := s.signalCounter + 1, waiters := pre ++ post } where
  ticket_le := fun v hv => h.ticket_le v (hs ▸ mem_of_mem_erased hv)
  nodup := nodup_erased h hs
  balance := by
    have hbalance := balance_erased h hs
    dsimp only
    omega
  notified_le := ⟨h.notified_le.1.trans (Nat.le_succ _), h.notified_le.2⟩
  timedOut := fun v hv hp => (h.timedOut v (hs ▸ mem_of_mem_erased hv) hp).imp_left fun hle => hle.trans (Nat.le_succ _)
  supplied := by
    rcases h.supplied with hle | ⟨hempty, hnone⟩
    · by_cases hpass : w.ticket ≤ s.signalCounter
      · refine .inl ?_
        have hnext := countP_succ_le (nodup_erased h hs) s.signalCounter
        rw [eligible_erased hs hpass] at hle
        unfold State.eligible
        dsimp only
        omega
      · -- It has not been signalled, so the fifo is empty and nobody passes.
        have hempty : s.bytes = 0 :=
          (h.timedOut w (hs ▸ List.mem_append_right _ List.mem_cons_self) hw).resolve_left hpass
        refine .inr ⟨hempty, fun v hv => ?_⟩
        have hnot := not_passed_of_empty hle hempty (hs ▸ mem_of_mem_erased hv : v ∈ s.waiters)
        exact h.notified_le.1.trans_lt (Nat.not_le.mp hnot)
    · exact .inr ⟨hempty, fun v hv => hnone v (hs ▸ mem_of_mem_erased hv)⟩

theorem Inv.read (h : Inv s) (hs : s.waiters = pre ++ w :: post) (hpass : w.ticket ≤ s.signalCounter)
    (hbytes : s.bytes ≠ 0) : Inv { s with bytes := s.bytes - 1, waiters := pre ++ post } where
  ticket_le := fun v hv => h.ticket_le v (hs ▸ mem_of_mem_erased hv)
  nodup := nodup_erased h hs
  balance := by
    have hbalance := balance_erased h hs
    dsimp only
    omega
  notified_le := h.notified_le
  timedOut := fun v hv hp => .inl ((h.timedOut v (hs ▸ mem_of_mem_erased hv) hp).resolve_right hbytes)
  supplied := by
    have hle := h.supplied.resolve_right fun hr => hbytes hr.1
    rw [eligible_erased hs hpass] at hle
    refine .inl ?_
    unfold State.eligible
    dsimp only
    omega

theorem Inv.notify (h : Inv s) : Inv (notifyAll s) ∧ (notifyAll s).eligible ≤ (notifyAll s).bytes := by
  rw [notifyAll_eq]
  have hbalance := h.balance
  have hall : s.waiters.countP (·.ticket ≤ s.signalCounter + (s.waitCounter - s.signalCounter)) ≤ s.waiters.length :=
    List.countP_le_length
  have hle : s.waiters.countP (·.ticket ≤ s.signalCounter + (s.waitCounter - s.signalCounter)) ≤
      s.bytes + (s.waitCounter - s.signalCounter) := by omega
  refine ⟨⟨h.ticket_le, h.nodup, by dsimp only; omega, ⟨by dsimp only; omega, Nat.le_refl _⟩,
    fun w hw _ => .inl ?_, .inl hle⟩, hle⟩
  have hticket := h.ticket_le w hw
  dsimp only
  omega

theorem resume_timedOut {signalCounter bytes : Nat} (hr : resume s n .timedOut = .returns signalCounter bytes) :
    signalCounter = s.signalCounter + 1 ∧ bytes = s.bytes := by
  obtain ⟨rfl, rfl⟩ := Resumed.returns.inj hr
  exact ⟨rfl, rfl⟩

theorem resume_ready {signalCounter bytes : Nat} (hr : resume s n .ready = .returns signalCounter bytes) :
    n ≤ s.signalCounter ∧ s.bytes ≠ 0 ∧ signalCounter = s.signalCounter ∧ bytes = s.bytes - 1 := by
  unfold resume at hr
  split_ifs at hr with hticket hbytes
  obtain ⟨rfl, rfl⟩ := Resumed.returns.inj hr
  exact ⟨Nat.not_lt.mp hticket, hbytes, rfl, rfl⟩

end

theorem Inv.step {C : State → Prop} {s s' : State} (h : Inv s) (hstep : Step C s s') : Inv s' := by
  cases hstep with
  | wait timed => exact h.wait timed
  | poll r hs hw hr =>
    refine h.setPoll hs fun heq => ?_
    obtain rfl := Option.some.inj heq
    exact hr.2
  | @«return» pre post w r signalCounter bytes hs hw hr hC =>
    cases r with
    | timedOut =>
      obtain ⟨rfl, rfl⟩ := resume_timedOut hr
      exact h.timeout hs hw
    | interrupted => exact nomatch hr
    | ready =>
      obtain ⟨hpass, hbytes, rfl, rfl⟩ := resume_ready hr
      exact h.read hs hpass hbytes
  | again hs hw hr => exact h.setPoll hs fun heq => nomatch heq
  | notify => exact h.notify.1

/-! ## Threads that find their byte -/

section

variable {C : State → Prop} {s s' : State}

theorem Quiet.not_ready (h : Quiet s) (hempty : s.bytes = 0) :
    ∀ w ∈ s.waiters, w.ticket ≤ s.signalCounter → w.poll ≠ some .ready := by
  rcases h with hle | ⟨-, hnone⟩
  · exact fun w hw hpass => absurd hpass (not_passed_of_empty hle hempty hw)
  · exact hnone

theorem Quiet.setPoll (h : Quiet s) {pre post : List Waiter} {w : Waiter} (hs : s.waiters = pre ++ w :: post)
    {r : Option Poll} (hr : r = some .ready → s.bytes ≠ 0) :
    Quiet { s with waiters := pre ++ { w with poll := r } :: post } := by
  by_cases hempty : s.bytes = 0
  · refine .inr ⟨hempty, fun v hv hpass hready => ?_⟩
    rcases mem_of_mem_changed hv with rfl | hv
    · exact hr hready hempty
    · exact h.not_ready hempty v (hs ▸ hv) hpass hready
  · refine .inl (le_trans (Nat.le_of_eq ?_) (h.resolve_right fun hright => hempty hright.1))
    unfold State.eligible
    rw [hs, countP_mid, countP_mid]

theorem Quiet.step (hC : ∀ s, C s → Harmless s) (hinv : Inv s) (h : Quiet s) (hstep : Step C s s') : Quiet s' := by
  have hinv' := hinv.step hstep
  cases hstep with
  | wait timed =>
    rcases hinv'.supplied with hle | ⟨hempty, -⟩
    · exact .inl hle
    · refine .inr ⟨hempty, fun w hw hpass => ?_⟩
      rcases List.mem_append.mp hw with hw | hw
      · exact h.not_ready hempty w hw hpass
      · rw [List.mem_singleton.mp hw]
        exact nofun
  | poll r hs hw hr =>
    refine h.setPoll hs fun heq => ?_
    obtain rfl := Option.some.inj heq
    exact Nat.pos_iff_ne_zero.mp hr
  | @«return» pre post w r signalCounter bytes hs hw hr htime =>
    cases r with
    | timedOut =>
      obtain ⟨rfl, rfl⟩ := resume_timedOut hr
      rcases hinv'.supplied with hle | ⟨hempty, -⟩
      · exact .inl hle
      · refine .inr ⟨hempty, fun v hv hpass => ?_⟩
        have hmem : v ∈ s.waiters := hs ▸ mem_of_mem_erased hv
        rcases Nat.le_succ_iff.mp hpass with hold | hnew
        · exact h.not_ready hempty v hmem hold
        · exact hC s (htime rfl) hempty v hmem hnew
    | interrupted => exact nomatch hr
    | ready =>
      obtain ⟨hpass, hbytes, rfl, rfl⟩ := resume_ready hr
      have hle := h.resolve_right fun hright => hbytes hright.1
      rw [eligible_erased hs hpass] at hle
      refine .inl ?_
      unfold State.eligible
      dsimp only
      omega
  | again hs hw hr => exact h.setPoll hs fun heq => nomatch heq
  | notify => exact .inl hinv.notify.2

theorem Inv.of_reach (h : Reach C s) : Inv s := by
  induction h with
  | start => exact .start
  | step _ hstep ih => exact ih.step hstep

theorem Quiet.of_reach (hC : ∀ s, C s → Harmless s) (h : Reach C s) : Quiet s := by
  induction h with
  | start => exact .inl (Nat.le_refl _)
  | step hreach hstep ih => exact ih.step hC (Inv.of_reach hreach) hstep

theorem Inv.supplied_notified (h : Inv s) : Supplied s := by
  rcases h.supplied with hle | ⟨-, hnone⟩
  · refine le_trans (List.countP_mono_left fun w _ hw => ?_) hle
    exact decide_eq_true ((of_decide_eq_true hw).trans h.notified_le.1)
  · refine le_trans (Nat.le_of_eq (List.countP_eq_zero.mpr fun w hw hle => ?_)) (Nat.zero_le _)
    exact Nat.not_le.mpr (hnone w hw) (of_decide_eq_true hle)

theorem Quiet.findsByte (h : Quiet s) : FindsByte s := by
  intro w hw r hr hun
  cases r with
  | timedOut => exact nomatch hun
  | interrupted => exact nomatch hun
  | ready =>
    unfold resume at hun
    split_ifs at hun with hticket hbytes
    exact h.not_ready hbytes w hw (Nat.not_lt.mp hticket) hr

end

/-- In every interleaving the counters balance and the threads of the last `notify_all` have their bytes.
A thread that `poll` has told of data finds a byte, if timeouts take effect only where they are
harmless. -/
theorem condvar_spec {C : State → Prop} {s : State} (h : Reach C s) :
    Balanced s ∧ Supplied s ∧ ((∀ s, C s → Harmless s) → FindsByte s) := by
  have hinv := Inv.of_reach h
  refine ⟨?_, hinv.supplied_notified, fun hC => (Quiet.of_reach hC h).findsByte⟩
  have hbalance := hinv.balance
  unfold Balanced
  omega

/-! ## A run to the branch that is marked as unreachable -/

/-- The first thread waits and is notified; a second one arrives and `poll` tells it of the byte of the first. -/
def overtaken (first second : Option Poll) : State := ⟨2, 1, 1, [⟨1, false, first⟩, ⟨2, false, second⟩], 1⟩

theorem overtaken_reach (C : State → Prop) : Reach C (overtaken (some .ready) (some .ready)) := by
  have harrive : Reach C (overtaken none none) :=
    ((Reach.start.step (.wait _ false)).step (.notify _)).step (.wait _ false)
  have hsecond : Reach C (overtaken none (some .ready)) :=
    harrive.step (@Step.poll C _ [⟨1, false, none⟩] [] ⟨2, false, none⟩ .ready rfl rfl Nat.one_pos)
  exact hsecond.step (@Step.poll C _ [] [⟨2, false, some .ready⟩] ⟨1, false, none⟩ .ready rfl rfl Nat.one_pos)

/-- A first thread times out.  Then a thread waits and is notified, and one that arrives later is told of its
byte as well. -/
theorem condvar_spec_overtaken : ∃ s, Reach Harmless s ∧ s.signalCounter = 2 ∧ s.bytes = 1 ∧
    s.waiters = [⟨2, false, some .ready⟩, ⟨3, false, some .ready⟩] ∧ FindsByte s := by
  have hpoll := (Reach.start.step (.wait _ true)).step
    (@Step.poll Harmless _ [] [] ⟨1, true, none⟩ .timedOut rfl rfl ⟨rfl, rfl⟩)
  have htimeout := hpoll.step (@Step.return Harmless _ [] [] ⟨1, true, some .timedOut⟩ .timedOut _ _ rfl rfl rfl
    fun _ _ w hw _ => by
      rw [List.mem_singleton.mp hw]
      decide)
  have harrive := ((htimeout.step (.wait _ false)).step (.notify _)).step (.wait _ false)
  have hlater := harrive.step (@Step.poll Harmless _ [⟨2, false, none⟩] [] ⟨3, false, none⟩ .ready rfl rfl Nat.one_pos)
  have hfirst := hlater.step
    (@Step.poll Harmless _ [] [⟨3, false, some .ready⟩] ⟨2, false, none⟩ .ready rfl rfl Nat.one_pos)
  exact ⟨_, hfirst, rfl, rfl, rfl, (condvar_spec hfirst).2.2 fun _ h => h⟩

/-- The first thread takes the byte.  A third one times out and counts a signal, so that the second one
passes the test of its number with what `poll` has told it before, and the fifo is empty. -/
theorem empty_fifo_is_read : ∃ s, Reach (fun _ => True) s ∧ ¬ FindsByte s := by
  have hthird := (overtaken_reach fun _ => True).step (.wait _ true)
  have hread := hthird.step (@Step.return _ _ [] _ _ .ready _ _ rfl rfl rfl nofun)
  have hpoll := hread.step (@Step.poll _ _ [⟨2, false, some .ready⟩] [] _ .timedOut rfl rfl ⟨rfl, rfl⟩)
  have htimeout := hpoll.step
    (@Step.return _ _ [⟨2, false, some .ready⟩] [] _ .timedOut _ _ rfl rfl rfl fun _ => trivial)
  exact ⟨_, htimeout, fun h => h ⟨2, false, some .ready⟩ (List.mem_singleton.mpr rfl) .ready rfl rfl⟩

/-! ## Threads that have been notified -/

section

variable {s : State} {pre post : List Waiter} {w : Waiter}

/-- A thread that has been signalled and told of data takes a byte. -/
theorem step_ready (hs : s.waiters = pre ++ w :: post) (hw : w.poll = some .ready) (hpass : w.ticket ≤ s.signalCounter)
    (hbytes : 0 < s.bytes) : Step (fun _ => True) s { s with bytes := s.bytes - 1, waiters := pre ++ post } :=
  .return hs hw (by rw [resume, if_neg (Nat.not_lt.mpr hpass), if_neg (Nat.ne_of_gt hbytes)]) fun _ => trivial

theorem returns_of_polling (hs : s.waiters = pre ++ w :: post) (hw : w.poll = none) (hpass : w.ticket ≤ s.signalCounter)
    (hbytes : 0 < s.bytes) :
    Relation.ReflTransGen (Step fun _ => True) s { s with bytes := s.bytes - 1, waiters := pre ++ post } :=
  .tail (.single (.poll .ready hs hw hbytes))
    (step_ready (s := { s with waiters := pre ++ { w with poll := some .ready } :: post }) rfl rfl hpass hbytes)

/-- **No wake-up is lost.**  In every state of every interleaving a thread that was suspended at the last `notify_all`
can return by steps of its own, whatever bytes the others have taken and whatever its last `poll` has told it. -/
theorem notified_returns (h : Reach (fun _ => True) s) (hs : s.waiters = pre ++ w :: post)
    (hw : w.ticket ≤ s.notified) :
    ∃ s', Relation.ReflTransGen (Step fun _ => True) s s' ∧ s'.waiters = pre ++ post ∧
      s'.waitCounter = s.waitCounter ∧ s'.notified = s.notified := by
  have hinv := Inv.of_reach h
  have hpass : w.ticket ≤ s.signalCounter := hw.trans hinv.notified_le.1
  have hbytes : 0 < s.bytes := by
    have hsupplied := hinv.supplied_notified
    rw [Supplied, hs, countP_mid, if_pos (decide_eq_true hw)] at hsupplied
    omega
  cases hpoll : w.poll with
  | none => exact ⟨_, returns_of_polling hs hpoll hpass hbytes, rfl, rfl, rfl⟩
  | some r =>
    cases r with
    | ready => exact ⟨_, .single (step_ready hs hpoll hpass hbytes), rfl, rfl, rfl⟩
    | timedOut => exact ⟨_, .single (.return hs hpoll rfl fun _ => trivial), rfl, rfl, rfl⟩
    | interrupted =>
      exact ⟨_, .head (.again hs hpoll fun _ _ => nofun)
        (returns_of_polling (s := { s with waiters := pre ++ { w with poll := none } :: post }) rfl rfl hpass hbytes),
        rfl, rfl, rfl⟩

end

/-- The thread whose byte a later one has been told of. -/
theorem notified_returns_overtaken : Reach (fun _ => True) (overtaken (some .ready) (some .ready)) ∧
    ∃ s', Relation.ReflTransGen (Step fun _ => True) (overtaken (some .ready) (some .ready)) s' ∧
      s'.waiters = [⟨2, false, some .ready⟩] ∧ s'.waitCounter = 2 ∧ s'.notified = 1 :=
  ⟨overtaken_reach _, @notified_returns _ [] _ ⟨1, false, some .ready⟩ (overtaken_reach _) rfl (by decide)⟩

end Llbt.CondVar
