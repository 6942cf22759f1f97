import Mathlib
import Llbt.Lib.Bytes

/-!
# A file behind a volatile cache

Writes and changes of size go to a cache; a `sync` makes everything issued before it durable.  A
crash keeps what is durable and, of the operations since the last sync, any part: every byte is the
durable one or one that some unsynced write put there, and the size is the durable one or one that
was set since.

* `Device.Crash` — the files a crash can leave; `crash_of_sublist`: applying any subset of the
  unsynced operations in order is one of them;
* `Device.Keeps` — a set of positions that no unsynced write touches; `Keeps.run` and `Keeps.crash`
  say that such positions survive any run of operations that leave them alone, and any crash of it.
-/

set_option autoImplicit false

namespace Storage

open ByteImage

structure Contents where
  bytes : Image
  size : Nat

inductive Op where
  | write (pos : Nat) (bs : List UInt8)
  | resize (size : Nat)
  | sync
  deriving DecidableEq, Repr

/-- The effect of an operation on the contents that readers of the cache see. -/
def Contents.apply (c : Contents) : Op → Contents
  | .write pos bs => { c with bytes := ByteImage.write c.bytes pos bs }
  | .resize size => { c with size := size }
  | .sync => c

/-- A file on a device: what is durable, and the operations since the last sync. -/
structure Device where
  durable : Contents
  pending : List Op

/-- What readers of the cache see. -/
def Device.cached (d : Device) : Contents := d.pending.foldl Contents.apply d.durable

def Device.step (d : Device) : Op → Device
  | .sync => ⟨d.cached, []⟩
  | op => { d with pending := d.pending ++ [op] }

def Device.run (d : Device) (ops : List Op) : Device := ops.foldl Device.step d

/-- The contents a crash can leave. -/
structure Device.Crash (d : Device) (c : Contents) : Prop where
  bytes : ∀ x, c.bytes x = d.durable.bytes x ∨
    ∃ pos bs, Op.write pos bs ∈ d.pending ∧ pos ≤ x ∧ x < pos + bs.length ∧
      c.bytes x = bs.getD (x - pos) 0
  size : c.size = d.durable.size ∨ Op.resize c.size ∈ d.pending

@[simp] theorem Device.run_nil (d : Device) : d.run [] = d := rfl

@[simp] theorem Device.run_cons (d : Device) (op : Op) (ops : List Op) :
    d.run (op :: ops) = (d.step op).run ops := rfl

theorem Device.run_append (d : Device) (a b : List Op) : d.run (a ++ b) = (d.run a).run b :=
  List.foldl_append

theorem Device.cached_step (d : Device) (op : Op) : (d.step op).cached = d.cached.apply op := by
  cases op with
  | sync => rfl
  | write pos bs => simp [Device.step, Device.cached]
  | resize size => simp [Device.step, Device.cached]

theorem Device.cached_run (ops : List Op) (d : Device) :
    (d.run ops).cached = ops.foldl Contents.apply d.cached := by
  induction ops generalizing d with
  | nil => rfl
  | cons op ops ih => rw [Device.run_cons, ih, Device.cached_step, List.foldl_cons]

/-- **Any subset of the unsynced operations may be what reached the device.** -/
theorem Device.crash_of_sublist {d : Device} {ops : List Op} (h : ops.Sublist d.pending) :
    d.Crash (ops.foldl Contents.apply d.durable) := by
  -- from the last operation backwards: it decides the byte, or an earlier one does
  induction ops using List.reverseRecOn with
  | nil => exact ⟨fun _ => .inl rfl, .inl rfl⟩
  | append_singleton ops op ih =>
    obtain ⟨hbytes, hsize⟩ := ih ((List.sublist_append_left ops [op]).trans h)
    have hmem : op ∈ d.pending := h.subset (by simp)
    rw [List.foldl_append, List.foldl_cons, List.foldl_nil]
    cases op with
    | sync => exact ⟨hbytes, hsize⟩
    | resize size => exact ⟨hbytes, .inr hmem⟩
    | write pos bs =>
      refine ⟨fun x => ?_, hsize⟩
      by_cases hx : pos ≤ x ∧ x < pos + bs.length
      · exact .inr ⟨pos, bs, hmem, hx.1, hx.2, write_inside _ hx.1 hx.2⟩
      · have hout : (Contents.apply (ops.foldl Contents.apply d.durable) (.write pos bs)).bytes x =
            (ops.foldl Contents.apply d.durable).bytes x := write_outside _ (by omega)
        rw [hout]
        exact hbytes x

theorem Device.Crash.eq_durable {d : Device} {c : Contents} (h : d.Crash c) (hp : d.pending = []) :
    c = d.durable := by
  obtain ⟨bytes, size⟩ := c
  have hb : bytes = d.durable.bytes := funext fun x => by
    rcases h.bytes x with hx | ⟨pos, bs, hmem, -⟩
    · exact hx
    · rw [hp] at hmem
      cases hmem
  have hs : size = d.durable.size := by
    rcases h.size with hs | hmem
    · exact hs
    · rw [hp] at hmem
      cases hmem
  rw [hb, hs]

/-! ## Positions that stay -/

/-- The operation writes no position of `S` and sets only sizes in `P`. -/
def Op.Spares (S P : Nat → Prop) : Op → Prop
  | .write pos bs => ∀ x, S x → x < pos ∨ pos + bs.length ≤ x
  | .resize size => P size
  | .sync => True

/-- `m` is durable on `S` and no unsynced operation touches it; all sizes are in `P`. -/
structure Keeps (S P : Nat → Prop) (m : Image) (d : Device) : Prop where
  bytes : ∀ x, S x → d.durable.bytes x = m x
  size : P d.durable.size
  pending : ∀ op ∈ d.pending, op.Spares S P

section Keeps

variable {S P : Nat → Prop} {m : Image} {d : Device}

theorem Contents.apply_spares {c : Contents} {op : Op} (hop : op.Spares S P)
    (h : ∀ x, S x → c.bytes x = m x) (hP : P c.size) :
    (∀ x, S x → (c.apply op).bytes x = m x) ∧ P (c.apply op).size := by
  cases op with
  | sync => exact ⟨h, hP⟩
  | resize size => exact ⟨h, hop⟩
  | write pos bs => exact ⟨fun x hx => (write_outside _ (hop x hx)).trans (h x hx), hP⟩

theorem Contents.foldl_spares {ops : List Op} (hops : ∀ op ∈ ops, op.Spares S P) {c : Contents}
    (h : ∀ x, S x → c.bytes x = m x) (hP : P c.size) :
    (∀ x, S x → (ops.foldl Contents.apply c).bytes x = m x) ∧
      P (ops.foldl Contents.apply c).size := by
  induction ops generalizing c with
  | nil => exact ⟨h, hP⟩
  | cons op ops ih =>
    obtain ⟨h', hP'⟩ := Contents.apply_spares (hops op (by simp)) h hP
    exact ih (fun o ho => hops o (by simp [ho])) h' hP'

theorem Keeps.cached (h : Keeps S P m d) :
    (∀ x, S x → d.cached.bytes x = m x) ∧ P d.cached.size :=
  Contents.foldl_spares h.pending h.bytes h.size

theorem Keeps.step (h : Keeps S P m d) {op : Op} (hop : op.Spares S P) :
    Keeps S P m (d.step op) := by
  cases op with
  | sync => exact ⟨h.cached.1, h.cached.2, fun _ hmem => by cases hmem⟩
  | write pos bs =>
    refine ⟨h.bytes, h.size, fun op hmem => ?_⟩
    rcases List.mem_append.mp hmem with hmem | hmem
    · exact h.pending op hmem
    · rw [List.mem_singleton.mp hmem]
      exact hop
  | resize size =>
    refine ⟨h.bytes, h.size, fun op hmem => ?_⟩
    rcases List.mem_append.mp hmem with hmem | hmem
    · exact h.pending op hmem
    · rw [List.mem_singleton.mp hmem]
      exact hop

/-- **Operations that spare the positions keep them.** -/
theorem Keeps.run (h : Keeps S P m d) {ops : List Op} (hops : ∀ op ∈ ops, op.Spares S P) :
    Keeps S P m (d.run ops) := by
  induction ops generalizing d with
  | nil => exact h
  | cons op ops ih =>
    exact ih (h.step (hops op (by simp))) fun o ho => hops o (by simp [ho])

theorem Keeps.crash (h : Keeps S P m d) {c : Contents} (hc : d.Crash c) :
    (∀ x, S x → c.bytes x = m x) ∧ P c.size := by
  refine ⟨fun x hx => ?_, ?_⟩
  · rcases hc.bytes x with hd | ⟨pos, bs, hmem, h1, h2, -⟩
    · exact hd.trans (h.bytes x hx)
    · have hout := h.pending _ hmem x hx
      omega
  · rcases hc.size with hd | hmem
    · rw [hd]
      exact h.size
    · exact h.pending _ hmem

end Keeps

end Storage
