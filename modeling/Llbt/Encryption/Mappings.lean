import Llbt.Encryption.Cryptor

/-!
# Mappings of one encrypted file (`EncryptedFileMapping`)

Every mapping keeps decrypted pages of its own.  Bytes that are written in place become known to the
other mappings with `write_barrier`, which copies them into every mapping that has the page; a page
that a mapping does not have yet is copied from one that has it and is not writing to it, and read from
the file otherwise.

* `PageView`, `Coherent` — what all mappings and the file know about one page, and the invariant;
* `mappings_agree` — as long as no page is read from the file while a mapping holds bytes of it that are
  not in the file, mappings with an up-to-date page agree with everything that was written;
* `stale_page_is_up_to_date` — a page that is dirty and being written again is skipped as a source, and
  the file does not have its bytes yet.
-/

set_option autoImplicit false

namespace Llbt.Encryption

abbrev Page := Nat → UInt8

def zeroPage : Page := fun _ => 0

/-- `PageState`, flag by flag. -/
structure PageState where
  upToDate : Bool := false
  staleIV : Bool := false
  writable : Bool := false
  dirty : Bool := false
  deriving DecidableEq

/-- `EncryptedFileMapping`: state and memory of each page of the file that it covers. -/
structure Mapping where
  firstPage : Nat
  pageCount : Nat
  state : Nat → PageState
  memory : Nat → Page

def Mapping.contains (m : Mapping) (p : Nat) : Bool :=
  decide (m.firstPage ≤ p) && decide (p < m.firstPage + m.pageCount)

def Mapping.setState (m : Mapping) (p : Nat) (st : PageState) : Mapping :=
  { m with state := Function.update m.state p st }

def Mapping.setMemory (m : Mapping) (p : Nat) (bytes : Page) : Mapping :=
  { m with memory := Function.update m.memory p bytes }

theorem Mapping.contains_setState (m : Mapping) (p : Nat) (st : PageState) (q : Nat) :
    (m.setState p st).contains q = m.contains q := rfl

theorem Mapping.contains_setMemory (m : Mapping) (p : Nat) (bytes : Page) (q : Nat) :
    (m.setMemory p bytes).contains q = m.contains q := rfl

variable {ι : Type} [DecidableEq ι] {C : Crypto Page}

/-- `EncryptedFile` with its mappings, in the order in which they were added. -/
structure EncryptedFile (ι : Type) (C : Crypto Page) where
  world : World C
  mappings : List ι
  mapping : ι → Mapping

/-- `size` bytes from `offset` on are copied. -/
def copyBytes (dst src : Page) (offset size : Nat) : Page := fun x =>
  if offset ≤ x ∧ x < offset + size then src x else dst x

namespace EncryptedFile

def setMapping (F : EncryptedFile ι C) (i : ι) (m : Mapping) : EncryptedFile ι C :=
  { F with mapping := Function.update F.mapping i m }

def setCryptor (F : EncryptedFile ι C) (k : Cryptor C) : EncryptedFile ι C :=
  { F with world := { F.world with cryptor := k } }

/-- The page is filled with `bytes`, and up to date. -/
def fillPage (F : EncryptedFile ι C) (i : ι) (p : Nat) (bytes : Page) : EncryptedFile ι C :=
  F.setMapping i (((F.mapping i).setMemory p bytes).setState p
    { (F.mapping i).state p with upToDate := true, staleIV := false })

/-- Whether `copy_up_to_date_page` may copy from mapping `j`. -/
def isSource (F : EncryptedFile ι C) (i : ι) (p : Nat) (j : ι) : Bool :=
  decide (j ≠ i) && (F.mapping j).contains p && !((F.mapping j).state p).writable &&
    ((F.mapping j).state p).upToDate

/-- The mapping that `copy_up_to_date_page` copies from. -/
def source (F : EncryptedFile ι C) (i : ι) (p : Nat) : Option ι := F.mappings.find? (F.isSource i p)

/-- A mapping whose page was possibly stale, after its entry was looked at. -/
def afterIvCheck (changed : Bool) (p : Nat) (m : Mapping) : Mapping :=
  if m.contains p = true ∧ (m.state p).staleIV = true then
    m.setState p { m.state p with staleIV := false, upToDate := (m.state p).upToDate || !changed }
  else m

def checkPossiblyStalePage (F : EncryptedFile ι C) (i : ι) (p : Nat) : EncryptedFile ι C × Bool :=
  if ((F.mapping i).state p).staleIV = false then (F, false)
  else
    let r := F.world.cryptor.refreshIv F.world.disk p
    ({ F.setCryptor r.2 with mapping := fun j => afterIvCheck r.1 p (F.mapping j) }, !r.1)

/-- The bytes that a page has after `AESCryptor::read`; `none` is a decryption error thrown. -/
def pageAfterRead (toModify : Bool) (old : Page) : ReadResult C → Option Page
  | .success bytes => some bytes
  | .staleHmac => some old
  | .failed => none
  | _ => if toModify = true then some old else none

/-- The end of `refresh_page`: the page is read from the file. -/
def readPage (F : EncryptedFile ι C) (i : ι) (p : Nat) (toModify : Bool) : EncryptedFile ι C × Bool :=
  let r := read F.world.disk F.world.cryptor p 0
  match pageAfterRead toModify ((F.mapping i).memory p) r.1 with
  | some bytes => ((F.setCryptor r.2).fillPage i p bytes, true)
  | none => (F.setCryptor r.2, false)

/-- `refresh_page`; `false` stands for an error thrown. -/
def refreshPage (F : EncryptedFile ι C) (i : ι) (p : Nat) (toModify : Bool) : EncryptedFile ι C × Bool :=
  match F.source i p with
  | some j => (F.fillPage i p ((F.mapping j).memory p), true)
  | none =>
    let r := F.checkPossiblyStalePage i p
    if r.2 = true then (r.1, true) else r.1.readPage i p toModify

/-- The first loop of `read_barrier`. -/
def refreshPages (i : ι) (toModify : Bool) : List Nat → EncryptedFile ι C → EncryptedFile ι C × Bool
  | [], F => (F, true)
  | p :: ps, F =>
    if ((F.mapping i).state p).upToDate = true then refreshPages i toModify ps F
    else
      let r := F.refreshPage i p toModify
      if r.2 = true then refreshPages i toModify ps r.1 else r

/-- The second loop of `read_barrier`. -/
def markWritable (i : ι) : List Nat → EncryptedFile ι C → EncryptedFile ι C
  | [], F => F
  | p :: ps, F =>
    markWritable i ps
      (F.setMapping i ((F.mapping i).setState p { (F.mapping i).state p with writable := true }))

/-- `read_barrier` for `count` pages from `first` on. -/
def readBarrier (F : EncryptedFile ι C) (i : ι) (first count : Nat) (toModify : Bool) : EncryptedFile ι C :=
  let r := refreshPages i toModify (List.range' first count) F
  if r.2 = true ∧ toModify = true then markWritable i (List.range' first count) r.1 else r.1

/-- Another mapping when bytes of page `p` are copied out of mapping `src`. -/
def receive (src : Mapping) (p offset size : Nat) (m : Mapping) : Mapping :=
  if m.contains p = false then m
  else if (m.state p).upToDate = true then
    m.setMemory p (copyBytes (m.memory p) (src.memory p) offset size)
  else if (m.state p).staleIV = true then
    (m.setMemory p (src.memory p)).setState p { m.state p with upToDate := true, staleIV := false }
  else m

/-- `write_and_update_all`.  The loop visits every mapping once and changes that mapping only. -/
def writeAndUpdateAll (F : EncryptedFile ι C) (i : ι) (p offset size : Nat) : EncryptedFile ι C :=
  { F with mapping := fun j =>
      if j = i then (F.mapping i).setState p { (F.mapping i).state p with dirty := true, writable := false }
      else receive (F.mapping i) p offset size (F.mapping j) }

/-- The loop of `write_barrier`: page, offset in it and number of bytes; `size` counts from the start
of the page. -/
def pieces (p offset size : Nat) : List (Nat × Nat × Nat) :=
  if size = 0 then []
  else (p, offset, min encryptionPageSize size - offset) ::
    pieces (p + 1) 0 (size - min encryptionPageSize size)
termination_by size
decreasing_by
  have hpos : 0 < encryptionPageSize := by decide
  omega

/-- The loop of `do_flush`; `none` if `AESCryptor::write` finds no IV. -/
def flushPages (i : ι) : List Nat → EncryptedFile ι C → Option (EncryptedFile ι C)
  | [], F => some F
  | p :: ps, F =>
    if ((F.mapping i).state p).dirty = false then flushPages i ps F
    else (F.world.act (.write p ((F.mapping i).memory p))).bind fun W =>
      flushPages i ps ({ F with world := W }.setMapping i
        ((F.mapping i).setState p { (F.mapping i).state p with dirty := false }))

def flush (F : EncryptedFile ι C) (i : ι) : Option (EncryptedFile ι C) :=
  flushPages i (List.range' (F.mapping i).firstPage (F.mapping i).pageCount) F

end EncryptedFile

/-! ## One page -/

/-- What the mappings and the file know about one page; `written` is the plaintext the file had at first
with all bytes written in place so far, and `opened` are the bytes not yet announced by a
`write_barrier`. -/
structure PageView (ι : Type) where
  inside : ι → Bool
  state : ι → PageState
  memory : ι → Page
  disk : Page
  written : Page
  opened : ι → Nat → Bool

/-- No mapping has byte `x` open. -/
def PageView.Quiet (v : PageView ι) (x : Nat) : Prop := ∀ j, v.opened j x = false

structure Coherent (v : PageView ι) : Prop where
  current : ∀ i x, (v.state i).upToDate = true → v.Quiet x → v.memory i x = v.written x
  opened : ∀ i x, v.opened i x = true → (v.state i).writable = true ∧ v.memory i x = v.written x
  single : ∀ i j x, v.opened i x = true → v.opened j x = true → i = j
  writable : ∀ i, (v.state i).writable = true → (v.state i).upToDate = true
  dirty : ∀ i, (v.state i).dirty = true → (v.state i).upToDate = true
  inside : ∀ i, (v.state i).upToDate = true → v.inside i = true
  fresh : ∀ i, (v.state i).staleIV = false
  blank : ∀ i, (v.state i).upToDate = false → v.memory i = zeroPage
  on_disk : (∀ i, (v.state i).dirty = false) → ∀ x, v.Quiet x → v.disk x = v.written x

namespace PageView

/-- Mapping `i` gets the page. -/
def fill (v : PageView ι) (i : ι) (bytes : Page) : PageView ι :=
  { v with
    state := Function.update v.state i { v.state i with upToDate := true, staleIV := false }
    memory := Function.update v.memory i bytes }

def markWritable (v : PageView ι) (i : ι) : PageView ι :=
  { v with state := Function.update v.state i { v.state i with writable := true } }

/-- A byte is written in place. -/
def store (v : PageView ι) (i : ι) (x : Nat) (b : UInt8) : PageView ι :=
  { v with
    memory := Function.update v.memory i (Function.update (v.memory i) x b)
    written := Function.update v.written x b
    opened := Function.update v.opened i (Function.update (v.opened i) x true) }

/-- Bytes are announced; all bytes that the mapping has open in the page are among them. -/
def announce (v : PageView ι) (i : ι) (offset size : Nat) : PageView ι :=
  { v with
    state := Function.update v.state i { v.state i with dirty := true, writable := false }
    memory := fun j =>
      if j ≠ i ∧ (v.state j).upToDate = true then copyBytes (v.memory j) (v.memory i) offset size
      else v.memory j
    opened := Function.update v.opened i fun _ => false }

/-- Mapping `i` writes the page to the file. -/
def flush (v : PageView ι) (i : ι) : PageView ι :=
  { v with
    state := Function.update v.state i { v.state i with dirty := false }
    disk := v.memory i }

end PageView

section Page

variable {v : PageView ι} {i : ι}

omit [DecidableEq ι] in
theorem Coherent.not_opened (h : Coherent v) (hi : (v.state i).upToDate = false) (x : Nat) :
    v.opened i x = false := by
  cases ho : v.opened i x with
  | false => rfl
  | true =>
    have hup := h.writable i (h.opened i x ho).1
    rw [hi] at hup
    exact absurd hup Bool.false_ne_true

omit [DecidableEq ι] in
theorem Coherent.not_dirty (h : Coherent v) (hi : (v.state i).upToDate = false) :
    (v.state i).dirty = false := by
  cases hd : (v.state i).dirty with
  | false => rfl
  | true =>
    have hup := h.dirty i hd
    rw [hi] at hup
    exact absurd hup Bool.false_ne_true

theorem forall_update_state {P : ι → PageState → Prop} {st : PageState} (hi : P i st)
    (hne : ∀ j, P j (v.state j)) (j : ι) : P j (Function.update v.state i st j) := by
  by_cases hj : j = i
  · subst hj
    rw [Function.update_self]
    exact hi
  · rw [Function.update_of_ne hj]
    exact hne j

/-- **A page is filled** with bytes that agree with what was written. -/
theorem Coherent.fill (h : Coherent v) (hi : (v.state i).upToDate = false) (hin : v.inside i = true)
    {bytes : Page} (hbytes : ∀ x, v.Quiet x → bytes x = v.written x) : Coherent (v.fill i bytes) := by
  refine ⟨fun j x hup hq => ?_, fun j x ho => ?_, h.single, ?_, ?_, ?_, ?_, fun j hup => ?_, fun hd x hq => ?_⟩
  · simp only [PageView.fill, Function.update_apply] at hup ⊢
    split
    · exact hbytes x hq
    · rename_i hj
      rw [if_neg hj] at hup
      exact h.current j x hup hq
  · have hj : j ≠ i := by
      intro he
      subst he
      exact absurd (ho.symm.trans (h.not_opened hi x)) (Bool.false_ne_true ·.symm)
    simp only [PageView.fill, Function.update_apply, if_neg hj]
    exact h.opened j x ho
  · exact forall_update_state (P := fun _ st => st.writable = true → st.upToDate = true) (fun _ => rfl)
      h.writable
  · exact forall_update_state (P := fun _ st => st.dirty = true → st.upToDate = true) (fun _ => rfl) h.dirty
  · exact forall_update_state (P := fun j st => st.upToDate = true → v.inside j = true) (fun _ => hin)
      h.inside
  · exact forall_update_state (P := fun _ st => st.staleIV = false) rfl h.fresh
  · simp only [PageView.fill, Function.update_apply] at hup ⊢
    split
    · rename_i hj
      rw [if_pos hj] at hup
      exact absurd hup (Bool.false_ne_true ·.symm)
    · rename_i hj
      rw [if_neg hj] at hup
      exact h.blank j hup
  · refine h.on_disk (fun j => ?_) x hq
    by_cases hj : j = i
    · rw [hj]
      exact h.not_dirty hi
    · have hdj := hd j
      simp only [PageView.fill, Function.update_apply, if_neg hj] at hdj
      exact hdj

/-- **The state of one mapping changes**, and perhaps the file; whether the page is up to date stays. -/
theorem Coherent.setState (h : Coherent v) {st : PageState} {disk : Page}
    (hup : st.upToDate = (v.state i).upToDate) (hfresh : st.staleIV = false)
    (hkept : st.writable = true ∨ st.dirty = true → st.upToDate = true)
    (hopened : ∀ x, v.opened i x = true → st.writable = true)
    (hdisk : (∀ j, (Function.update v.state i st j).dirty = false) → ∀ x, v.Quiet x → disk x = v.written x) :
    Coherent { v with state := Function.update v.state i st, disk := disk } := by
  have hups : ∀ j, (Function.update v.state i st j).upToDate = (v.state j).upToDate :=
    forall_update_state (P := fun j st => st.upToDate = (v.state j).upToDate) hup fun _ => rfl
  refine ⟨fun j x hj => ?_, fun j x ho => ⟨?_, (h.opened j x ho).2⟩, h.single, ?_, ?_, fun j hj => ?_, ?_,
    fun j hj => ?_, hdisk⟩
  · exact h.current j x ((hups j).symm.trans hj)
  · exact forall_update_state (P := fun j st => v.opened j x = true → st.writable = true) (hopened x)
      (fun j ho => (h.opened j x ho).1) j ho
  · exact forall_update_state (P := fun _ st => st.writable = true → st.upToDate = true) (hkept ∘ Or.inl) h.writable
  · exact forall_update_state (P := fun _ st => st.dirty = true → st.upToDate = true) (hkept ∘ Or.inr) h.dirty
  · exact h.inside j ((hups j).symm.trans hj)
  · exact forall_update_state (P := fun _ st => st.staleIV = false) hfresh h.fresh
  · exact h.blank j ((hups j).symm.trans hj)

theorem Coherent.markWritable (h : Coherent v) (hi : (v.state i).upToDate = true) :
    Coherent (v.markWritable i) := by
  have hdirty : ∀ j, ((v.markWritable i).state j).dirty = (v.state j).dirty :=
    forall_update_state (P := fun j st => st.dirty = (v.state j).dirty) rfl fun _ => rfl
  exact h.setState rfl (h.fresh i) (fun _ => hi) (fun _ _ => rfl) fun hd =>
    h.on_disk fun j => (hdirty j).symm.trans (hd j)

/-- **A byte is written in place**, in a page that is open and where no other mapping has it open. -/
theorem Coherent.store (h : Coherent v) (hi : (v.state i).writable = true) {x : Nat}
    (hx : ∀ j, j ≠ i → v.opened j x = false) (b : UInt8) : Coherent (v.store i x b) := by
  have hquiet : ∀ y, (v.store i x b).Quiet y → y ≠ x ∧ v.Quiet y := by
    intro y hq
    have hy : y ≠ x := by
      intro he
      subst he
      have hself := hq i
      simp only [PageView.store, Function.update_self] at hself
      exact absurd hself (Bool.false_ne_true ·.symm)
    refine ⟨hy, fun j => ?_⟩
    have hj := hq j
    simp only [PageView.store, Function.update_apply] at hj
    split at hj
    · rename_i he
      rw [Function.update_of_ne hy] at hj
      rw [he]
      exact hj
    · exact hj
  have hmemory : ∀ j y, y ≠ x → (v.store i x b).memory j y = v.memory j y := by
    intro j y hy
    simp only [PageView.store, Function.update_apply]
    split
    · rename_i he
      rw [Function.update_of_ne hy, he]
    · rfl
  have hwritten : ∀ y, y ≠ x → (v.store i x b).written y = v.written y := fun y hy =>
    Function.update_of_ne hy _ _
  have hopened : ∀ j y, (v.store i x b).opened j y = true → (j = i ∧ y = x) ∨ (y ≠ x ∧ v.opened j y = true) := by
    intro j y ho
    simp only [PageView.store, Function.update_apply] at ho
    by_cases hj : j = i
    · subst hj
      rw [if_pos rfl] at ho
      by_cases hy : y = x
      · exact Or.inl ⟨rfl, hy⟩
      · rw [Function.update_of_ne hy] at ho
        exact Or.inr ⟨hy, ho⟩
    · rw [if_neg hj] at ho
      refine Or.inr ⟨fun hy => ?_, ho⟩
      rw [hy, hx j hj] at ho
      exact absurd ho Bool.false_ne_true
  refine ⟨fun j y hup hq => ?_, fun j y ho => ?_, fun j k y hj hk => ?_, h.writable, h.dirty, h.inside, h.fresh,
    fun j hup => ?_, fun hd y hq => ?_⟩
  · obtain ⟨hy, hq'⟩ := hquiet y hq
    rw [hmemory j y hy, hwritten y hy]
    exact h.current j y hup hq'
  · rcases hopened j y ho with ⟨rfl, rfl⟩ | ⟨hy, ho'⟩
    · refine ⟨hi, ?_⟩
      simp only [PageView.store, Function.update_self]
    · rw [hmemory j y hy, hwritten y hy]
      exact h.opened j y ho'
  · rcases hopened j y hj with ⟨rfl, rfl⟩ | ⟨hy, hj'⟩
    · rcases hopened k y hk with ⟨rfl, -⟩ | ⟨hy, -⟩
      · rfl
      · exact absurd rfl hy
    · rcases hopened k y hk with ⟨-, rfl⟩ | ⟨-, hk'⟩
      · exact absurd rfl hy
      · exact h.single j k y hj' hk'
  · have hj : j ≠ i := by
      intro he
      subst he
      exact absurd ((h.writable j hi).symm.trans hup) (Bool.false_ne_true ·.symm)
    have hmem : (v.store i x b).memory j = v.memory j := Function.update_of_ne hj _ _
    rw [hmem]
    exact h.blank j hup
  · obtain ⟨hy, hq'⟩ := hquiet y hq
    rw [hwritten y hy]
    exact h.on_disk hd y hq'

/-- **Bytes are announced**: all bytes that the mapping has open, and none that another one has. -/
theorem Coherent.announce (h : Coherent v) (hi : (v.state i).writable = true) {offset size : Nat}
    (hcover : ∀ x, v.opened i x = true → offset ≤ x ∧ x < offset + size)
    (hothers : ∀ j, j ≠ i → ∀ x, offset ≤ x → x < offset + size → v.opened j x = false) :
    Coherent (v.announce i offset size) := by
  have hiup := h.writable i hi
  have hup : ∀ j, ((v.announce i offset size).state j).upToDate = (v.state j).upToDate :=
    forall_update_state (P := fun j st => st.upToDate = (v.state j).upToDate) rfl fun _ => rfl
  have hopened : ∀ j x, (v.announce i offset size).opened j x = true → j ≠ i ∧ v.opened j x = true := by
    intro j x ho
    simp only [PageView.announce, Function.update_apply] at ho
    split at ho
    · exact absurd ho Bool.false_ne_true
    · rename_i hj
      exact ⟨hj, ho⟩
  have hself : ∀ x, (v.announce i offset size).Quiet x → v.memory i x = v.written x := by
    intro x hq
    cases ho : v.opened i x with
    | true => exact (h.opened i x ho).2
    | false =>
      refine h.current i x hiup fun j => ?_
      by_cases hj : j = i
      · rw [hj]
        exact ho
      · have hqj := hq j
        simp only [PageView.announce, Function.update_apply, if_neg hj] at hqj
        exact hqj
  refine ⟨fun j x hj hq => ?_, fun j x ho => ?_, fun j k x hj hk => ?_, ?_, ?_, fun j hj => ?_, ?_,
    fun j hj => ?_, fun hd => ?_⟩
  · rw [hup] at hj
    simp only [PageView.announce]
    split
    · rename_i hne
      unfold copyBytes
      split
      · exact hself x hq
      · rename_i hout
        refine h.current j x hj fun k => ?_
        by_cases hk : k = i
        · subst hk
          cases ho : v.opened k x with
          | false => rfl
          | true => exact absurd (hcover x ho) hout
        · have hqk := hq k
          simp only [PageView.announce, Function.update_apply, if_neg hk] at hqk
          exact hqk
    · rename_i hne
      have hji : j = i := not_not.mp fun hji => hne ⟨hji, hj⟩
      rw [hji]
      exact hself x hq
  · obtain ⟨hj, ho'⟩ := hopened j x ho
    obtain ⟨hw, hmem⟩ := h.opened j x ho'
    have hout : ¬ (offset ≤ x ∧ x < offset + size) := fun hin =>
      absurd (ho'.symm.trans (hothers j hj x hin.1 hin.2)) (Bool.false_ne_true ·.symm)
    constructor
    · simp only [PageView.announce, Function.update_apply, if_neg hj]
      exact hw
    · simp only [PageView.announce, if_pos (And.intro hj (h.writable j hw))]
      unfold copyBytes
      rw [if_neg hout]
      exact hmem
  · exact h.single j k x (hopened j x hj).2 (hopened k x hk).2
  · exact forall_update_state (P := fun _ st => st.writable = true → st.upToDate = true)
      (fun hf => absurd hf Bool.false_ne_true) h.writable
  · exact forall_update_state (P := fun _ st => st.dirty = true → st.upToDate = true) (fun _ => hiup) h.dirty
  · rw [hup] at hj
    exact h.inside j hj
  · exact forall_update_state (P := fun _ st => st.staleIV = false) (h.fresh i) h.fresh
  · rw [hup] at hj
    simp only [PageView.announce]
    rw [if_neg fun hf => Bool.false_ne_true (hj.symm.trans hf.2)]
    exact h.blank j hj
  · have hdi := hd i
    simp only [PageView.announce, Function.update_self] at hdi
    exact absurd hdi (Bool.false_ne_true ·.symm)

theorem Coherent.flush (h : Coherent v) (hi : (v.state i).dirty = true) : Coherent (v.flush i) :=
  h.setState rfl (h.fresh i) (fun _ => h.dirty i hi) (fun x ho => (h.opened i x ho).1)
    fun _ x hq => h.current i x (h.dirty i hi) hq

end Page

/-! ## The file and its mappings -/

/-- What the mappings and the file know about page `p`. -/
def EncryptedFile.view (F : EncryptedFile ι C) (written : Nat → Page) (opened : ι → Nat → Nat → Bool) (p : Nat) :
    PageView ι where
  inside := fun j => (F.mapping j).contains p
  state := fun j => (F.mapping j).state p
  memory := fun j => (F.mapping j).memory p
  disk := (F.world.last p).getD zeroPage
  written := written p
  opened := fun j => opened j p

section Views

variable {F : EncryptedFile ι C} {written : Nat → Page} {opened : ι → Nat → Nat → Bool} {i : ι} {p q : Nat}

theorem update_page_self {β : Type} (f : ι → Nat → β) (i : ι) (p : Nat) (b : β) :
    (fun j => Function.update f i (Function.update (f i) p b) j p) = Function.update (fun j => f j p) i b := by
  funext j
  refine (Function.apply_update (fun _ g => g p) f i _ j).trans ?_
  simp only [Function.update_self]

theorem update_page_ne {β : Type} (f : ι → Nat → β) (i : ι) (b : β) (hq : q ≠ p) :
    (fun j => Function.update f i (Function.update (f i) p b) j q) = fun j => f j q := by
  funext j
  refine (Function.apply_update (fun _ g => g q) f i _ j).trans ?_
  simp only [Function.update_of_ne hq, Function.update_eq_self]

theorem view_setMapping (m : Mapping) :
    (F.setMapping i m).view written opened q =
      { F.view written opened q with
        inside := Function.update (F.view written opened q).inside i (m.contains q)
        state := Function.update (F.view written opened q).state i (m.state q)
        memory := Function.update (F.view written opened q).memory i (m.memory q) } := by
  unfold EncryptedFile.view EncryptedFile.setMapping
  congr 1
  · exact funext (Function.apply_update (fun _ m => m.contains q) F.mapping i m)
  · exact funext (Function.apply_update (fun _ m => m.state q) F.mapping i m)
  · exact funext (Function.apply_update (fun _ m => m.memory q) F.mapping i m)

theorem view_setMapping_of_eq {m : Mapping} (hin : m.contains q = (F.mapping i).contains q)
    (hstate : m.state q = (F.mapping i).state q) (hmemory : m.memory q = (F.mapping i).memory q) :
    (F.setMapping i m).view written opened q = F.view written opened q := by
  rw [view_setMapping, hin, hstate, hmemory]
  simp [EncryptedFile.view]

theorem contains_setMapping {m : Mapping} (hm : ∀ q, m.contains q = (F.mapping i).contains q) (j : ι) (q : Nat) :
    ((F.setMapping i m).mapping j).contains q = (F.mapping j).contains q := by
  refine (Function.apply_update (fun _ m => m.contains q) F.mapping i m j).trans ?_
  simp only [hm, Function.update_eq_self]

theorem view_setState_self (st : PageState) :
    (F.setMapping i ((F.mapping i).setState p st)).view written opened p =
      { F.view written opened p with
        state := Function.update (F.view written opened p).state i st } := by
  rw [view_setMapping, Mapping.contains_setState]
  simp [EncryptedFile.view, Mapping.setState]

theorem view_setState_ne (st : PageState) (hq : q ≠ p) :
    (F.setMapping i ((F.mapping i).setState p st)).view written opened q = F.view written opened q :=
  view_setMapping_of_eq rfl (Function.update_of_ne hq _ _) rfl

theorem view_setMemory_self (bytes : Page) :
    (F.setMapping i ((F.mapping i).setMemory p bytes)).view written opened p =
      { F.view written opened p with
        memory := Function.update (F.view written opened p).memory i bytes } := by
  rw [view_setMapping, Mapping.contains_setMemory]
  simp [EncryptedFile.view, Mapping.setMemory]

theorem view_setMemory_ne (bytes : Page) (hq : q ≠ p) :
    (F.setMapping i ((F.mapping i).setMemory p bytes)).view written opened q = F.view written opened q :=
  view_setMapping_of_eq rfl rfl (Function.update_of_ne hq _ _)

theorem view_fillPage_self (bytes : Page) :
    (F.fillPage i p bytes).view written opened p = (F.view written opened p).fill i bytes := by
  unfold EncryptedFile.fillPage
  rw [view_setMapping, Mapping.contains_setState, Mapping.contains_setMemory]
  simp [EncryptedFile.view, PageView.fill, Mapping.setState, Mapping.setMemory]

theorem view_fillPage_ne (bytes : Page) (hq : q ≠ p) :
    (F.fillPage i p bytes).view written opened q = F.view written opened q :=
  view_setMapping_of_eq rfl (Function.update_of_ne hq _ _) (Function.update_of_ne hq _ _)

end Views

/-- The file with what was written so far, page by page, and the bytes that are open. -/
structure State (ι : Type) (C : Crypto Page) where
  file : EncryptedFile ι C
  written : Nat → Page
  opened : ι → Nat → Nat → Bool

namespace State

def view (S : State ι C) (p : Nat) : PageView ι := S.file.view S.written S.opened p

/-- The state of page `p` in mapping `i`. -/
def flags (S : State ι C) (i : ι) (p : Nat) : PageState := (S.file.mapping i).state p

/-- The invariant: the entries of the file are known, and every page is coherent. -/
structure Inv (S : State ι C) : Prop where
  known : ∀ p, Known S.file.world p
  page : ∀ p, Coherent (S.view p)

/-- What a step on the pages `ps` leaves. -/
structure Keeps (S S' : State ι C) (ps : List Nat) : Prop where
  inv : S'.Inv
  others : ∀ q, q ∉ ps → S'.view q = S.view q
  mappings : S'.file.mappings = S.file.mappings
  contains : ∀ j q, (S'.file.mapping j).contains q = (S.file.mapping j).contains q

variable {S S' S'' : State ι C} {ps qs : List Nat} {i : ι} {p q : Nat}

omit [DecidableEq ι] in
theorem Keeps.refl (h : S.Inv) : Keeps S S [] := ⟨h, fun _ _ => rfl, rfl, fun _ _ => rfl⟩

omit [DecidableEq ι] in
theorem Keeps.trans (h : Keeps S S' ps) (h' : Keeps S' S'' qs) : Keeps S S'' (ps ++ qs) := by
  refine ⟨h'.inv, fun q hq => ?_, h'.mappings.trans h.mappings, fun j q =>
    (h'.contains j q).trans (h.contains j q)⟩
  obtain ⟨hps, hqs⟩ := List.mem_append.not.trans not_or |>.mp hq
  exact (h'.others q hqs).trans (h.others q hps)

omit [DecidableEq ι] in
theorem Keeps.of_page (h : S.Inv) (hknown : ∀ q, Known S'.file.world q) (hp : Coherent (S'.view p))
    (hne : ∀ q, q ≠ p → S'.view q = S.view q) (hmappings : S'.file.mappings = S.file.mappings)
    (hcontains : ∀ j q, (S'.file.mapping j).contains q = (S.file.mapping j).contains q) : Keeps S S' [p] := by
  refine ⟨⟨hknown, fun q => ?_⟩, fun q hq => hne q fun he => hq (List.mem_singleton.mpr he), hmappings, hcontains⟩
  by_cases hq : q = p
  · rw [hq]
    exact hp
  · rw [hne q hq]
    exact h.page q

omit [DecidableEq ι] in
theorem Keeps.flags (h : Keeps S S' ps) (hq : q ∉ ps) (j : ι) : S'.flags j q = S.flags j q :=
  congrFun (congrArg PageView.state (h.others q hq)) j

/-! ### `read_barrier` -/

theorem Inv.fillPage (h : S.Inv) (hi : (S.flags i p).upToDate = false)
    (hin : (S.file.mapping i).contains p = true) {bytes : Page}
    (hbytes : ∀ x, (S.view p).Quiet x → bytes x = S.written p x) :
    Keeps S { S with file := S.file.fillPage i p bytes } [p] := by
  refine Keeps.of_page h h.known ?_ (fun q hq => view_fillPage_ne bytes hq) rfl (contains_setMapping fun _ => rfl)
  unfold view
  rw [view_fillPage_self]
  exact (h.page p).fill hi hin hbytes

theorem upToDate_fillPage (bytes : Page) :
    (flags { S with file := S.file.fillPage i p bytes } i p).upToDate = true := by
  unfold flags EncryptedFile.fillPage EncryptedFile.setMapping Mapping.setState
  simp only [Function.update_self]

/-- The condition under which a page is refreshed: if no mapping can be copied from, then none holds
bytes of the page that the file does not have. -/
def FileIsCurrent (S : State ι C) (i : ι) (p : Nat) : Prop :=
  S.file.source i p = none → ∀ j, (S.flags j p).dirty = false

theorem Keeps.fileIsCurrent (h : Keeps S S' ps) (hq : q ∉ ps) (hcur : S.FileIsCurrent i q) :
    S'.FileIsCurrent i q := by
  intro hsource j
  rw [h.flags hq]
  refine hcur ?_ j
  unfold EncryptedFile.source at hsource ⊢
  rw [← h.mappings, ← hsource]
  congr 1
  funext k
  have hflags : (S'.file.mapping k).state q = (S.file.mapping k).state q := h.flags hq k
  unfold EncryptedFile.isSource
  rw [h.contains, hflags]

end State

theorem pageAfterRead_not_success {toModify : Bool} {old bytes : Page} {r : ReadResult C}
    (hnot : ∀ w, r ≠ .success w) (h : EncryptedFile.pageAfterRead toModify old r = some bytes) : bytes = old := by
  cases r with
  | success w => exact absurd rfl (hnot w)
  | failed => cases h
  | staleHmac => exact (Option.some.inj h).symm
  | uninitialized | eof | interruptedFirstWrite =>
    simp only [EncryptedFile.pageAfterRead, Option.ite_none_right_eq_some, Option.some.injEq] at h
    exact h.2.symm

namespace State

variable {S S' S'' : State ι C} {ps qs : List Nat} {i : ι} {p q : Nat}

omit [DecidableEq ι] in
theorem Inv.pageAfterRead_eq (h : S.Inv) (hi : (S.flags i p).upToDate = false) {toModify : Bool} {bytes : Page}
    (hread : EncryptedFile.pageAfterRead toModify ((S.file.mapping i).memory p)
      (read S.file.world.disk S.file.world.cryptor p 0).1 = some bytes) :
    bytes = (S.file.world.last p).getD zeroPage := by
  have hknown := h.known p
  unfold Known at hknown
  cases hlast : S.file.world.last p with
  | some w =>
    rw [hlast] at hknown
    rw [PageInv.read_eq hknown 0] at hread
    exact (Option.some.inj hread).symm
  | none =>
    rw [hlast] at hknown
    have hblank : (S.file.mapping i).memory p = zeroPage := (h.page p).blank i hi
    rw [pageAfterRead_not_success (attemptRead_blank hknown false) hread, hblank]
    rfl

omit [DecidableEq ι] in
theorem Inv.setCryptor (h : S.Inv) (p n : Nat) :
    Inv { S with file := S.file.setCryptor (read S.file.world.disk S.file.world.cryptor p n).2 } :=
  ⟨fun q => (h.known q).read p n, h.page⟩

theorem Inv.refreshPage (h : S.Inv) (hin : (S.file.mapping i).contains p = true)
    (hi : (S.flags i p).upToDate = false) (hcur : S.FileIsCurrent i p) (toModify : Bool) :
    Keeps S { S with file := (S.file.refreshPage i p toModify).1 } [p] ∧
      ((S.file.refreshPage i p toModify).2 = true →
        (flags { S with file := (S.file.refreshPage i p toModify).1 } i p).upToDate = true) := by
  unfold EncryptedFile.refreshPage
  cases hsource : S.file.source i p with
  | some j =>
    dsimp only
    have hj : S.file.isSource i p j = true := List.find?_some hsource
    unfold EncryptedFile.isSource at hj
    simp only [Bool.and_eq_true] at hj
    exact ⟨h.fillPage hi hin fun x hx => (h.page p).current j x hj.2 hx, fun _ => upToDate_fillPage _⟩
  | none =>
    have hstale : ((S.file.mapping i).state p).staleIV = false := (h.page p).fresh i
    have hcheck : S.file.checkPossiblyStalePage i p = (S.file, false) := if_pos hstale
    dsimp only
    rw [hcheck, if_neg Bool.false_ne_true]
    unfold EncryptedFile.readPage
    dsimp only
    have hkept := h.setCryptor p 0
    cases hread : EncryptedFile.pageAfterRead toModify ((S.file.mapping i).memory p)
        (read S.file.world.disk S.file.world.cryptor p 0).1 with
    | some bytes =>
      dsimp only
      refine ⟨?_, fun _ => upToDate_fillPage _⟩
      have hbytes := h.pageAfterRead_eq hi hread
      have hquiet : ∀ x, (S.view p).Quiet x → bytes x = S.written p x := fun x hx => by
        rw [hbytes]
        exact (h.page p).on_disk (hcur hsource) x hx
      have hfill := hkept.fillPage (i := i) hi hin hquiet
      exact ⟨hfill.inv, hfill.others, hfill.mappings, hfill.contains⟩
    | none =>
      dsimp only
      exact ⟨⟨hkept, fun _ _ => rfl, rfl, fun _ _ => rfl⟩, fun hf => absurd hf Bool.false_ne_true⟩

/-- **The first loop of `read_barrier`**, over pages that differ. -/
theorem Inv.refreshPages (toModify : Bool) : ∀ (ps : List Nat) {S : State ι C}, S.Inv → ps.Nodup →
    (∀ p ∈ ps, (S.file.mapping i).contains p = true) →
    (∀ p ∈ ps, (S.flags i p).upToDate = false → S.FileIsCurrent i p) →
    Keeps S { S with file := (EncryptedFile.refreshPages i toModify ps S.file).1 } ps ∧
      ((EncryptedFile.refreshPages i toModify ps S.file).2 = true →
        ∀ p ∈ ps, (flags { S with file := (EncryptedFile.refreshPages i toModify ps S.file).1 } i p).upToDate = true)
  | [], S, h, _, _, _ => ⟨Keeps.refl h, fun _ _ hp => absurd hp List.not_mem_nil⟩
  | p :: ps, S, h, hnodup, hin, hcur => by
    obtain ⟨hp, hnodup'⟩ := List.nodup_cons.mp hnodup
    unfold EncryptedFile.refreshPages
    split
    · rename_i hup
      obtain ⟨hkeeps, hall⟩ := Inv.refreshPages toModify ps h hnodup'
        (fun q hq => hin q (List.mem_cons_of_mem p hq)) fun q hq => hcur q (List.mem_cons_of_mem p hq)
      refine ⟨⟨hkeeps.inv, fun q hq => hkeeps.others q fun hm => hq (List.mem_cons_of_mem p hm), hkeeps.mappings,
        hkeeps.contains⟩, fun hok q hq => ?_⟩
      rcases List.mem_cons.mp hq with rfl | hq
      · rw [hkeeps.flags hp]
        exact hup
      · exact hall hok q hq
    · rename_i hup
      obtain ⟨hfirst, hdone⟩ := h.refreshPage (hin p List.mem_cons_self) (Bool.not_eq_true _ ▸ hup)
        (hcur p List.mem_cons_self (Bool.not_eq_true _ ▸ hup)) toModify
      dsimp only
      split
      · rename_i hok
        have hne : ∀ q ∈ ps, q ∉ [p] := fun q hq he => hp (List.mem_singleton.mp he ▸ hq)
        obtain ⟨hkeeps, hall⟩ := Inv.refreshPages toModify ps hfirst.inv hnodup'
          (fun q hq => (hfirst.contains i q).trans (hin q (List.mem_cons_of_mem p hq)))
          fun q hq hold => hfirst.fileIsCurrent (hne q hq)
            (hcur q (List.mem_cons_of_mem p hq) (hfirst.flags (hne q hq) i ▸ hold))
        refine ⟨hfirst.trans hkeeps, fun hok' q hq => ?_⟩
        rcases List.mem_cons.mp hq with rfl | hq
        · rw [hkeeps.flags hp]
          exact hdone hok
        · exact hall hok' q hq
      · rename_i hok
        refine ⟨⟨hfirst.inv, fun q hq => hfirst.others q fun hm => hq ?_, hfirst.mappings, hfirst.contains⟩,
          fun hf => absurd hf hok⟩
        rw [List.mem_singleton.mp hm]
        exact List.mem_cons_self

theorem Inv.markWritable : ∀ (ps : List Nat) {S : State ι C}, S.Inv → (∀ p ∈ ps, (S.flags i p).upToDate = true) →
    Inv { S with file := EncryptedFile.markWritable i ps S.file }
  | [], _, h, _ => h
  | p :: ps, S, h, hup => by
    unfold EncryptedFile.markWritable
    have hfirst : Keeps S
        { S with
          file := S.file.setMapping i
            ((S.file.mapping i).setState p { (S.file.mapping i).state p with writable := true }) } [p] := by
      refine Keeps.of_page h h.known ?_ (fun q hq => view_setState_ne _ hq) rfl (contains_setMapping fun _ => rfl)
      unfold view
      rw [view_setState_self]
      exact (h.page p).markWritable (hup p List.mem_cons_self)
    refine Inv.markWritable ps hfirst.inv fun q hq => ?_
    by_cases hqp : q = p
    · subst hqp
      unfold flags EncryptedFile.setMapping Mapping.setState
      simp only [Function.update_self]
      exact hup q List.mem_cons_self
    · rw [hfirst.flags fun hm => hqp (List.mem_singleton.mp hm)]
      exact hup q (List.mem_cons_of_mem p hq)

theorem Inv.readBarrier (h : S.Inv) {first count : Nat} (toModify : Bool)
    (hin : ∀ p ∈ List.range' first count, (S.file.mapping i).contains p = true)
    (hcur : ∀ p ∈ List.range' first count, (S.flags i p).upToDate = false → S.FileIsCurrent i p) :
    Inv { S with file := S.file.readBarrier i first count toModify } := by
  obtain ⟨hkeeps, hall⟩ := Inv.refreshPages toModify _ h List.nodup_range' hin hcur
  unfold EncryptedFile.readBarrier
  dsimp only
  split
  · rename_i hok
    exact Inv.markWritable _ hkeeps.inv (hall hok.1)
  · exact hkeeps.inv

/-! ### Writing in place and `write_barrier` -/

/-- Byte `x` of page `p` is written in place. -/
def store (S : State ι C) (i : ι) (p x : Nat) (b : UInt8) : State ι C where
  file := S.file.setMapping i ((S.file.mapping i).setMemory p (Function.update ((S.file.mapping i).memory p) x b))
  written := Function.update S.written p (Function.update (S.written p) x b)
  opened := Function.update S.opened i (Function.update (S.opened i) p (Function.update (S.opened i p) x true))

/-- `write_and_update_all` for a piece: the bytes of the page are no longer open. -/
def announce (S : State ι C) (i : ι) (piece : Nat × Nat × Nat) : State ι C :=
  { S with
    file := S.file.writeAndUpdateAll i piece.1 piece.2.1 piece.2.2
    opened := Function.update S.opened i (Function.update (S.opened i) piece.1 fun _ => false) }

/-- `write_barrier`, piece by piece. -/
def writeBarrier (S : State ι C) (i : ι) (addr size : Nat) : State ι C :=
  (EncryptedFile.pieces (addr / encryptionPageSize) (addr % encryptionPageSize)
    (size + addr % encryptionPageSize)).foldl (fun S piece => S.announce i piece) S

theorem view_store_self (x : Nat) (b : UInt8) : (S.store i p x b).view p = (S.view p).store i x b := by
  unfold view store
  dsimp only
  rw [view_setMemory_self]
  unfold PageView.store EncryptedFile.view
  dsimp only
  rw [Function.update_self, update_page_self]

theorem view_store_ne (x : Nat) (b : UInt8) (hq : q ≠ p) : (S.store i p x b).view q = S.view q := by
  unfold view store
  dsimp only
  rw [view_setMemory_ne _ hq]
  unfold EncryptedFile.view
  rw [Function.update_of_ne hq, update_page_ne _ _ _ hq]

theorem Inv.store (h : S.Inv) (hi : (S.flags i p).writable = true) {x : Nat}
    (hx : ∀ j, j ≠ i → S.opened j p x = false) (b : UInt8) : (S.store i p x b).Inv := by
  refine ⟨h.known, fun q => ?_⟩
  by_cases hq : q = p
  · rw [hq, view_store_self]
    exact (h.page p).store hi hx b
  · rw [view_store_ne x b hq]
    exact h.page q

end State

section Receive

variable {src m : Mapping} {p q offset size : Nat}

theorem contains_receive : (EncryptedFile.receive src p offset size m).contains q = m.contains q := by
  unfold EncryptedFile.receive
  split
  · rfl
  · split
    · rfl
    · split
      · rfl
      · rfl

theorem state_receive (hstale : (m.state p).staleIV = false) :
    (EncryptedFile.receive src p offset size m).state = m.state := by
  unfold EncryptedFile.receive
  rw [hstale]
  split
  · rfl
  · split
    · rfl
    · rfl

theorem memory_receive_self (hstale : (m.state p).staleIV = false)
    (hin : (m.state p).upToDate = true → m.contains p = true) :
    (EncryptedFile.receive src p offset size m).memory p =
      if (m.state p).upToDate = true then copyBytes (m.memory p) (src.memory p) offset size else m.memory p := by
  unfold EncryptedFile.receive
  rw [hstale, if_neg Bool.false_ne_true]
  split
  · rename_i hout
    rw [if_neg fun hup => Bool.false_ne_true (hout.symm.trans (hin hup))]
  · split
    · exact Function.update_self p _ _
    · rfl

theorem memory_receive_ne (hstale : (m.state p).staleIV = false) (hq : q ≠ p) :
    (EncryptedFile.receive src p offset size m).memory q = m.memory q := by
  unfold EncryptedFile.receive
  rw [hstale, if_neg Bool.false_ne_true]
  split
  · rfl
  · split
    · exact Function.update_of_ne hq _ _
    · rfl

end Receive

namespace State

variable {S S' S'' : State ι C} {ps qs : List Nat} {i : ι} {p q : Nat}

theorem contains_announce (piece : Nat × Nat × Nat) (j : ι) (q : Nat) :
    ((S.announce i piece).file.mapping j).contains q = (S.file.mapping j).contains q := by
  unfold announce EncryptedFile.writeAndUpdateAll
  dsimp only
  split
  · rename_i hj
    rw [hj]
    rfl
  · exact contains_receive

theorem Inv.view_announce_self (h : S.Inv) (p offset size : Nat) :
    (S.announce i (p, offset, size)).view p = (S.view p).announce i offset size := by
  unfold view EncryptedFile.view PageView.announce
  congr 1
  · funext j
    exact contains_announce _ j p
  · funext j
    unfold announce EncryptedFile.writeAndUpdateAll
    dsimp only
    by_cases hj : j = i
    · subst hj
      rw [if_pos rfl, Function.update_self]
      exact Function.update_self p _ _
    · rw [if_neg hj, Function.update_of_ne hj]
      exact congrFun (state_receive ((h.page p).fresh j)) p
  · funext j
    unfold announce EncryptedFile.writeAndUpdateAll
    dsimp only
    by_cases hj : j = i
    · subst hj
      rw [if_pos rfl, if_neg fun hf => hf.1 rfl]
      rfl
    · rw [if_neg hj, memory_receive_self ((h.page p).fresh j) ((h.page p).inside j)]
      simp only [ne_eq, hj, not_false_eq_true, true_and]
  · exact update_page_self S.opened i p _

theorem Inv.view_announce_ne (h : S.Inv) (piece : Nat × Nat × Nat) (hq : q ≠ piece.1) :
    (S.announce i piece).view q = S.view q := by
  unfold view EncryptedFile.view
  congr 1
  · funext j
    exact contains_announce _ j q
  · funext j
    unfold announce EncryptedFile.writeAndUpdateAll
    dsimp only
    by_cases hj : j = i
    · subst hj
      rw [if_pos rfl]
      exact Function.update_of_ne hq _ _
    · rw [if_neg hj]
      exact congrFun (state_receive ((h.page piece.1).fresh j)) q
  · funext j
    unfold announce EncryptedFile.writeAndUpdateAll
    dsimp only
    by_cases hj : j = i
    · subst hj
      rw [if_pos rfl]
      rfl
    · rw [if_neg hj]
      exact memory_receive_ne ((h.page piece.1).fresh j) hq
  · exact update_page_ne S.opened i _ hq

/-- What `write_barrier` asks for in a page: it is open, all bytes that the mapping has open are
announced, and none that another mapping has open. -/
structure Announces (v : PageView ι) (i : ι) (offset size : Nat) : Prop where
  writable : (v.state i).writable = true
  all : ∀ x, v.opened i x = true → offset ≤ x ∧ x < offset + size
  own : ∀ j, j ≠ i → ∀ x, offset ≤ x → x < offset + size → v.opened j x = false

theorem Inv.announce (h : S.Inv) {piece : Nat × Nat × Nat}
    (hpiece : Announces (S.view piece.1) i piece.2.1 piece.2.2) : (S.announce i piece).Inv := by
  refine ⟨h.known, fun q => ?_⟩
  by_cases hq : q = piece.1
  · rw [hq, h.view_announce_self piece.1 piece.2.1 piece.2.2]
    exact (h.page piece.1).announce hpiece.writable hpiece.all hpiece.own
  · rw [h.view_announce_ne piece hq]
    exact h.page q

/-- **The loop of `write_barrier`**, over pieces of pages that differ. -/
theorem Inv.announceAll : ∀ (l : List (Nat × Nat × Nat)) {S : State ι C}, S.Inv →
    l.Pairwise (fun a b => a.1 < b.1) → (∀ piece ∈ l, Announces (S.view piece.1) i piece.2.1 piece.2.2) →
    (l.foldl (fun S piece => S.announce i piece) S).Inv
  | [], _, h, _, _ => h
  | piece :: l, S, h, hpages, hall => by
    obtain ⟨hfirst, hrest⟩ := List.pairwise_cons.mp hpages
    refine Inv.announceAll l (h.announce (hall piece List.mem_cons_self)) hrest fun other hother => ?_
    rw [h.view_announce_ne piece (Nat.ne_of_gt (hfirst other hother))]
    exact hall other (List.mem_cons_of_mem piece hother)

end State

theorem le_of_mem_pieces {p offset size : Nat} :
    ∀ piece ∈ EncryptedFile.pieces p offset size, p ≤ piece.1 := by
  fun_induction EncryptedFile.pieces p offset size with
  | case1 => exact fun piece hf => absurd hf List.not_mem_nil
  | case2 p offset size hsize ih =>
    intro piece hmem
    rcases List.mem_cons.mp hmem with rfl | hmem
    · exact Nat.le_refl p
    · exact Nat.le_of_succ_le (ih piece hmem)

theorem pairwise_pieces {p offset size : Nat} :
    (EncryptedFile.pieces p offset size).Pairwise fun a b => a.1 < b.1 := by
  fun_induction EncryptedFile.pieces p offset size with
  | case1 => exact List.Pairwise.nil
  | case2 p offset size hsize ih =>
    exact List.pairwise_cons.mpr ⟨fun piece hmem => le_of_mem_pieces piece hmem, ih⟩

theorem pieces_single {p offset size : Nat} (hpos : size ≠ 0) (hsize : size ≤ encryptionPageSize) :
    EncryptedFile.pieces p offset size = [(p, offset, size - offset)] := by
  unfold EncryptedFile.pieces
  rw [if_neg hpos, Nat.min_eq_right hsize, Nat.sub_self]
  unfold EncryptedFile.pieces
  rfl

namespace State

variable {S S' S'' : State ι C} {ps qs : List Nat} {i : ι} {p q : Nat}

/-! ### `flush` -/

theorem view_flushed {W : World C} (hact : S.file.world.act (.write p ((S.file.mapping i).memory p)) = some W) :
    view { S with
      file := { S.file with world := W }.setMapping i
        ((S.file.mapping i).setState p { (S.file.mapping i).state p with dirty := false }) } p =
      (S.view p).flush i := by
  obtain ⟨e, -, rfl⟩ := Option.map_eq_some_iff.mp hact
  unfold view
  dsimp only
  refine (view_setState_self (F := { S.file with world := _ }) _).trans ?_
  unfold PageView.flush EncryptedFile.view
  dsimp only
  rw [Function.update_self]
  rfl

theorem view_flushed_ne {W : World C} (hq : q ≠ p)
    (hact : S.file.world.act (.write p ((S.file.mapping i).memory p)) = some W) :
    view { S with
      file := { S.file with world := W }.setMapping i
        ((S.file.mapping i).setState p { (S.file.mapping i).state p with dirty := false }) } q = S.view q := by
  obtain ⟨e, -, rfl⟩ := Option.map_eq_some_iff.mp hact
  unfold view
  dsimp only
  refine (view_setState_ne (F := { S.file with world := _ }) _ hq).trans ?_
  unfold EncryptedFile.view
  dsimp only
  rw [Function.update_of_ne hq]

theorem Inv.flushPages : ∀ (ps : List Nat) {S : State ι C}, S.Inv → ∀ {F : EncryptedFile ι C},
    EncryptedFile.flushPages i ps S.file = some F → Inv { S with file := F }
  | [], S, h, F, hflush => by
    rw [← Option.some.inj hflush]
    exact h
  | p :: ps, S, h, F, hflush => by
    unfold EncryptedFile.flushPages at hflush
    split at hflush
    · exact Inv.flushPages ps h hflush
    · rename_i hdirty
      obtain ⟨W, hact, hrest⟩ := Option.bind_eq_some_iff.mp hflush
      refine Inv.flushPages ps
        (S := { S with
          file := { S.file with world := W }.setMapping i
            ((S.file.mapping i).setState p { (S.file.mapping i).state p with dirty := false }) })
        ⟨fun q => (h.known q).write hact, fun q => ?_⟩ hrest
      by_cases hq : q = p
      · rw [hq, view_flushed hact]
        exact (h.page p).flush (Bool.not_eq_false _ ▸ hdirty)
      · rw [view_flushed_ne hq hact]
        exact h.page q

end State

/-! ## Runs -/

/-- The steps of the processes' threads. -/
inductive Step (ι : Type) where
  | readBarrier (i : ι) (first count : Nat) (toModify : Bool)
  | store (i : ι) (p x : Nat) (b : UInt8)
  | writeBarrier (i : ι) (addr size : Nat)
  | flush (i : ι)

namespace State

/-- The state after a step; `none` if a page to be flushed finds no IV. -/
def act (S : State ι C) : Step ι → Option (State ι C)
  | .readBarrier i first count toModify => some { S with file := S.file.readBarrier i first count toModify }
  | .store i p x b => some (S.store i p x b)
  | .writeBarrier i addr size => some (S.writeBarrier i addr size)
  | .flush i => (S.file.flush i).map fun F => { S with file := F }

/-- How mappings are used: barriers are for pages of the mapping, bytes are written between a modifying
`read_barrier` and the `write_barrier` that announces them, and no two mappings have one byte open. -/
def Allowed (S : State ι C) : Step ι → Prop
  | .readBarrier i first count _ => ∀ p ∈ List.range' first count, (S.file.mapping i).contains p = true
  | .store i p x _ =>
    x < encryptionPageSize ∧ (S.flags i p).writable = true ∧ ∀ j, j ≠ i → S.opened j p x = false
  | .writeBarrier i addr size =>
    ∀ piece ∈ EncryptedFile.pieces (addr / encryptionPageSize) (addr % encryptionPageSize)
      (size + addr % encryptionPageSize), Announces (S.view piece.1) i piece.2.1 piece.2.2
  | .flush _ => True

/-- No page is read from the file while a mapping holds bytes of it that the file does not have. -/
def Current (S : State ι C) : Step ι → Prop
  | .readBarrier i first count _ =>
    ∀ p ∈ List.range' first count, (S.flags i p).upToDate = false → S.FileIsCurrent i p
  | _ => True

/-- Mappings that were just made, of a file whose pages hold what was written to it. -/
structure Initial (S : State ι C) : Prop where
  known : ∀ p, Known S.file.world p
  mappings : ∀ i, i ∈ S.file.mappings
  clean : ∀ i p, S.flags i p = {}
  memory : ∀ i p, (S.file.mapping i).memory p = zeroPage
  written : ∀ p, S.written p = (S.file.world.last p).getD zeroPage
  opened : ∀ i p x, S.opened i p x = false

/-- The states that steps which satisfy `Ok` lead to. -/
inductive Reach (Ok : State ι C → Step ι → Prop) : State ι C → Prop
  | start {S : State ι C} (h : S.Initial) : Reach Ok S
  | step {S S' : State ι C} (a : Step ι) (h : Reach Ok S) (hok : Ok S a) (hact : S.act a = some S') : Reach Ok S'

variable {S S' : State ι C}

omit [DecidableEq ι] in
theorem Initial.inv (h : S.Initial) : S.Inv := by
  refine ⟨h.known, fun p => ?_⟩
  have hstate : ∀ i, (S.view p).state i = {} := fun i => h.clean i p
  have hopened : ∀ i x, (S.view p).opened i x = false := fun i x => h.opened i p x
  refine ⟨fun i x hi => ?_, fun i x hi => ?_, fun i j x hi => ?_, fun i hi => ?_, fun i hi => ?_, fun i hi => ?_,
    fun i => ?_, fun i _ => h.memory i p, fun _ x _ => congrFun (h.written p).symm x⟩
  · simp [hstate] at hi
  · simp [hopened] at hi
  · simp [hopened] at hi
  · simp [hstate] at hi
  · simp [hstate] at hi
  · simp [hstate] at hi
  · rw [hstate]

theorem Inv.step (h : S.Inv) {a : Step ι} (hallowed : S.Allowed a) (hcurrent : S.Current a)
    (hact : S.act a = some S') : S'.Inv := by
  cases a with
  | readBarrier i first count toModify =>
    rw [← Option.some.inj hact]
    exact h.readBarrier toModify hallowed hcurrent
  | store i p x b =>
    rw [← Option.some.inj hact]
    exact h.store hallowed.2.1 hallowed.2.2 b
  | writeBarrier i addr size =>
    rw [← Option.some.inj hact]
    exact Inv.announceAll _ h pairwise_pieces hallowed
  | flush i =>
    obtain ⟨F, hflush, rfl⟩ := Option.map_eq_some_iff.mp hact
    exact Inv.flushPages _ h hflush

theorem inv_of_reach (h : Reach (fun S a => S.Allowed a ∧ S.Current a) S) : S.Inv := by
  induction h with
  | start h => exact h.inv
  | step a _ hok hact ih => exact ih.step hok.1 hok.2 hact

end State

/-- **Mappings agree**: in a page that no mapping is writing to, every mapping that has it up to date has
everything that was written. -/
theorem mappings_agree {S : State ι C} (h : State.Reach (fun S a => S.Allowed a ∧ S.Current a) S) {p : Nat}
    (hno : ∀ i, (S.flags i p).writable = false) (i : ι) (hi : (S.flags i p).upToDate = true) :
    (S.file.mapping i).memory p = S.written p := by
  have hpage := (State.inv_of_reach h).page p
  funext x
  refine hpage.current i x hi fun j => ?_
  cases hopen : (S.view p).opened j x with
  | false => rfl
  | true => exact absurd ((hpage.opened j x hopen).1.symm.trans (hno j)) (Bool.false_ne_true ·.symm)

/-! ## Two mappings of a page -/

namespace State

variable {S : State ι C} {i : ι} {p x : Nat} {b : UInt8} {Ok : State ι C → Step ι → Prop}

/-- No byte of page `p` is open. -/
def Closed (S : State ι C) (p : Nat) : Prop := ∀ j y, S.opened j p y = false

/-- A byte is written and announced. -/
def writeByte (S : State ι C) (i : ι) (p x : Nat) (b : UInt8) : State ι C := (S.store i p x b).announce i (p, x, 1)

theorem Closed.writeByte (h : S.Closed p) : (S.writeByte i p x b).Closed p := by
  intro j y
  unfold State.writeByte announce store
  dsimp only
  by_cases hj : j = i
  · subst hj
    rw [Function.update_self, Function.update_self]
  · rw [Function.update_of_ne hj, Function.update_of_ne hj]
    exact h j y

theorem Closed.announces (h : S.Closed p) (hi : (S.flags i p).writable = true) :
    Announces ((S.store i p x b).view p) i x 1 := by
  rw [view_store_self]
  refine ⟨hi, fun y hy => ?_, fun j hj y _ _ => ?_⟩
  · simp only [PageView.store, Function.update_self] at hy
    by_cases hyx : y = x
    · omega
    · rw [Function.update_of_ne hyx] at hy
      exact absurd (hy.symm.trans (h i y)) (Bool.false_ne_true ·.symm)
  · simp only [PageView.store, Function.update_of_ne hj]
    exact h j y

theorem pieces_byte (hx : x < encryptionPageSize) :
    EncryptedFile.pieces (x / encryptionPageSize) (x % encryptionPageSize) (1 + x % encryptionPageSize) =
      [(0, x, 1)] := by
  rw [Nat.mod_eq_of_lt hx, Nat.div_eq_of_lt hx, pieces_single (by omega) (by omega), Nat.add_sub_cancel]

theorem Reach.writeByte (hstore : ∀ {S i p x b}, S.Allowed (.store i p x b) → Ok S (.store i p x b))
    (hbarrier : ∀ {S i addr size}, S.Allowed (.writeBarrier i addr size) → Ok S (.writeBarrier i addr size))
    (h : Reach Ok S) (hclosed : S.Closed 0) (hx : x < encryptionPageSize) (hi : (S.flags i 0).writable = true)
    (b : UInt8) : Reach Ok (S.writeByte i 0 x b) := by
  have h₁ := h.step (.store i 0 x b) (hstore ⟨hx, hi, fun j _ => hclosed j x⟩) rfl
  refine h₁.step (.writeBarrier i x 1) (hbarrier fun piece hpiece => ?_) ?_
  · rw [pieces_byte hx] at hpiece
    rw [List.mem_singleton.mp hpiece]
    exact hclosed.announces hi
  · dsimp only [act]
    unfold writeBarrier
    rw [pieces_byte hx]
    rfl

end State

/-- A page is encrypted by putting the IV beside it. -/
noncomputable def pageCrypto : Crypto Page where
  Cipher := UInt32 × Page
  Hmac := UInt32 × Page
  decEqHmac := Classical.decEq _
  encrypt _ iv w := (iv, w)
  decrypt _ _ c := c.2
  hmac c := c
  isZero c := c.1 == 0
  zeroHmac := (0, zeroPage)
  decrypt_encrypt _ _ _ := rfl

/-- Two mappings of page 0 of an empty file. -/
noncomputable def twoMappings : State Bool pageCrypto where
  file :=
    { world := .start ⟨0, fun _ => .zero pageCrypto, fun _ => (0, zeroPage)⟩
      mappings := [false, true]
      mapping := fun _ => ⟨0, 1, fun _ => {}, fun _ => zeroPage⟩ }
  written := fun _ => zeroPage
  opened := fun _ _ _ => false

theorem twoMappings_initial : twoMappings.Initial where
  known _ := ⟨Or.inl rfl, fun _ => Or.inl rfl⟩
  mappings i := by
    cases i with
    | false => exact List.mem_cons_self
    | true => exact List.mem_cons_of_mem _ List.mem_cons_self
  clean _ _ := rfl
  memory _ _ := rfl
  written _ := rfl
  opened _ _ _ := rfl

/-- A page is written through one mapping and then read through the other. -/
theorem mappings_agree_two : ∃ S : State Bool pageCrypto,
    State.Reach (fun S a => S.Allowed a ∧ S.Current a) S ∧ (S.flags true 0).upToDate = true ∧
    (S.file.mapping true).memory 0 0 = 1 ∧ (S.file.mapping true).memory 0 = S.written 0 := by
  have h₀ : State.Reach (fun S a => S.Allowed a ∧ S.Current a) twoMappings := State.Reach.start twoMappings_initial
  have hpages : ∀ p ∈ List.range' 0 1, p = 0 := fun p hp => List.mem_singleton.mp hp
  have h₁ := h₀.step (.readBarrier false 0 1 true)
    ⟨fun p hp => by rw [hpages p hp]; rfl, fun p _ _ _ _ => rfl⟩ rfl
  have h₂ := h₁.writeByte (i := false) (x := 0) (fun h => ⟨h, trivial⟩) (fun h => ⟨h, trivial⟩) (fun _ _ => rfl)
    (by decide) rfl 1
  have h₃ := h₂.step (.readBarrier true 0 1 false)
    ⟨fun p hp => by rw [hpages p hp]; rfl, fun p hp _ hsource => by rw [hpages p hp] at hsource; cases hsource⟩ rfl
  refine ⟨_, h₃, rfl, rfl, mappings_agree h₃ (fun i => ?_) true rfl⟩
  cases i with
  | false => rfl
  | true => rfl

/-- **An up-to-date page with stale bytes.**  Through mapping A byte 0 of a page is written and
announced, and the page is opened for writing again: it is dirty and writable, so that mapping B does not
copy it but reads the file.  When both have written a byte each, no mapping is writing, both pages are up
to date, and B does not have byte 0. -/
theorem stale_page_is_up_to_date : ¬ ∀ S : State Bool pageCrypto, State.Reach State.Allowed S →
    ∀ p, (∀ i, (S.flags i p).writable = false) → ∀ i, (S.flags i p).upToDate = true →
      (S.file.mapping i).memory p = S.written p := by
  intro hall
  have hpages : ∀ p ∈ List.range' 0 1, p = 0 := fun p hp => List.mem_singleton.mp hp
  have h₀ : State.Reach State.Allowed twoMappings := State.Reach.start twoMappings_initial
  have c₀ : twoMappings.Closed 0 := fun _ _ => rfl
  have h₁ := h₀.step (.readBarrier false 0 1 true) (fun p hp => by rw [hpages p hp]; rfl) rfl
  have h₂ := h₁.writeByte (i := false) (x := 0) id id c₀ (by decide) rfl 1
  have c₂ := State.Closed.writeByte (i := false) (x := 0) (b := 1) c₀
  have h₃ := h₂.step (.readBarrier false 0 1 true) (fun p hp => by rw [hpages p hp]; rfl) rfl
  have h₄ := h₃.step (.readBarrier true 0 1 true) (fun p hp => by rw [hpages p hp]; rfl) rfl
  have h₅ := h₄.writeByte (i := false) (x := 1) id id c₂ (by decide) rfl 2
  have c₅ := State.Closed.writeByte (i := false) (x := 1) (b := 2) c₂
  have h₆ := h₅.writeByte (i := true) (x := 2) id id c₅ (by decide) rfl 3
  have hagree := hall _ h₆ 0 (fun i => by cases i with | false => rfl | true => rfl) true rfl
  exact absurd (congrFun hagree 0) (by decide)

end Llbt.Encryption
