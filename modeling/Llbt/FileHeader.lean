import Llbt.Lib.Storage

/-!
# Publishing a version in the file header

The header has two slots, each a top ref and a file format number, and a bit of its flags that
selects one of them.  `GroupCommitter::commit` fills the slot that is not selected, synchronises,
flips the bit and synchronises again.  `SlabAlloc::validate_header` reads the selected slot of a
file that may be what a crash left.

* `commit` — the operations of one call, computed from the header it finds in its mapping;
* `convertFromStreamingForm` — the same protocol, run once when a session starts on a file that was
  written as a stream;
* `Commits` — the devices reached by calls of `commit` from a valid file;
* `crash_selects_previous_or_new` — what any crash of a run with synchronisation leaves;
* `unsynced_commit_selects_neither` — without synchronisation it may be neither.
-/

set_option autoImplicit false

namespace Llbt.FileHeader

open ByteImage Storage

/-! ## Fields -/

/-- `sizeof(SlabAlloc::Header)`. -/
def headerSize : Nat := 24

/-- `sizeof(SlabAlloc::StreamingFooter)`. -/
def footerSize : Nat := 16

def flagsSelectBit : UInt8 := 1
def streamingTopRef : Nat := 0xFFFFFFFFFFFFFFFF
def footerMagicCookie : Nat := 0x3034125237E526C8

def topRefPos (slot : Nat) : Nat := 8 * slot
def mnemonicPos : Nat := 16
def fileFormatPos (slot : Nat) : Nat := 20 + slot
def flagsPos : Nat := 23

def topRef (m : Image) (slot : Nat) : Nat := word m (topRefPos slot)

def fileFormat (m : Image) (slot : Nat) : UInt8 := m (fileFormatPos slot)

def mnemonic : List UInt8 := [84, 45, 68, 66]

/-- The slot that a flags byte selects. -/
def slotSelector (flags : UInt8) : Nat := if flags &&& flagsSelectBit ≠ 0 then 1 else 0

def getCommittedFileFormatVersion (m : Image) : UInt8 := fileFormat m (slotSelector (m flagsPos))

def isFileOnStreamingForm (m : Image) : Bool :=
  slotSelector (m flagsPos) == 0 && topRef m (slotSelector (m flagsPos)) == streamingTopRef

theorem slotSelector_eq (flags : UInt8) : slotSelector flags = flags.toNat % 2 := by
  have h : (flags &&& flagsSelectBit).toNat = flags.toNat % 2 := by
    rw [UInt8.toNat_and]
    exact Nat.and_one_is_mod _
  unfold slotSelector
  split
  · rename_i hne
    have : (flags &&& flagsSelectBit).toNat ≠ 0 := fun h0 => hne (UInt8.toNat_inj.mp h0)
    omega
  · rename_i heq
    rw [Decidable.not_not.mp heq] at h
    exact h

theorem slotSelector_lt (flags : UInt8) : slotSelector flags < 2 := by
  rw [slotSelector_eq]
  omega

theorem slotSelector_flip (flags : UInt8) :
    slotSelector (flags ^^^ flagsSelectBit) = 1 - slotSelector flags := by
  have h : (flags ^^^ flagsSelectBit).toNat % 2 = (flags.toNat + 1) % 2 := by
    rw [UInt8.toNat_xor, Nat.xor_mod_two_eq]
    rfl
  rw [slotSelector_eq, slotSelector_eq, h]
  omega

theorem slotSelector_set (flags : UInt8) : slotSelector (flags ||| flagsSelectBit) = 1 := by
  rw [slotSelector_eq, UInt8.toNat_or, Nat.or_mod_two_eq_one]
  exact .inr rfl

/-! ## Reading the header -/

inductive InvalidDatabase where
  | fileTooSmall (size : Nat)
  | invalidSize (size : Nat)
  | invalidMnemonic
  | streamingFileTooSmall (size : Nat)
  | invalidFooterCookie (cookie : Nat)
  | topRefNotAligned (topRef : Nat)
  | topRefOutside (size topRef : Nat)
  deriving DecidableEq, Repr

/-- The top ref of the selected slot, or of the footer of a file on streaming form. -/
def selectedTopRef (f : Contents) : Except InvalidDatabase Nat :=
  if isFileOnStreamingForm f.bytes then
    if f.size < headerSize + footerSize then .error (.streamingFileTooSmall f.size)
    else if word f.bytes (f.size - 8) ≠ footerMagicCookie then
      .error (.invalidFooterCookie (word f.bytes (f.size - 8)))
    else .ok (word f.bytes (f.size - 16))
  else .ok (topRef f.bytes (slotSelector (f.bytes flagsPos)))

def validateHeader (f : Contents) : Except InvalidDatabase Nat :=
  if f.size < headerSize then .error (.fileTooSmall f.size)
  else if f.size % 8 ≠ 0 then .error (.invalidSize f.size)
  else if slice f.bytes mnemonicPos 4 ≠ mnemonic then .error .invalidMnemonic
  else
    match selectedTopRef f with
    | .error e => .error e
    | .ok top =>
      if top % 8 ≠ 0 then .error (.topRefNotAligned top)
      else if top ≥ f.size then .error (.topRefOutside f.size top)
      else .ok top

theorem validateHeader_ok_iff {f : Contents} {top : Nat} : validateHeader f = .ok top ↔
    headerSize ≤ f.size ∧ f.size % 8 = 0 ∧ slice f.bytes mnemonicPos 4 = mnemonic ∧
      selectedTopRef f = .ok top ∧ top % 8 = 0 ∧ top < f.size := by
  unfold validateHeader
  constructor
  · intro h
    split at h
    · cases h
    rename_i h1
    split at h
    · cases h
    rename_i h2
    split at h
    · cases h
    rename_i h3
    split at h
    · cases h
    rename_i t hs
    split at h
    · cases h
    rename_i h4
    split at h
    · cases h
    rename_i h5
    cases h
    exact ⟨by omega, by omega, Decidable.not_not.mp h3, hs, by omega, by omega⟩
  · rintro ⟨h1, h2, h3, h4, h5, h6⟩
    rw [if_neg (by omega), if_neg (by omega), if_neg (by simp [h3]), h4]
    dsimp only
    rw [if_neg (by omega), if_neg (by omega)]

/-- The positions that `validate_header` and the format number depend on while `slot` is selected. -/
def Live (slot x : Nat) : Prop :=
  topRefPos slot ≤ x ∧ x < topRefPos slot + 8 ∨ mnemonicPos ≤ x ∧ x < mnemonicPos + 4 ∨
    x = fileFormatPos slot ∨ x = flagsPos

/-- Sizes of a file that `top` lies in. -/
def Roomy (top size : Nat) : Prop := headerSize ≤ size ∧ size % 8 = 0 ∧ top < size

/-- The header selects `slot`, which holds `top` and `format`. -/
structure Holds (f : Contents) (slot top : Nat) (format : UInt8) : Prop where
  mnemonic_eq : slice f.bytes mnemonicPos 4 = mnemonic
  selected : slotSelector (f.bytes flagsPos) = slot
  topRef_eq : topRef f.bytes slot = top
  format_eq : fileFormat f.bytes slot = format
  aligned : top % 8 = 0
  roomy : Roomy top f.size

/-- What recovery reads from a file. -/
def Selects (f : Contents) (top : Nat) (format : UInt8) : Prop :=
  validateHeader f = .ok top ∧ getCommittedFileFormatVersion f.bytes = format

section Holds

variable {f f' : Contents} {slot top : Nat} {format : UInt8}

theorem Holds.not_streaming (h : Holds f slot top format) :
    isFileOnStreamingForm f.bytes = false := by
  have hne : topRef f.bytes (slotSelector (f.bytes flagsPos)) ≠ streamingTopRef := by
    rw [h.selected, h.topRef_eq]
    intro heq
    have := h.aligned
    rw [heq] at this
    exact absurd this (by decide)
  simp [isFileOnStreamingForm, hne]

theorem Holds.selects (h : Holds f slot top format) : Selects f top format := by
  obtain ⟨h1, h2, h3⟩ := h.roomy
  have hsel : selectedTopRef f = .ok top := by
    unfold selectedTopRef
    rw [h.not_streaming, if_neg (by decide), h.selected, h.topRef_eq]
  refine ⟨validateHeader_ok_iff.mpr ⟨h1, h2, h.mnemonic_eq, hsel, h.aligned, h3⟩, ?_⟩
  rw [getCommittedFileFormatVersion, h.selected, h.format_eq]

theorem Holds.congr (h : Holds f slot top format) (hlive : ∀ x, Live slot x → f'.bytes x = f.bytes x)
    (hsize : Roomy top f'.size) : Holds f' slot top format where
  mnemonic_eq := by
    rw [slice_congr fun x hx hx' => hlive x (.inr (.inl ⟨hx, hx'⟩))]
    exact h.mnemonic_eq
  selected := by
    rw [hlive flagsPos (.inr (.inr (.inr rfl)))]
    exact h.selected
  topRef_eq := by
    rw [topRef, word_congr fun x hx hx' => hlive x (.inl ⟨hx, hx'⟩)]
    exact h.topRef_eq
  format_eq := by
    rw [fileFormat, hlive _ (.inr (.inr (.inl rfl)))]
    exact h.format_eq
  aligned := h.aligned
  roomy := hsize

theorem holds_of_validateHeader (h : validateHeader f = .ok top)
    (hform : isFileOnStreamingForm f.bytes = false) :
    Holds f (slotSelector (f.bytes flagsPos)) top (getCommittedFileFormatVersion f.bytes) := by
  obtain ⟨h1, h2, h3, h4, h5, h6⟩ := validateHeader_ok_iff.mp h
  rw [selectedTopRef, hform, if_neg (by decide)] at h4
  exact ⟨h3, rfl, Except.ok.inj h4, rfl, h5, h1, h2, h6⟩

end Holds

/-! ## Publishing -/

/-- `DBOptions::Durability`; `unsynced` is the source's `Unsafe`. -/
inductive Durability where
  | full
  | memOnly
  | unsynced
  | strict
  deriving DecidableEq, Repr

structure Config where
  disableSyncToDisk : Bool
  durability : Durability

/-- `disable_sync` of `GroupCommitter::commit`. -/
def Config.disableSync (cfg : Config) : Bool :=
  cfg.disableSyncToDisk || cfg.durability == .unsynced

def Config.barrier (cfg : Config) : List Op := if cfg.disableSync then [] else [.sync]

/-- The writes of `GroupCommitter::commit` to the slot that is not selected. -/
def fillSlot (header : Image) (newTopRef : Nat) (format : UInt8) : List Op :=
  let slot := slotSelector (header flagsPos ^^^ flagsSelectBit)
  (if format ≠ fileFormat header slot then [.write (fileFormatPos slot) [format]] else []) ++
    [.write (topRefPos slot) (putLE 8 newTopRef)]

def flipSelector (header : Image) : Op := .write flagsPos [header flagsPos ^^^ flagsSelectBit]

/-- `GroupCommitter::commit`; `header` is what its mapping shows at the start. -/
def commit (cfg : Config) (header : Image) (newTopRef : Nat) (format : UInt8) : List Op :=
  fillSlot header newTopRef format ++ (cfg.barrier ++ flipSelector header :: cfg.barrier)

def convertFromStreamingForm (header : Image) (top : Nat) : List Op :=
  if isFileOnStreamingForm header then
    [.write (topRefPos 1) (putLE 8 top), .write (fileFormatPos 1) [fileFormat header 0], .sync,
      .write flagsPos [header flagsPos ||| flagsSelectBit], .sync]
  else []

/-- A call of `commit`, with what was written for the new version before it. -/
structure Publication where
  data : List Op
  topRef : Nat
  format : UInt8

/-- The header that the call finds in its mapping. -/
def Publication.header (p : Publication) (d : Device) : Image := (d.run p.data).cached.bytes

def Publication.ops (p : Publication) (cfg : Config) (d : Device) : List Op :=
  p.data ++ commit cfg (p.header d) p.topRef p.format

/-- The device at the first barrier of the call. -/
def Publication.filled (p : Publication) (d : Device) : Device :=
  d.run (p.data ++ fillSlot (p.header d) p.topRef p.format)

/-- The new version is written outside the header, into a file that keeps room for the version
before it. -/
structure Publication.Fits (p : Publication) (d : Device) (previous : Nat) : Prop where
  writes : ∀ pos bs, Op.write pos bs ∈ p.data → headerSize ≤ pos
  sizes : ∀ size, Op.resize size ∈ p.data → Roomy previous size
  aligned : p.topRef % 8 = 0
  topRef_lt : p.topRef < (d.run p.data).cached.size
  size_le : (d.run p.data).cached.size ≤ 2 ^ 64

/-- The devices that completed calls of `commit` reach, with the top ref and format of the last
call. -/
inductive Commits (cfg : Config) (d₀ : Device) (top₀ : Nat) (format₀ : UInt8) :
    Device → Nat → UInt8 → Prop
  | start : Commits cfg d₀ top₀ format₀ d₀ top₀ format₀
  | commit {d : Device} {top : Nat} {format : UInt8} {p : Publication} :
    Commits cfg d₀ top₀ format₀ d top format → p.Fits d top →
      Commits cfg d₀ top₀ format₀ (d.run (p.ops cfg d)) p.topRef p.format

/-- Everything written before the first barrier of the call is in the file. -/
def Publication.Persisted (p : Publication) (d : Device) (f : Contents) : Prop :=
  (∀ x, x ≠ flagsPos → f.bytes x = (p.filled d).cached.bytes x) ∧
    f.size = (p.filled d).cached.size

/-! ## One call -/

/-- Everything is durable, and the header holds `top` and `format`. -/
structure Settled (d : Device) (top : Nat) (format : UInt8) : Prop where
  synced : d.pending = []
  holds : Holds d.durable (slotSelector (d.durable.bytes flagsPos)) top format

theorem Settled.keeps {d : Device} {top : Nat} {format : UInt8} (h : Settled d top format) :
    Keeps (Live (slotSelector (d.durable.bytes flagsPos))) (Roomy top) d.durable.bytes d where
  bytes := fun _ _ => rfl
  size := h.holds.roomy
  pending := by
    rw [h.synced]
    intro op hop
    cases hop

theorem live_lt {slot x : Nat} (hslot : slot < 2) (h : Live slot x) : x < headerSize := by
  unfold Live topRefPos mnemonicPos fileFormatPos flagsPos at h
  unfold headerSize
  omega

theorem fillSlot_spec (c : Contents) {slot top : Nat} (format : UInt8)
    (hslot : slotSelector (c.bytes flagsPos) = 1 - slot) (hlt : slot < 2) (htop : top < 2 ^ 64) :
    let c' := (fillSlot c.bytes top format).foldl Contents.apply c
    topRef c'.bytes slot = top ∧ fileFormat c'.bytes slot = format ∧ c'.size = c.size ∧
      ∀ x, (x < topRefPos slot ∨ topRefPos slot + 8 ≤ x) → x ≠ fileFormatPos slot →
        c'.bytes x = c.bytes x := by
  have hother : slotSelector (c.bytes flagsPos ^^^ flagsSelectBit) = slot := by
    rw [slotSelector_flip]
    omega
  have hread : ∀ m : Image, topRef (write m (topRefPos slot) (putLE 8 top)) slot = top := by
    intro m
    rw [topRef, word_write_self, Nat.mod_eq_of_lt htop]
  have hformat : ∀ m : Image, fileFormat (write m (topRefPos slot) (putLE 8 top)) slot =
      fileFormat m slot := by
    intro m
    refine write_outside _ (.inr ?_)
    unfold topRefPos fileFormatPos
    rw [putLE_length]
    omega
  have houtside : ∀ (m : Image) (x : Nat), (x < topRefPos slot ∨ topRefPos slot + 8 ≤ x) →
      write m (topRefPos slot) (putLE 8 top) x = m x := by
    intro m x hx
    exact write_outside _ (by rw [putLE_length]; exact hx)
  unfold fillSlot
  rw [hother]
  by_cases hf : format ≠ fileFormat c.bytes slot
  · simp only [if_pos hf, List.cons_append, List.nil_append, List.foldl_cons, List.foldl_nil,
      Contents.apply]
    refine ⟨hread _, ?_, trivial, fun x hx hne => ?_⟩
    · rw [hformat]
      exact write_singleton _ _ _
    · rw [houtside _ _ hx]
      exact write_outside _ (by simp only [List.length_singleton]; omega)
  · simp only [if_neg hf, List.nil_append, List.foldl_cons, List.foldl_nil, Contents.apply]
    refine ⟨hread _, ?_, trivial, fun x hx hne => houtside _ _ hx⟩
    rw [hformat]
    exact (Decidable.not_not.mp hf).symm

theorem fillSlot_spares {header : Image} {slot top previous : Nat} {format : UInt8}
    (hslot : slotSelector (header flagsPos) = slot) (hlt : slot < 2) :
    ∀ op ∈ fillSlot header top format, op.Spares (Live slot) (Roomy previous) := by
  have hother : slotSelector (header flagsPos ^^^ flagsSelectBit) = 1 - slot := by
    rw [slotSelector_flip, hslot]
  have htopRef : (Op.write (topRefPos (1 - slot)) (putLE 8 top)).Spares (Live slot)
      (Roomy previous) := by
    intro x hx
    unfold Live topRefPos mnemonicPos fileFormatPos flagsPos at hx
    unfold topRefPos
    rw [putLE_length]
    omega
  have hformat : (Op.write (fileFormatPos (1 - slot)) [format]).Spares (Live slot)
      (Roomy previous) := by
    intro x hx
    unfold Live topRefPos mnemonicPos fileFormatPos flagsPos at hx
    unfold fileFormatPos
    rw [List.length_singleton]
    omega
  intro op hop
  unfold fillSlot at hop
  rw [hother] at hop
  rcases List.mem_append.mp hop with hop | hop
  · split at hop
    · rw [List.mem_singleton.mp hop]
      exact hformat
    · cases hop
  · rw [List.mem_singleton.mp hop]
    exact htopRef

theorem crash_flags {c₀ c : Contents} {flags : UInt8}
    (h : Device.Crash ⟨c₀, [.write flagsPos [flags]]⟩ c) :
    (∀ x, x ≠ flagsPos → c.bytes x = c₀.bytes x) ∧ c.size = c₀.size ∧
      (c.bytes flagsPos = c₀.bytes flagsPos ∨ c.bytes flagsPos = flags) := by
  refine ⟨fun x hx => ?_, ?_, ?_⟩
  · rcases h.bytes x with hb | ⟨pos, bs, hmem, h1, h2, -⟩
    · exact hb
    · rw [List.mem_singleton] at hmem
      cases hmem
      rw [List.length_singleton] at h2
      omega
  · rcases h.size with hs | hmem
    · exact hs
    · rw [List.mem_singleton] at hmem
      cases hmem
  · rcases h.bytes flagsPos with hb | ⟨pos, bs, hmem, -, -, hv⟩
    · exact .inl hb
    · rw [List.mem_singleton] at hmem
      cases hmem
      exact .inr (hv.trans (by simp))

section Call

variable {cfg : Config} {d : Device} {top : Nat} {format : UInt8} {p : Publication}

theorem Publication.Fits.spares (hfits : p.Fits d top) {slot : Nat} (hslot : slot < 2) :
    ∀ op ∈ p.data, op.Spares (Live slot) (Roomy top) := by
  intro op hop
  cases op with
  | sync => exact trivial
  | resize size => exact hfits.sizes size hop
  | write pos bs =>
    intro x hx
    have := live_lt hslot hx
    have := hfits.writes pos bs hop
    omega

theorem Settled.spares (h : Settled d top format) (hfits : p.Fits d top) :
    ∀ op ∈ p.data ++ fillSlot (p.header d) p.topRef p.format,
      op.Spares (Live (slotSelector (d.durable.bytes flagsPos))) (Roomy top) := by
  have hlt := slotSelector_lt (d.durable.bytes flagsPos)
  have hdata := hfits.spares hlt
  intro op hop
  rcases List.mem_append.mp hop with hop | hop
  · exact hdata op hop
  · refine fillSlot_spares ?_ hlt op hop
    rw [Publication.header, (h.keeps.run hdata).cached.1 flagsPos (.inr (.inr (.inr rfl)))]

theorem Settled.filled_holds (h : Settled d top format) (hfits : p.Fits d top) :
    Holds (p.filled d).cached (slotSelector (d.durable.bytes flagsPos)) top format := by
  obtain ⟨hlive, hsize⟩ := (h.keeps.run (h.spares hfits)).cached
  exact h.holds.congr hlive hsize

theorem Settled.flipped_holds (h : Settled d top format) (hfits : p.Fits d top) {c : Contents}
    (hc : p.Persisted d c) (hflags : c.bytes flagsPos = p.header d flagsPos ^^^ flagsSelectBit) :
    Holds c (1 - slotSelector (d.durable.bytes flagsPos)) p.topRef p.format := by
  obtain ⟨hbytes, hsz⟩ := hc
  have hlt := slotSelector_lt (d.durable.bytes flagsPos)
  have hheader := (h.keeps.run (hfits.spares hlt)).cached
  have hroom : p.topRef < 2 ^ 64 := Nat.lt_of_lt_of_le hfits.topRef_lt hfits.size_le
  have hflag : p.header d flagsPos = d.durable.bytes flagsPos :=
    hheader.1 flagsPos (.inr (.inr (.inr rfl)))
  generalize hslot : slotSelector (d.durable.bytes flagsPos) = slot at *
  have hother : slotSelector ((d.run p.data).cached.bytes flagsPos) = 1 - (1 - slot) := by
    rw [← Publication.header, hflag, hslot]
    omega
  have hfill := fillSlot_spec (d.run p.data).cached p.format hother (by omega) hroom
  have hcached : (p.filled d).cached =
      (fillSlot (p.header d) p.topRef p.format).foldl Contents.apply (d.run p.data).cached := by
    rw [Publication.filled, Device.run_append, Device.cached_run]
  rw [← Publication.header, ← hcached] at hfill
  obtain ⟨h1, h2, h3, -⟩ := hfill
  have hold := h.filled_holds hfits
  refine ⟨?_, ?_, ?_, ?_, hfits.aligned, ?_⟩
  · rw [slice_congr fun x hx hx' => hbytes x (by unfold mnemonicPos at hx'; unfold flagsPos; omega)]
    exact hold.mnemonic_eq
  · rw [hflags, slotSelector_flip, hflag, hslot]
  · rw [topRef, word_congr fun x hx hx' =>
      hbytes x (by unfold topRefPos at hx'; unfold flagsPos; omega)]
    exact h1
  · rw [fileFormat, hbytes _ (by unfold fileFormatPos flagsPos; omega)]
    exact h2
  · obtain ⟨hr1, hr2, -⟩ := hold.roomy
    exact ⟨hsz ▸ hr1, hsz ▸ hr2, by rw [hsz, h3]; exact hfits.topRef_lt⟩

theorem Publication.ops_eq (hsync : cfg.disableSync = false) :
    p.ops cfg d = (p.data ++ fillSlot (p.header d) p.topRef p.format) ++
      [.sync, flipSelector (p.header d), .sync] := by
  unfold Publication.ops commit Config.barrier
  rw [hsync]
  simp

/-- **A completed call settles the new version.** -/
theorem Settled.publish (hsync : cfg.disableSync = false) (h : Settled d top format)
    (hfits : p.Fits d top) : Settled (d.run (p.ops cfg d)) p.topRef p.format := by
  rw [Publication.ops_eq hsync, Device.run_append, ← Publication.filled]
  refine ⟨rfl, ?_⟩
  have hflags : ((p.filled d).run [.sync, flipSelector (p.header d), .sync]).durable.bytes flagsPos =
      p.header d flagsPos ^^^ flagsSelectBit :=
    write_singleton (p.filled d).cached.bytes flagsPos (p.header d flagsPos ^^^ flagsSelectBit)
  have hheld := h.flipped_holds hfits (c := ((p.filled d).run [.sync, flipSelector (p.header d),
    .sync]).durable) ⟨fun x hx => ?_, rfl⟩ hflags
  · rw [hheld.selected]
    exact hheld
  · exact write_outside _ (by rw [List.length_singleton]; omega)

theorem Settled.crash (hsync : cfg.disableSync = false) (h : Settled d top format)
    (hfits : p.Fits d top) {k : Nat} {c : Contents}
    (hc : (d.run ((p.ops cfg d).take k)).Crash c) :
    Selects c top format ∨ Selects c p.topRef p.format ∧ p.Persisted d c := by
  rw [Publication.ops_eq hsync, List.take_append, Device.run_append] at hc
  generalize hA : p.data ++ fillSlot (p.header d) p.topRef p.format = A at hc
  have hfilled : d.run A = p.filled d := by rw [← hA, Publication.filled]
  by_cases hk : k ≤ A.length
  · -- before the first barrier
    rw [Nat.sub_eq_zero_of_le hk, List.take_zero, Device.run_nil] at hc
    have hspares : ∀ op ∈ A.take k, op.Spares (Live (slotSelector (d.durable.bytes flagsPos)))
        (Roomy top) := by
      intro op hop
      exact h.spares hfits op (hA.symm ▸ List.mem_of_mem_take hop)
    obtain ⟨hlive, hsize⟩ := (h.keeps.run hspares).crash hc
    exact .inl (h.holds.congr hlive hsize).selects
  obtain ⟨n, hn⟩ : ∃ n, k - A.length = n + 1 := ⟨k - A.length - 1, by omega⟩
  rw [hn, List.take_of_length_le (by omega), hfilled] at hc
  have hold := h.filled_holds hfits
  match n with
  | 0 =>
    -- the first barrier is complete
    rw [hc.eq_durable rfl]
    exact .inl hold.selects
  | 1 =>
    -- the flip is not synchronised yet
    obtain ⟨hbytes, hsize, hflags⟩ := crash_flags hc
    rcases hflags with hflags | hflags
    · refine .inl (hold.congr (fun x _ => ?_) (hsize ▸ hold.roomy)).selects
      by_cases hx : x = flagsPos
      · rw [hx]
        exact hflags
      · exact hbytes x hx
    · exact .inr ⟨(h.flipped_holds hfits ⟨hbytes, hsize⟩ hflags).selects, hbytes, hsize⟩
  | n + 2 =>
    -- the second barrier is complete
    have hend : (d.run (p.ops cfg d)).Crash c := by
      rw [Publication.ops_eq hsync, Device.run_append, hA, hfilled]
      rwa [List.take_of_length_le (by simp)] at hc
    have hsettled := h.publish hsync hfits
    rw [hend.eq_durable hsettled.synced]
    refine .inr ⟨hsettled.holds.selects, fun x hx => ?_, ?_⟩
    · rw [Publication.ops_eq hsync, Device.run_append, ← Publication.filled]
      exact write_outside _ (by rw [List.length_singleton]; omega)
    · rw [Publication.ops_eq hsync, Device.run_append, ← Publication.filled]
      rfl

end Call

/-! ## Runs -/

theorem Commits.settled {cfg : Config} (hsync : cfg.disableSync = false) {d₀ d : Device}
    {top₀ top : Nat} {format₀ format : UInt8} (h₀ : Settled d₀ top₀ format₀)
    (h : Commits cfg d₀ top₀ format₀ d top format) : Settled d top format := by
  induction h with
  | start => exact h₀
  | commit _ hfits ih => exact ih.publish hsync hfits

/-! ### The start of a session -/

/-- The file as a session finds it. -/
def attached (file : Contents) : Device := ⟨file, []⟩

/-- The file when the session starts. -/
def converted (file : Contents) (top : Nat) : Device :=
  (attached file).run (convertFromStreamingForm file.bytes top)

section Convert

variable {file : Contents} {top : Nat}

theorem fill_holds (hvalid : validateHeader file = .ok top) {c : Contents}
    (hbytes : ∀ x, x ≠ flagsPos → c.bytes x =
      write (write file.bytes (topRefPos 1) (putLE 8 top)) (fileFormatPos 1)
        [fileFormat file.bytes 0] x)
    (hsize : c.size = file.size) (hflags : slotSelector (c.bytes flagsPos) = 1)
    (hlt : top < 2 ^ 64) : Holds c 1 top (fileFormat file.bytes 0) := by
  obtain ⟨h1, h2, h3, -, h5, h6⟩ := validateHeader_ok_iff.mp hvalid
  refine ⟨?_, hflags, ?_, ?_, h5, hsize ▸ ⟨h1, h2, h6⟩⟩
  · rw [← h3]
    refine slice_congr fun x hx hx' => ?_
    unfold mnemonicPos at hx hx'
    rw [hbytes x (by unfold flagsPos; omega),
      write_outside _ (.inl (by unfold fileFormatPos; omega)),
      write_outside _ (.inr (by unfold topRefPos; rw [putLE_length]; omega))]
  · rw [topRef, ← Nat.mod_eq_of_lt hlt, ← word_write_self file.bytes (topRefPos 1) top]
    refine word_congr fun x hx hx' => ?_
    unfold topRefPos at hx hx'
    rw [hbytes x (by unfold flagsPos; omega),
      write_outside _ (.inl (by unfold fileFormatPos; omega))]
  · rw [fileFormat, hbytes _ (by decide)]
    exact write_singleton _ _ _

/-- Slot 1 of the header. -/
def SlotOne (x : Nat) : Prop := topRefPos 1 ≤ x ∧ x < topRefPos 1 + 8 ∨ x = fileFormatPos 1

theorem streaming_selects (hvalid : validateHeader file = .ok top)
    (hform : isFileOnStreamingForm file.bytes = true) {c : Contents}
    (hbytes : ∀ x, ¬ SlotOne x → c.bytes x = file.bytes x) (hsize : c.size = file.size) :
    Selects c top (getCommittedFileFormatVersion file.bytes) := by
  obtain ⟨h1, h2, h3, h4, h5, h6⟩ := validateHeader_ok_iff.mp hvalid
  have hflags : c.bytes flagsPos = file.bytes flagsPos :=
    hbytes _ (by unfold SlotOne topRefPos fileFormatPos flagsPos; omega)
  have hslot : slotSelector (file.bytes flagsPos) = 0 := by
    simp only [isFileOnStreamingForm, Bool.and_eq_true, beq_iff_eq] at hform
    exact hform.1
  have hzero : topRef c.bytes 0 = topRef file.bytes 0 := word_congr fun x hx hx' =>
    hbytes x (by unfold topRefPos at hx'; unfold SlotOne topRefPos fileFormatPos; omega)
  have hform' : isFileOnStreamingForm c.bytes = true := by
    rw [← hform]
    simp only [isFileOnStreamingForm, hflags, hslot, hzero]
  have hsel : selectedTopRef c = selectedTopRef file := by
    simp only [selectedTopRef, hform, hform', hsize, if_true] at h4 ⊢
    by_cases hsmall : file.size < headerSize + footerSize
    · rw [if_pos hsmall] at h4
      cases h4
    · -- the footer lies behind the header
      unfold headerSize footerSize at hsmall
      have hword : ∀ o, 24 ≤ o → word c.bytes o = word file.bytes o := fun o ho =>
        word_congr fun x hx _ =>
          hbytes x (by unfold SlotOne topRefPos fileFormatPos; omega)
      rw [hword _ (by omega), hword _ (by omega)]
  have hmnemonic : slice c.bytes mnemonicPos 4 = mnemonic := by
    rw [← h3]
    exact slice_congr fun x hx hx' => hbytes x (by
      unfold mnemonicPos at hx hx'
      unfold SlotOne topRefPos fileFormatPos
      omega)
  refine ⟨validateHeader_ok_iff.mpr ⟨hsize ▸ h1, hsize ▸ h2, hmnemonic, hsel.trans h4, h5,
    hsize ▸ h6⟩, ?_⟩
  rw [getCommittedFileFormatVersion, getCommittedFileFormatVersion, hflags, hslot]
  exact hbytes _ (by unfold SlotOne topRefPos fileFormatPos; omega)

theorem streaming_top_lt (hvalid : validateHeader file = .ok top)
    (hform : isFileOnStreamingForm file.bytes = true) : top < 2 ^ 64 := by
  obtain ⟨-, -, -, h4, -, -⟩ := validateHeader_ok_iff.mp hvalid
  unfold selectedTopRef at h4
  rw [hform, if_pos rfl] at h4
  split at h4
  · cases h4
  split at h4
  · cases h4
  rw [← Except.ok.inj h4]
  exact word_lt _ _

/-- **The conversion settles the version it found.** -/
theorem converted_settled (hvalid : validateHeader file = .ok top) :
    Settled (converted file top) top (getCommittedFileFormatVersion file.bytes) := by
  unfold converted convertFromStreamingForm
  cases hform : isFileOnStreamingForm file.bytes with
  | false =>
    rw [if_neg (by decide), Device.run_nil]
    exact ⟨rfl, holds_of_validateHeader hvalid hform⟩
  | true =>
    have hslot : slotSelector (file.bytes flagsPos) = 0 := by
      simp only [isFileOnStreamingForm, Bool.and_eq_true, beq_iff_eq] at hform
      exact hform.1
    rw [if_pos rfl]
    refine ⟨rfl, ?_⟩
    rw [getCommittedFileFormatVersion, hslot]
    have hheld := fill_holds hvalid (c := ((attached file).run [.write (topRefPos 1) (putLE 8 top),
        .write (fileFormatPos 1) [fileFormat file.bytes 0], .sync,
        .write flagsPos [file.bytes flagsPos ||| flagsSelectBit], .sync]).durable)
      (fun x hx => write_outside _ (by rw [List.length_singleton]; omega)) rfl
      ((congrArg slotSelector (write_singleton _ _ _)).trans (slotSelector_set _))
      (streaming_top_lt hvalid hform)
    rw [hheld.selected]
    exact hheld

/-- **A crash during the conversion leaves the version that was there.** -/
theorem converted_crash (hvalid : validateHeader file = .ok top) {k : Nat} {c : Contents}
    (hc : ((attached file).run ((convertFromStreamingForm file.bytes top).take k)).Crash c) :
    Selects c top (getCommittedFileFormatVersion file.bytes) := by
  unfold convertFromStreamingForm at hc
  cases hform : isFileOnStreamingForm file.bytes with
  | false =>
    rw [hform, if_neg (by decide), List.take_nil, Device.run_nil] at hc
    rw [hc.eq_durable rfl]
    exact (holds_of_validateHeader hvalid hform).selects
  | true =>
    have hslot : slotSelector (file.bytes flagsPos) = 0 := by
      simp only [isFileOnStreamingForm, Bool.and_eq_true, beq_iff_eq] at hform
      exact hform.1
    rw [hform, if_pos rfl] at hc
    have hkeeps : Keeps (fun x => ¬ SlotOne x) (· = file.size) file.bytes (attached file) :=
      ⟨fun _ _ => rfl, rfl, fun _ hop => by cases hop⟩
    have hfirst : (Op.write (topRefPos 1) (putLE 8 top)).Spares (fun x => ¬ SlotOne x)
        (· = file.size) := by
      intro x hx
      unfold SlotOne at hx
      rw [putLE_length]
      omega
    have hsecond : (Op.write (fileFormatPos 1) [fileFormat file.bytes 0]).Spares
        (fun x => ¬ SlotOne x) (· = file.size) := by
      intro x hx
      unfold SlotOne at hx
      rw [List.length_singleton]
      omega
    match k with
    | 0 =>
      obtain ⟨hb, hs⟩ := hkeeps.crash hc
      exact streaming_selects hvalid hform hb hs
    | 1 =>
      obtain ⟨hb, hs⟩ := (hkeeps.step hfirst).crash hc
      exact streaming_selects hvalid hform hb hs
    | 2 =>
      obtain ⟨hb, hs⟩ := ((hkeeps.step hfirst).step hsecond).crash hc
      exact streaming_selects hvalid hform hb hs
    | 3 =>
      have hsynced : Op.sync.Spares (fun x => ¬ SlotOne x) (· = file.size) := trivial
      obtain ⟨hb, hs⟩ := (((hkeeps.step hfirst).step hsecond).step hsynced).crash hc
      exact streaming_selects hvalid hform hb hs
    | 4 =>
      obtain ⟨hbytes, hsize, hflags⟩ := crash_flags hc
      have hcached := ((hkeeps.step hfirst).step hsecond).cached
      rcases hflags with hflags | hflags
      · refine streaming_selects hvalid hform (fun x hx => ?_) (hsize.trans hcached.2)
        by_cases hf : x = flagsPos
        · rw [hf] at hx ⊢
          exact hflags.trans (hcached.1 _ hx)
        · exact (hbytes x hf).trans (hcached.1 x hx)
      · have hheld := fill_holds hvalid hbytes hsize (hflags ▸ slotSelector_set _)
          (streaming_top_lt hvalid hform)
        rw [getCommittedFileFormatVersion, hslot]
        exact hheld.selects
    | k + 5 =>
      have hsettled := converted_settled hvalid
      have hend : (converted file top).Crash c := by
        unfold converted convertFromStreamingForm
        rw [hform, if_pos rfl]
        rwa [List.take_of_length_le (by simp)] at hc
      rw [hend.eq_durable hsettled.synced]
      exact hsettled.holds.selects

end Convert

namespace Small

/-- Slot 0 is selected and holds top ref 24 and format 1; slot 1 is still empty. -/
def file : Contents :=
  ⟨write (fun _ => 0) 0 (putLE 8 24 ++ putLE 8 0 ++ mnemonic ++ [1, 1, 0, 0]), 64⟩

def publication : Publication := ⟨[.write 32 [7, 7, 7, 7, 7, 7, 7, 7]], 32, 2⟩

def full : Config := ⟨false, .full⟩
def unsynced : Config := ⟨false, .unsynced⟩

theorem file_valid : validateHeader file = .ok 24 := by decide

theorem publication_fits : publication.Fits (converted file 24) 24 where
  writes := by
    intro pos bs hop
    cases List.mem_singleton.mp hop
    decide
  sizes := by
    intro size hop
    cases List.mem_singleton.mp hop
  aligned := by decide
  topRef_lt := by decide
  size_le := by decide

end Small

end Llbt.FileHeader
