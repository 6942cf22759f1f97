import Mathlib

/-!
# Encrypted pages (`AESCryptor` in `util/encrypted_file_mapping.cpp`)

A page is encrypted with an IV of its own.  Its `IVTable` entry, which stands in a metadata block before
the page, has two generations: `iv1`/`hmac1` for the write that was begun last and `iv2`/`hmac2` for the
one before it.  A write puts the new entry into the file first and the page second; a read that finds
the page not to match `hmac1` falls back on `hmac2` and takes the entry back, in memory only.

* `Describes e p c w` — the entry lets the page `c` be decrypted to `w`;
* `read_returns_last_write` — as long as no page is written with an entry that does not describe the page
  in the file, every read returns the last plaintext whose page reached the file, across all crashes;
* `rewritten_entry_loses_page` — the entry that was taken back is read from the file again when the IV
  cache is dropped, and the next interrupted write makes the page unreadable.
-/

set_option autoImplicit false

namespace Llbt.Encryption

/-- AES and HMAC under one key, and what the file format rests on. -/
structure Crypto (Plain : Type) where
  Cipher : Type
  Hmac : Type
  [decEqHmac : DecidableEq Hmac]
  /-- `crypt(mode_Encrypt)`: the page number and the IV go into the cipher. -/
  encrypt : Nat → UInt32 → Plain → Cipher
  decrypt : Nat → UInt32 → Cipher → Plain
  hmac : Cipher → Hmac
  isZero : Cipher → Bool
  zeroHmac : Hmac
  decrypt_encrypt : ∀ p iv w, decrypt p iv (encrypt p iv w) = w

attribute [instance] Crypto.decEqHmac

variable {Plain : Type} {C : Crypto Plain}

structure IVTable (C : Crypto Plain) where
  iv1 : UInt32
  hmac1 : C.Hmac
  iv2 : UInt32
  hmac2 : C.Hmac

/-- `operator==`. -/
instance : DecidableEq (IVTable C) := fun a b =>
  decidable_of_iff (a.iv1 = b.iv1 ∧ a.iv2 = b.iv2 ∧ a.hmac1 = b.hmac1 ∧ a.hmac2 = b.hmac2) <| by
    cases a
    cases b
    simp only [IVTable.mk.injEq]
    tauto

def IVTable.zero (C : Crypto Plain) : IVTable C := ⟨0, C.zeroHmac, 0, C.zeroHmac⟩

def pagesPerBlock : Nat := 64

def encryptionPageSize : Nat := 4096

def metadataSize : Nat := 64

/-- `data_pos_to_file_pos` of page `p`. -/
def filePos (p : Nat) : Nat := (p + p / pagesPerBlock + 1) * encryptionPageSize

/-- `iv_table_pos` of page `p`. -/
def tablePos (p : Nat) : Nat :=
  p / pagesPerBlock * (pagesPerBlock + 1) * encryptionPageSize + p % pagesPerBlock * metadataSize

structure Disk (C : Crypto Plain) where
  size : Nat
  table : Nat → IVTable C
  page : Nat → C.Cipher

namespace Disk

def writeTable (d : Disk C) (p : Nat) (e : IVTable C) : Disk C :=
  { d with size := max d.size (tablePos p + metadataSize), table := Function.update d.table p e }

def writePage (d : Disk C) (p : Nat) (c : C.Cipher) : Disk C :=
  { d with size := max d.size (filePos p + encryptionPageSize), page := Function.update d.page p c }

end Disk

/-- The IV tables of `AESCryptor`: `m_iv_buffer`, `m_iv_buffer_cache` and `m_iv_blocks_read`. -/
structure Cryptor (C : Crypto Plain) where
  buffer : Nat → IVTable C
  cache : Nat → IVTable C
  blocksRead : Nat → Bool

namespace Cryptor

def fresh (C : Crypto Plain) : Cryptor C := ⟨fun _ => .zero C, fun _ => .zero C, fun _ => false⟩

/-- `read_iv_block`.  Behind the end of the file nothing is read. -/
def readIvBlock (k : Cryptor C) (d : Disk C) (p : Nat) : Cryptor C :=
  { k with
    buffer := fun q =>
      if q / pagesPerBlock = p / pagesPerBlock ∧ tablePos q + metadataSize ≤ d.size then d.table q
      else k.buffer q
    blocksRead := Function.update k.blocksRead (p / pagesPerBlock) true }

/-- The block of page `p` is read where it is asked for or not known. -/
def needBlock (k : Cryptor C) (d : Disk C) (p : Nat) (refetch : Bool) : Cryptor C :=
  if refetch = true ∨ k.blocksRead (p / pagesPerBlock) = false then k.readIvBlock d p else k

/-- The entry of page `p` is the one the accessors have seen last. -/
def cacheEntry (k : Cryptor C) (p : Nat) : Cryptor C :=
  { k with cache := Function.update k.cache p (k.buffer p) }

/-- `get_iv_table`; the entry is then in the buffer. -/
def getIvTable (k : Cryptor C) (d : Disk C) (p : Nat) (refetch : Bool) : Cryptor C :=
  (k.needBlock d p refetch).cacheEntry p

def invalidateIvs (k : Cryptor C) : Cryptor C := { k with blocksRead := fun _ => false }

/-- `refresh_iv`: whether the entry in the file has changed. -/
def refreshIv (k : Cryptor C) (d : Disk C) (p : Nat) : Bool × Cryptor C :=
  let k := k.needBlock d p false
  if k.buffer p ≠ k.cache p then (true, k.cacheEntry p) else (false, k)

/-- The entry of page `p` in memory is replaced. -/
def setEntry (k : Cryptor C) (p : Nat) (e : IVTable C) : Cryptor C :=
  { k with buffer := Function.update k.buffer p e }

end Cryptor

/-- `AESCryptor::ReadResult`, with the plaintext. -/
inductive ReadResult (C : Crypto Plain) where
  | uninitialized
  | eof
  | interruptedFirstWrite
  | staleHmac
  | failed
  | success (w : Plain)

/-- The results that `read` does not try again. -/
def ReadResult.consistent : ReadResult C → Bool
  | success _ => true
  | eof => true
  | uninitialized => true
  | _ => false

/-- What `attempt_read` makes of an entry and a page, and the entry afterwards. -/
def decryptWith (d : Disk C) (p : Nat) (e : IVTable C) : ReadResult C × IVTable C :=
  if e.iv1 = 0 then (.uninitialized, e)
  else if d.size < filePos p + encryptionPageSize then (.eof, e)
  else if C.hmac (d.page p) = e.hmac1 then (.success (C.decrypt p e.iv1 (d.page p)), e)
  else if e.iv2 = 0 then (.interruptedFirstWrite, e)
  else if C.hmac (d.page p) = e.hmac2 then
    (.success (C.decrypt p e.iv2 (d.page p)), ⟨e.iv2, e.hmac2, e.iv2, e.hmac2⟩)
  else if C.isZero (d.page p) = true then (.staleHmac, e)
  else (.failed, e)

def attemptRead (d : Disk C) (k : Cryptor C) (p : Nat) (refetch : Bool) : ReadResult C × Cryptor C :=
  let k := k.getIvTable d p refetch
  let r := decryptWith d p (k.buffer p)
  (r.1, k.setEntry p r.2)

/-- The further attempts of `read`, which go to the file for the entry. -/
def retry (d : Disk C) (p : Nat) : Nat → ReadResult C × Cryptor C → ReadResult C × Cryptor C
  | 0, r => r
  | n + 1, r => if r.1.consistent = true then r else retry d p n (attemptRead d r.2 p true)

/-- `read`; without another process that writes there is no second attempt. -/
def read (d : Disk C) (k : Cryptor C) (p : Nat) (retries : Nat) : ReadResult C × Cryptor C :=
  retry d p retries (attemptRead d k p false)

/-- The IV after `iv`; 0 is reserved. -/
def nextIv (iv : UInt32) : UInt32 := if iv + 1 = 0 then iv + 1 + 1 else iv + 1

/-- The loop of `write` that looks for an IV with another HMAC. -/
def bump (C : Crypto Plain) (p : Nat) (w : Plain) (old : C.Hmac) : Nat → UInt32 → Option UInt32
  | 0, _ => none
  | n + 1, iv =>
    if C.hmac (C.encrypt p (nextIv iv) w) = old then bump C p w old n (nextIv iv) else some (nextIv iv)

/-- The number of IVs: after so many turns the loop of `write` does not end. -/
def ivCount : Nat := 2 ^ 32

/-- The entry that `write` makes from the one it finds. -/
def newEntry (p : Nat) (w : Plain) (e : IVTable C) : Option (IVTable C) :=
  (bump C p w e.hmac1 ivCount e.iv1).map fun iv => ⟨iv, C.hmac (C.encrypt p iv w), e.iv1, e.hmac1⟩

def Cryptor.written (k : Cryptor C) (p : Nat) (e : IVTable C) : Cryptor C := (k.setEntry p e).cacheEntry p

/-! ## Runs -/

/-- The file, the process and the last plaintext of each page whose page reached the file. -/
structure World (C : Crypto Plain) where
  disk : Disk C
  cryptor : Cryptor C
  last : Nat → Option Plain

inductive Action (C : Crypto Plain) where
  | write (p : Nat) (w : Plain)
  /-- A write that a crash interrupts between the entry and the page. -/
  | tornWrite (p : Nat) (w : Plain)
  | read (p : Nat) (retries : Nat)
  | invalidateIvs
  | refreshIv (p : Nat)
  /-- A crash between two operations. -/
  | crash

namespace World

/-- A file in which no page was completely written yet. -/
def start (d : Disk C) : World C := ⟨d, .fresh C, fun _ => none⟩

/-- The entry that a write of page `p` finds. -/
def entryFor (W : World C) (p : Nat) : IVTable C := (W.cryptor.getIvTable W.disk p false).buffer p

/-- The state after an action; `none` if `write` finds no IV. -/
def act (W : World C) : Action C → Option (World C)
  | .write p w => (newEntry p w (W.entryFor p)).map fun e =>
      { disk := (W.disk.writeTable p e).writePage p (C.encrypt p e.iv1 w)
        cryptor := (W.cryptor.getIvTable W.disk p false).written p e
        last := Function.update W.last p (some w) }
  | .tornWrite p w => (newEntry p w (W.entryFor p)).map fun e =>
      { W with disk := W.disk.writeTable p e, cryptor := .fresh C }
  | .read p n => some { W with cryptor := (Encryption.read W.disk W.cryptor p n).2 }
  | .invalidateIvs => some { W with cryptor := W.cryptor.invalidateIvs }
  | .refreshIv p => some { W with cryptor := (W.cryptor.refreshIv W.disk p).2 }
  | .crash => some { W with cryptor := .fresh C }

/-- The entry that a write of `p` finds belongs to the page in the file. -/
def Settled (W : World C) (p : Nat) : Prop :=
  W.last p = none ∨ (W.entryFor p).hmac1 = C.hmac (W.disk.page p)

end World

/-- A write that is interrupted has begun with an entry that belongs to the page in the file. -/
def Action.Settled (W : World C) : Action C → Prop
  | .tornWrite p _ => W.Settled p
  | _ => True

/-- The states of runs whose actions satisfy `Ok`. -/
inductive Reach (Ok : World C → Action C → Prop) : World C → Prop
  | start (d : Disk C) : Reach Ok (.start d)
  | step {W W' : World C} (a : Action C) (h : Reach Ok W) (hok : Ok W a) (hact : W.act a = some W') : Reach Ok W'

/-! ## Entries that describe a page -/

/-- The entry lets the page `c` be decrypted to `w`. -/
structure Describes (e : IVTable C) (p : Nat) (c : C.Cipher) (w : Plain) : Prop where
  begun : e.iv1 ≠ 0
  which : (e.hmac1 = C.hmac c ∧ c = C.encrypt p e.iv1 w) ∨
    (e.hmac1 ≠ C.hmac c ∧ e.iv2 ≠ 0 ∧ e.hmac2 = C.hmac c ∧ c = C.encrypt p e.iv2 w)

/-- **Decryption with such an entry** succeeds and leaves such an entry. -/
theorem Describes.decrypts {d : Disk C} {p : Nat} {e : IVTable C} {w : Plain}
    (h : Describes e p (d.page p) w) (hsize : filePos p + encryptionPageSize ≤ d.size) :
    (decryptWith d p e).1 = .success w ∧ Describes (decryptWith d p e).2 p (d.page p) w := by
  unfold decryptWith
  rw [if_neg h.begun, if_neg (Nat.not_lt.mpr hsize)]
  rcases h.which with ⟨hmac, hpage⟩ | ⟨hmac, hiv, hmac2, hpage⟩
  · rw [if_pos hmac.symm]
    refine ⟨congrArg ReadResult.success ?_, h⟩
    conv_lhs => rw [hpage]
    exact C.decrypt_encrypt p e.iv1 w
  · rw [if_neg (Ne.symm hmac), if_neg hiv, if_pos hmac2.symm]
    refine ⟨congrArg ReadResult.success ?_, hiv, Or.inl ⟨hmac2, hpage⟩⟩
    conv_lhs => rw [hpage]
    exact C.decrypt_encrypt p e.iv2 w

theorem nextIv_ne_zero (iv : UInt32) : nextIv iv ≠ 0 := by
  unfold nextIv
  split
  · rename_i h
    rw [h]
    decide
  · assumption

theorem bump_spec {p : Nat} {w : Plain} {old : C.Hmac} : ∀ {n : Nat} {iv iv' : UInt32},
    bump C p w old n iv = some iv' → iv' ≠ 0 ∧ C.hmac (C.encrypt p iv' w) ≠ old
  | 0, _, _, h => by cases h
  | n + 1, iv, iv', h => by
    unfold bump at h
    split at h
    · exact bump_spec h
    · rename_i hne
      obtain rfl := Option.some.inj h
      exact ⟨nextIv_ne_zero iv, hne⟩

theorem newEntry_spec {p : Nat} {w : Plain} {e e' : IVTable C} (h : newEntry p w e = some e') :
    e'.iv1 ≠ 0 ∧ e'.hmac1 = C.hmac (C.encrypt p e'.iv1 w) ∧ e'.hmac1 ≠ e.hmac1 ∧ e'.iv2 = e.iv1 ∧
      e'.hmac2 = e.hmac1 := by
  obtain ⟨iv, hbump, rfl⟩ := Option.map_eq_some_iff.mp h
  obtain ⟨hiv, hmac⟩ := bump_spec hbump
  exact ⟨hiv, rfl, hmac, rfl, rfl⟩

theorem describes_new {p : Nat} {w : Plain} {e e' : IVTable C} (h : newEntry p w e = some e') :
    Describes e' p (C.encrypt p e'.iv1 w) w :=
  ⟨(newEntry_spec h).1, Or.inl ⟨(newEntry_spec h).2.1, rfl⟩⟩

theorem describes_old {p : Nat} {w w₀ : Plain} {e e' : IVTable C} {c : C.Cipher}
    (h : newEntry p w e = some e') (he : Describes e p c w₀) (hmac : e.hmac1 = C.hmac c) :
    Describes e' p c w₀ := by
  obtain ⟨hiv, -, hne, hiv2, hmac2⟩ := newEntry_spec h
  have hpage : c = C.encrypt p e.iv1 w₀ := by
    rcases he.which with ⟨-, hpage⟩ | ⟨hno, -⟩
    · exact hpage
    · exact absurd hmac hno
  refine ⟨hiv, Or.inr ⟨?_, ?_, ?_, ?_⟩⟩
  · rw [← hmac]
    exact hne
  · rw [hiv2]
    exact he.begun
  · rw [hmac2]
    exact hmac
  · rw [hiv2]
    exact hpage

/-! ## Entries in the file and in memory -/

/-- The entry of page `p` has the property `P`, in the file and in memory where it is used. -/
structure EntryInv (P : IVTable C → Prop) (d : Disk C) (k : Cryptor C) (p : Nat) : Prop where
  on_disk : P (d.table p)
  buffered : k.blocksRead (p / pagesPerBlock) = true ∨ d.size < tablePos p + metadataSize → P (k.buffer p)

section Entry

variable {P : IVTable C → Prop} {d : Disk C} {k : Cryptor C} {p q : Nat}

theorem EntryInv.readIvBlock (h : EntryInv P d k p) (q : Nat) : EntryInv P d (k.readIvBlock d q) p := by
  refine ⟨h.on_disk, fun hread => ?_⟩
  change P (if p / pagesPerBlock = q / pagesPerBlock ∧ _ then d.table p else k.buffer p)
  split
  · exact h.on_disk
  · rename_i hother
    by_cases hblock : p / pagesPerBlock = q / pagesPerBlock
    · exact h.buffered (Or.inr (Nat.not_le.mp fun hle => hother ⟨hblock, hle⟩))
    · have hsame : (k.readIvBlock d q).blocksRead (p / pagesPerBlock) = k.blocksRead (p / pagesPerBlock) :=
        Function.update_of_ne hblock _ _
      rw [hsame] at hread
      exact h.buffered hread

theorem EntryInv.needBlock (h : EntryInv P d k p) (q : Nat) (refetch : Bool) :
    EntryInv P d (k.needBlock d q refetch) p := by
  unfold Cryptor.needBlock
  split
  · exact h.readIvBlock q
  · exact h

theorem EntryInv.cacheEntry (h : EntryInv P d k p) (q : Nat) : EntryInv P d (k.cacheEntry q) p :=
  ⟨h.on_disk, h.buffered⟩

theorem EntryInv.getIvTable (h : EntryInv P d k p) (q : Nat) (refetch : Bool) :
    EntryInv P d (k.getIvTable d q refetch) p := (h.needBlock q refetch).cacheEntry q

theorem blocksRead_getIvTable (k : Cryptor C) (d : Disk C) (p : Nat) (refetch : Bool) :
    (k.getIvTable d p refetch).blocksRead (p / pagesPerBlock) = true := by
  change (k.needBlock d p refetch).blocksRead (p / pagesPerBlock) = true
  unfold Cryptor.needBlock
  split
  · exact Function.update_self _ _ _
  · rename_i h
    exact Bool.eq_true_of_not_eq_false fun hf => h (Or.inr hf)

theorem EntryInv.entry (h : EntryInv P d k p) (refetch : Bool) :
    P ((k.getIvTable d p refetch).buffer p) :=
  (h.getIvTable p refetch).buffered (Or.inl (blocksRead_getIvTable k d p refetch))

theorem buffer_setEntry_self (k : Cryptor C) (p : Nat) (e : IVTable C) : (k.setEntry p e).buffer p = e :=
  Function.update_self _ _ _

theorem buffer_setEntry_ne (k : Cryptor C) (e : IVTable C) (hne : p ≠ q) :
    (k.setEntry q e).buffer p = k.buffer p := Function.update_of_ne hne _ _

theorem EntryInv.setEntry (h : EntryInv P d k p) {e : IVTable C} (he : p = q → P e) :
    EntryInv P d (k.setEntry q e) p := by
  refine ⟨h.on_disk, fun hread => ?_⟩
  by_cases hq : p = q
  · subst hq
    rw [buffer_setEntry_self]
    exact he rfl
  · rw [buffer_setEntry_ne k e hq]
    exact h.buffered hread

theorem EntryInv.attemptRead (h : EntryInv P d k p)
    (hclosed : ∀ e, P e → P (decryptWith d p e).2) (q : Nat) (refetch : Bool) :
    EntryInv P d (attemptRead d k q refetch).2 p := by
  refine (h.getIvTable q refetch).setEntry fun hq => ?_
  subst hq
  exact hclosed _ (h.entry refetch)

theorem EntryInv.retry (hclosed : ∀ e, P e → P (decryptWith d p e).2) :
    ∀ (n : Nat) {r : ReadResult C × Cryptor C}, EntryInv P d r.2 p → EntryInv P d (retry d q n r).2 p
  | 0, _, h => h
  | n + 1, r, h => by
    unfold Encryption.retry
    split
    · exact h
    · exact EntryInv.retry hclosed n (h.attemptRead hclosed q true)

theorem EntryInv.read (h : EntryInv P d k p) (hclosed : ∀ e, P e → P (decryptWith d p e).2) (q n : Nat) :
    EntryInv P d (read d k q n).2 p :=
  EntryInv.retry hclosed n (h.attemptRead hclosed q false)

theorem EntryInv.refreshIv (h : EntryInv P d k p) (q : Nat) : EntryInv P d (k.refreshIv d q).2 p := by
  have hk := h.needBlock q false
  unfold Cryptor.refreshIv
  dsimp only
  split
  · exact hk.cacheEntry q
  · exact hk

theorem table_writeTable_self (d : Disk C) (p : Nat) (e : IVTable C) : (d.writeTable p e).table p = e :=
  Function.update_self _ _ _

theorem table_writeTable_ne (d : Disk C) (e : IVTable C) (hne : p ≠ q) :
    (d.writeTable q e).table p = d.table p := Function.update_of_ne hne _ _

theorem page_writePage_self (d : Disk C) (p : Nat) (c : C.Cipher) : (d.writePage p c).page p = c :=
  Function.update_self _ _ _

theorem page_writePage_ne (d : Disk C) (c : C.Cipher) (hne : p ≠ q) :
    (d.writePage q c).page p = d.page p := Function.update_of_ne hne _ _

theorem EntryInv.writeTable_ne (h : EntryInv P d k p) (hne : p ≠ q) (e : IVTable C) :
    EntryInv P (d.writeTable q e) k p := by
  refine ⟨?_, fun hread => h.buffered (hread.imp_right (Nat.lt_of_le_of_lt (Nat.le_max_left _ _)))⟩
  rw [table_writeTable_ne d e hne]
  exact h.on_disk

theorem EntryInv.writePage (h : EntryInv P d k p) (q : Nat) (c : C.Cipher) :
    EntryInv P (d.writePage q c) k p :=
  ⟨h.on_disk, fun hread => h.buffered (hread.imp_right (Nat.lt_of_le_of_lt (Nat.le_max_left _ _)))⟩

end Entry

/-! ## The invariant -/

/-- A page that was completely written lies in the file, and its entry describes it. -/
structure PageInv (d : Disk C) (k : Cryptor C) (p : Nat) (w : Plain) : Prop where
  in_file : filePos p + encryptionPageSize ≤ d.size
  entry : EntryInv (Describes · p (d.page p) w) d k p

def Inv (W : World C) : Prop := ∀ p w, W.last p = some w → PageInv W.disk W.cryptor p w

theorem tablePos_le (p : Nat) : tablePos p + metadataSize ≤ filePos p + encryptionPageSize := by
  unfold tablePos filePos metadataSize encryptionPageSize pagesPerBlock
  omega

variable {d : Disk C} {k : Cryptor C} {p q : Nat} {w : Plain}

theorem PageInv.forget (h : PageInv d k p w) {k' : Cryptor C} (hk : ∀ b, k'.blocksRead b = false) :
    PageInv d k' p w := by
  refine ⟨h.in_file, h.entry.on_disk, fun hread => ?_⟩
  rcases hread with hread | hread
  · rw [hk] at hread
    exact absurd hread Bool.false_ne_true
  · exact absurd hread (Nat.not_lt.mpr ((tablePos_le p).trans h.in_file))

theorem PageInv.closed (h : PageInv d k p w) (e : IVTable C) (he : Describes e p (d.page p) w) :
    Describes (decryptWith d p e).2 p (d.page p) w := (he.decrypts h.in_file).2

theorem PageInv.read (h : PageInv d k p w) (q n : Nat) : PageInv d (read d k q n).2 p w :=
  ⟨h.in_file, h.entry.read h.closed q n⟩

/-- **Every read of a completely written page** returns its plaintext. -/
theorem PageInv.read_eq (h : PageInv d k p w) (n : Nat) : (Encryption.read d k p n).1 = .success w := by
  have hfirst : (attemptRead d k p false).1 = .success w := ((h.entry.entry false).decrypts h.in_file).1
  unfold Encryption.read
  cases n with
  | zero => exact hfirst
  | succ n =>
    unfold retry
    rw [if_pos (by rw [hfirst]; rfl)]
    exact hfirst

theorem PageInv.write_ne (h : PageInv d k p w) (hne : p ≠ q) (e : IVTable C) (c : C.Cipher) :
    PageInv ((d.writeTable q e).writePage q c) ((k.getIvTable d q false).written q e) p w := by
  have hpage : ((d.writeTable q e).writePage q c).page p = d.page p := page_writePage_ne _ c hne
  refine ⟨h.in_file.trans ((Nat.le_max_left _ _).trans (Nat.le_max_left _ _)), ?_⟩
  rw [hpage]
  have hk := ((h.entry.getIvTable q false).setEntry (q := q) (e := e) fun hq => absurd hq hne).cacheEntry q
  exact (hk.writeTable_ne hne e).writePage q c

theorem pageInv_write {e : IVTable C} {k' : Cryptor C} (he : newEntry p w (k'.buffer p) = some e) (k : Cryptor C)
    (hk : k.buffer p = e) : PageInv ((d.writeTable p e).writePage p (C.encrypt p e.iv1 w)) k p w := by
  refine ⟨Nat.le_max_right _ _, ?_, fun _ => ?_⟩
  · change Describes ((d.writeTable p e).table p) p _ w
    rw [page_writePage_self, table_writeTable_self]
    exact describes_new he
  · rw [page_writePage_self, hk]
    exact describes_new he

theorem Inv.write {W W' : World C} (hinv : Inv W) (hact : W.act (.write q w) = some W') : Inv W' := by
  obtain ⟨e, he, rfl⟩ := Option.map_eq_some_iff.mp hact
  intro p w' hlast
  by_cases hp : p = q
  · subst hp
    have hw : Function.update W.last p (some w) p = some w := Function.update_self _ _ _
    obtain rfl : w = w' := Option.some.inj (hw.symm.trans hlast)
    exact pageInv_write he _ (buffer_setEntry_self _ p e)
  · have hold : Function.update W.last q (some w) p = W.last p := Function.update_of_ne hp _ _
    exact (hinv p w' (hold.symm.trans hlast)).write_ne hp e _

theorem Inv.tornWrite {W W' : World C} (hinv : Inv W) (hsettled : W.Settled q)
    (hact : W.act (.tornWrite q w) = some W') : Inv W' := by
  obtain ⟨e, he, rfl⟩ := Option.map_eq_some_iff.mp hact
  intro p w' hlast
  have h := hinv p w' hlast
  by_cases hp : p = q
  · subst hp
    have hmac : (W.entryFor p).hmac1 = C.hmac (W.disk.page p) := by
      rcases hsettled with hnone | hmac
      · exact absurd (hnone.symm.trans hlast).symm (Option.some_ne_none w')
      · exact hmac
    refine PageInv.forget (k := W.cryptor.setEntry p e) ⟨h.in_file.trans (Nat.le_max_left _ _), ?_, fun _ => ?_⟩
      fun _ => rfl
    · rw [table_writeTable_self]
      exact describes_old he (h.entry.entry false) hmac
    · rw [buffer_setEntry_self]
      exact describes_old he (h.entry.entry false) hmac
  · exact PageInv.forget ⟨h.in_file.trans (Nat.le_max_left _ _), h.entry.writeTable_ne hp e⟩ fun _ => rfl

theorem Inv.step {W W' : World C} {a : Action C} (hinv : Inv W) (hok : a.Settled W)
    (hact : W.act a = some W') : Inv W' := by
  cases a with
  | write p w => exact hinv.write hact
  | tornWrite p w => exact hinv.tornWrite hok hact
  | read p n =>
    obtain rfl := Option.some.inj hact
    exact fun q w hq => (hinv q w hq).read p n
  | invalidateIvs =>
    obtain rfl := Option.some.inj hact
    exact fun q w hq => (hinv q w hq).forget fun _ => rfl
  | refreshIv p =>
    obtain rfl := Option.some.inj hact
    exact fun q w hq => ⟨(hinv q w hq).in_file, (hinv q w hq).entry.refreshIv p⟩
  | crash =>
    obtain rfl := Option.some.inj hact
    exact fun q w hq => (hinv q w hq).forget fun _ => rfl

theorem inv_of_reach {W : World C} (h : Reach Action.Settled W) : Inv W := by
  induction h with
  | start d => exact fun p w hlast => absurd hlast.symm (Option.some_ne_none w)
  | step a _ hok hact ih => exact ih.step hok hact

/-- **Every read returns the last write that reached the file**, after any number of crashes, as long as
no write was interrupted that had begun with an entry that did not belong to the page in the file. -/
theorem read_returns_last_write {W : World C} (h : Reach Action.Settled W) {p : Nat} {w : Plain}
    (hlast : W.last p = some w) (n : Nat) : (read W.disk W.cryptor p n).1 = .success w :=
  (inv_of_reach h p w hlast).read_eq n

/-! ## Pages that were never completely written -/

/-- The entry does not let the page be decrypted. -/
def Blank (e : IVTable C) (c : C.Cipher) : Prop :=
  e.iv1 = 0 ∨ (C.hmac c ≠ e.hmac1 ∧ (e.iv2 = 0 ∨ C.hmac c ≠ e.hmac2))

theorem Blank.decrypts {e : IVTable C} (h : Blank e (d.page p)) :
    (decryptWith d p e).2 = e ∧ ∀ w, (decryptWith d p e).1 ≠ .success w := by
  unfold decryptWith
  split
  · exact ⟨rfl, fun w hf => by cases hf⟩
  · rename_i hiv
    obtain ⟨hmac, hprev⟩ := h.resolve_left hiv
    rw [if_neg hmac]
    split
    · exact ⟨rfl, fun w hf => by cases hf⟩
    · split
      · exact ⟨rfl, fun w hf => by cases hf⟩
      · rename_i hiv2
        rw [if_neg (hprev.resolve_left hiv2)]
        split
        · exact ⟨rfl, fun w hf => by cases hf⟩
        · exact ⟨rfl, fun w hf => by cases hf⟩

theorem Blank.closed (e : IVTable C) (h : Blank e (d.page p)) : Blank (decryptWith d p e).2 (d.page p) := by
  rw [h.decrypts.1]
  exact h

theorem attemptRead_blank (h : EntryInv (Blank · (d.page p)) d k p) (refetch : Bool) (w : Plain) :
    (attemptRead d k p refetch).1 ≠ .success w := (h.entry refetch).decrypts.2 w

/-- What is known of a page in a run without crashes: its plaintext, or that it has none. -/
def Known (W : World C) (p : Nat) : Prop :=
  match W.last p with
  | some w => PageInv W.disk W.cryptor p w
  | none => EntryInv (Blank · (W.disk.page p)) W.disk W.cryptor p

theorem Known.read {W : World C} (h : Known W p) (q n : Nat) :
    Known { W with cryptor := (Encryption.read W.disk W.cryptor q n).2 } p := by
  unfold Known at h ⊢
  dsimp only
  cases hlast : W.last p with
  | some w =>
    rw [hlast] at h
    exact PageInv.read h q n
  | none =>
    rw [hlast] at h
    exact EntryInv.read h Blank.closed q n

theorem Known.write {W W' : World C} (h : Known W p) (hact : W.act (.write q w) = some W') : Known W' p := by
  obtain ⟨e, he, rfl⟩ := Option.map_eq_some_iff.mp hact
  unfold Known
  dsimp only
  by_cases hp : p = q
  · subst hp
    rw [Function.update_self]
    exact pageInv_write he _ (buffer_setEntry_self _ p e)
  · rw [Function.update_of_ne hp]
    unfold Known at h
    cases hlast : W.last p with
    | some w =>
      rw [hlast] at h
      exact PageInv.write_ne h hp e _
    | none =>
      rw [hlast] at h
      have hpage : ((W.disk.writeTable q e).writePage q (C.encrypt q e.iv1 w)).page p = W.disk.page p :=
        page_writePage_ne _ _ hp
      dsimp only
      rw [hpage]
      have hk := ((EntryInv.getIvTable h q false).setEntry (q := q) (e := e) fun hq => absurd hq hp).cacheEntry q
      exact (hk.writeTable_ne hp e).writePage q _

/-! ## A small instance -/

/-- Pages are numbers, and a page is encrypted by putting the IV beside it. -/
def plainCrypto : Crypto Nat where
  Cipher := UInt32 × Nat
  Hmac := UInt32 × Nat
  encrypt _ iv w := (iv, w)
  decrypt _ _ c := c.2
  hmac c := c
  isZero c := c == (0, 0)
  zeroHmac := (0, 0)
  decrypt_encrypt _ _ _ := rfl

def emptyDisk : Disk plainCrypto := ⟨0, fun _ => .zero plainCrypto, fun _ => (0, 0)⟩

/-- A write, an interrupted write, and a read in the next process. -/
theorem read_returns_last_write_small : ∃ W : World plainCrypto, Reach Action.Settled W ∧
    W.last 0 = some 1 ∧ W.disk.table 0 = ⟨2, (2, 2), 1, (1, 1)⟩ ∧
    (read W.disk W.cryptor 0 0).1 = .success 1 := by
  have h₀ : Reach Action.Settled (.start emptyDisk) := Reach.start emptyDisk
  have h₁ := h₀.step (.write 0 1) trivial rfl
  have h₂ := h₁.step (.tornWrite 0 2) (Or.inr rfl) rfl
  exact ⟨_, h₂, rfl, rfl, read_returns_last_write h₂ rfl 0⟩

/-- **A page is lost.**  Page 0 is written and a second write of it is interrupted.  The next process
reads the page, drops its IV cache, sees that the entry has not changed, and is interrupted while it
writes the page again: the page in the file belongs to neither generation of the entry. -/
theorem rewritten_entry_loses_page : ¬ ∀ W : World plainCrypto, Reach (fun _ _ => True) W →
    ∀ (p : Nat) (w : Nat), W.last p = some w → ∃ w', (read W.disk W.cryptor p 0).1 = .success w' := by
  intro hall
  have h₀ : Reach (fun _ _ => True) (.start emptyDisk) := Reach.start emptyDisk
  have h₁ := h₀.step (.write 0 1) trivial rfl
  have h₂ := h₁.step (.tornWrite 0 2) trivial rfl
  have h₃ := h₂.step (.read 0 0) trivial rfl
  have h₄ := h₃.step .invalidateIvs trivial rfl
  have h₅ := h₄.step (.refreshIv 0) trivial rfl
  have h₆ := h₅.step (.tornWrite 0 3) trivial rfl
  obtain ⟨w, hw⟩ := hall _ h₆ 0 1 rfl
  cases (show ReadResult.failed = .success w from hw)

end Llbt.Encryption
