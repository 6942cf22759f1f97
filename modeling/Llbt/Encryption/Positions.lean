import Llbt.Encryption.Cryptor

/-!
# Positions in an encrypted file

An encrypted file holds groups of 65 pages: the IV table of the group, and 64 pages of data.

* `positions` — the data pages and the IV tables tile the file, the tables hold the entries of their own group, and the
  conversions between positions and between sizes are inverse to each other.
-/

set_option autoImplicit false

namespace Llbt.Encryption

def pageIndex (dataPos : Nat) : Nat := dataPos / encryptionPageSize

def blockIndex (dataPos : Nat) : Nat := pageIndex dataPos / pagesPerBlock

def dataPosToFilePos (dataPos : Nat) : Nat := dataPos + (blockIndex dataPos + 1) * encryptionPageSize

def filePosToDataPos (filePos : Nat) : Nat :=
  let metadataPageCount := (pageIndex filePos + pagesPerBlock) / (pagesPerBlock + 1)
  filePos - metadataPageCount * encryptionPageSize

def ivTablePos (dataPos : Nat) : Nat :=
  let index := pageIndex dataPos
  let metadataBlock := blockIndex dataPos
  let metadataIndex := index &&& (pagesPerBlock - 1)
  metadataBlock * (pagesPerBlock + 1) * encryptionPageSize + metadataIndex * metadataSize

def ivTableBlockPos (dataPos : Nat) : Nat := blockIndex dataPos * (pagesPerBlock + 1) * encryptionPageSize

def encryptedSizeToDataSize (size : Nat) : Nat := if size = 0 then 0 else filePosToDataPos size

def dataSizeToEncryptedSize (size : Nat) : Nat :=
  let r := size % encryptionPageSize
  dataPosToFilePos (size + if r ≠ 0 then encryptionPageSize - r else 0)

/-! ## The layout -/

/-- The page of the file that a position is in. -/
def InPage (start x : Nat) : Prop := start ≤ x ∧ x < start + encryptionPageSize

theorem dataPosToFilePos_eq (d : Nat) : dataPosToFilePos d = d + (d / 262144 + 1) * 4096 := by
  simp only [dataPosToFilePos, blockIndex, pageIndex, encryptionPageSize, pagesPerBlock, Nat.div_div_eq_div_mul]

theorem ivTableBlockPos_eq (d : Nat) : ivTableBlockPos d = d / 262144 * 266240 := by
  simp only [ivTableBlockPos, blockIndex, pageIndex, encryptionPageSize, pagesPerBlock, Nat.div_div_eq_div_mul,
    Nat.mul_assoc]

theorem filePosToDataPos_eq (x : Nat) : filePosToDataPos x = x - (x / 4096 + 64) / 65 * 4096 := rfl

theorem filePosToDataPos_dataPosToFilePos (d : Nat) : filePosToDataPos (dataPosToFilePos d) = d := by
  rw [filePosToDataPos_eq, dataPosToFilePos_eq]
  omega

theorem dataPosToFilePos_page (p : Nat) : dataPosToFilePos (p * encryptionPageSize) = filePos p := by
  simp only [dataPosToFilePos_eq, filePos, encryptionPageSize, pagesPerBlock]
  omega

theorem ivTablePos_page (p : Nat) : ivTablePos (p * encryptionPageSize) = tablePos p := by
  have hindex : pageIndex (p * encryptionPageSize) = p := Nat.mul_div_cancel p (by decide)
  have hmod : p &&& (pagesPerBlock - 1) = p % pagesPerBlock := Nat.and_two_pow_sub_one_eq_mod p 6
  simp only [ivTablePos, blockIndex, hindex, hmod, tablePos]

theorem exists_dataPos {x : Nat} (h : ∀ d, ¬ InPage (ivTableBlockPos d) x) :
    dataPosToFilePos (filePosToDataPos x) = x := by
  have htable := h (x / 266240 * 262144)
  rw [InPage, ivTableBlockPos_eq, encryptionPageSize] at htable
  rw [dataPosToFilePos_eq, filePosToDataPos_eq]
  omega

/-- **The layout of an encrypted file.**  Data positions have different file positions, and a page of data is one page
of the file; every position of the file belongs to data or to one IV table, never to both, and to the table of one group
only; the entry of a page lies in the table of its group; `file_pos_to_data_pos` undoes `data_pos_to_file_pos`; and for
every multiple of the page size, the file of the encrypted size holds the data below it and
`encrypted_size_to_data_size` returns it. -/
theorem positions :
    Function.Injective dataPosToFilePos ∧
    (∀ d, dataPosToFilePos d = dataPosToFilePos (pageIndex d * encryptionPageSize) + d % encryptionPageSize) ∧
    (∀ x, (∃ d, dataPosToFilePos d = x) ↔ ∀ d, ¬ InPage (ivTableBlockPos d) x) ∧
    (∀ x d d', InPage (ivTableBlockPos d) x → InPage (ivTableBlockPos d') x → blockIndex d = blockIndex d') ∧
    (∀ d, ivTableBlockPos d ≤ ivTablePos d ∧ ivTablePos d + metadataSize ≤ ivTableBlockPos d + encryptionPageSize) ∧
    (∀ d, filePosToDataPos (dataPosToFilePos d) = d) ∧
    ∀ size, size % encryptionPageSize = 0 → encryptedSizeToDataSize (dataSizeToEncryptedSize size) = size ∧
      ∀ d, d < size ↔ dataPosToFilePos d < dataSizeToEncryptedSize size := by
  refine ⟨Function.LeftInverse.injective filePosToDataPos_dataPosToFilePos, fun d => ?_, fun x =>
    ⟨?_, fun h => ⟨_, exists_dataPos h⟩⟩,
    fun x d d' => ?_, fun d => ?_, filePosToDataPos_dataPosToFilePos, fun size hsize => ?_⟩
  · simp only [dataPosToFilePos_eq, pageIndex, encryptionPageSize]
    omega
  · rintro ⟨d, rfl⟩ d'
    simp only [InPage, dataPosToFilePos_eq, ivTableBlockPos_eq, encryptionPageSize]
    omega
  · simp only [InPage, ivTableBlockPos_eq, blockIndex, pageIndex, encryptionPageSize, pagesPerBlock,
      Nat.div_div_eq_div_mul]
    omega
  · have hindex := Nat.and_lt_two_pow (n := 6) (pageIndex d) (by decide : pagesPerBlock - 1 < 2 ^ 6)
    simp only [ivTablePos, ivTableBlockPos, metadataSize, encryptionPageSize]
    omega
  · have hround : dataSizeToEncryptedSize size = dataPosToFilePos size := by
      simp only [dataSizeToEncryptedSize, hsize, ne_eq, not_true_eq_false, if_false, Nat.add_zero]
    refine ⟨?_, fun d => ?_⟩
    · have hpos : dataPosToFilePos size ≠ 0 := by
        rw [dataPosToFilePos_eq]
        omega
      rw [hround, encryptedSizeToDataSize, if_neg hpos, filePosToDataPos_dataPosToFilePos]
    · rw [hround, dataPosToFilePos_eq, dataPosToFilePos_eq]
      omega

end Llbt.Encryption
